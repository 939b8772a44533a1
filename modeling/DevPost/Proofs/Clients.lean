import DevPost.Spec.Clients
import Mathlib.Logic.Function.Basic

/-! The posts node keeps complete records exactly as long as every edit finds its post.
An upload writes all the fields and an edit merges three of them, so on a post that is
there it changes nothing else, and on one that is gone it leaves just the three. What
a client acts on was uploaded under the uid of its listener in either case. -/

namespace DevPost

open Lib FirebaseServices

namespace Clients

variable {s s' : Clients} {e : Event}

def postFields : List String := ["title", "detailPost", "date", "username", "userId", "postId"]

/-- A child with all its fields, under its id and by its uploader. -/
def CompleteEntry (uploader : Table String Uid) (e : String × Record) : Prop :=
  (∀ key ∈ postFields, e.2.has key) ∧ e.2.str "postId" = e.1 ∧
    uploader.lookup e.1 = some (e.2.str "userId")

/-- Every child of `posts` is a complete record. -/
def Complete (s : Clients) : Prop := ∀ e ∈ s.posts.entries, CompleteEntry s.uploader e

/-- An edit that reaches the database finds its post there. -/
def EditsStored (s : Clients) : Event → Prop
  | .editUserPost client i _ _ _ =>
    ∀ post ∈ (s.told client)[i]?, s.posts.lookup post.postId ≠ none
  | _ => True

instance (s : Clients) (e : Event) : Decidable (EditsStored s e) := by
  unfold EditsStored
  split <;> infer_instance

theorem complete_uploadPost (uploader : Table String Uid)
    (userId title detailPost date username postId : String) :
    CompleteEntry (uploader.set postId userId) (postId,
      Table.ofList (uploadPostValues title detailPost date username userId postId)) := by
  refine ⟨fun key hkey => ?_, ?_, ?_⟩
  · simp only [postFields, List.mem_cons, List.not_mem_nil, or_false] at hkey
    simp only [uploadPostValues, Table.ofList, has_merge]
    rcases hkey with rfl | rfl | rfl | rfl | rfl | rfl <;> rfl
  · simp [uploadPostValues, Table.ofList, str_merge]
  · simp [uploadPostValues, Table.ofList, str_merge]
    rfl

theorem CompleteEntry.edit {uploader : Table String Uid} {postId : String} {dict : Record}
    (h : CompleteEntry uploader (postId, dict)) (title detailPost date : String) :
    CompleteEntry uploader (postId, dict.merge (editUserPostValues title detailPost date)) := by
  obtain ⟨hhas, hid, huser⟩ := h
  refine ⟨fun key hkey => ?_, ?_, ?_⟩
  · simp only [editUserPostValues, has_merge, Bool.or_eq_true]
    exact .inr (hhas key hkey)
  · rw [← hid]
    simp [editUserPostValues, str_merge]
    rfl
  · rw [huser]
    simp [editUserPostValues, str_merge]
    rfl

/-- An edit of a child that is gone leaves a record with nobody's id. -/
theorem not_complete_edit (uploader : Table String Uid) (postId title detailPost date : String) :
    ¬ CompleteEntry uploader
      (postId, (∅ : Record).merge (editUserPostValues title detailPost date)) := by
  intro h
  have : Record.has ((∅ : Record).merge (editUserPostValues title detailPost date)) "userId" :=
    h.1 "userId" (by simp [postFields])
  rw [editUserPostValues, has_merge] at this
  simp [Record.has] at this

/-- A step keeps the table complete exactly when it is no edit of a post that is gone. -/
theorem complete_step (h : step s e = some s') (hs : Complete s) :
    Complete s' ↔ EditsStored s e := by
  cases e with
  | uploadPost userId title detailPost date username postId =>
    simp only [step] at h
    split at h <;> cases h
    rename_i hid
    refine iff_of_true (fun x hx => ?_) trivial
    rcases Table.mem_set.1 hx with rfl | ⟨hx, hne⟩
    · exact complete_uploadPost ..
    · obtain ⟨hhas, hkey, huser⟩ := hs x hx
      exact ⟨hhas, hkey, by rw [Table.lookup_set_of_ne _ _ hne, huser]⟩
  | childAdded client user i =>
    obtain ⟨post, -, rfl⟩ := Option.map_eq_some_iff.1 h
    refine iff_of_true ?_ trivial
    split
    · exact hs
    · exact hs
  | editUserPost client i title detailPost date =>
    obtain ⟨post, hpost, rfl⟩ := Option.map_eq_some_iff.1 h
    simp only [EditsStored, hpost, Option.mem_def, Option.some.injEq, forall_eq']
    constructor
    · intro hcomplete hnone
      have := hcomplete (post.postId, _) (Table.mem_set.2 (.inl rfl))
      rw [updateChildValues, hnone] at this
      exact not_complete_edit _ _ _ _ _ this
    · intro hsome x hx
      rcases Table.mem_set.1 hx with rfl | ⟨hx, -⟩
      · obtain ⟨dict, hdict⟩ := Option.ne_none_iff_exists'.1 hsome
        have hentry := hs _ (Table.lookup_eq_some.1 hdict)
        rw [updateChildValues, hdict]
        exact hentry.edit title detailPost date
      · exact hs x hx
  | deletePost client i =>
    obtain ⟨post, -, rfl⟩ := Option.map_eq_some_iff.1 h
    exact iff_of_true (fun x hx => hs x (Table.mem_erase.1 hx).1) trivial

/-- Under any interleaving of clients with stale lists in which every edit finds its post,
every child of the table is a complete record. -/
theorem posts_complete {evs : List Event} (h : Path step EditsStored {} evs s) : Complete s :=
  h.invariant Complete (by simp [Complete]) fun _ _ _ hs hok h => (complete_step h hs).2 hok

/-- Two clients of one account and one of another. -/
theorem posts_complete_run :
    ∃ s, Path step EditsStored {}
        [.uploadPost "a" "Swift" "text" "Jun 1, 2020 at 9:00 AM" "ann" "p1", .childAdded 0 "a" 0,
          .childAdded 1 "a" 0, .childAdded 2 "b" 0,
          .uploadPost "b" "Lean" "text" "Jun 2, 2020 at 9:00 AM" "bob" "p2", .childAdded 2 "b" 1,
          .editUserPost 0 0 "Swift 5" "text" "Jun 3, 2020 at 9:00 AM", .deletePost 1 0] s ∧
      s.posts.entries.map (·.1) = ["p2"] ∧ Complete s :=
  ⟨_, .of_exec_get (by decide), by decide, posts_complete (.of_exec_get (by decide))⟩

/-- A post deleted on one device and then edited on another is left without an author. -/
theorem edit_after_delete :
    ¬ ∀ (evs : List Event) (s : Clients), Path step anyStep {} evs s → Complete s := by
  intro h
  have hs := h [.uploadPost "a" "Swift" "text" "Jun 1, 2020 at 9:00 AM" "ann" "p1",
    .childAdded 0 "a" 0, .childAdded 1 "a" 0, .deletePost 1 0,
    .editUserPost 0 0 "Swift 5" "text" "Jun 3, 2020 at 9:00 AM"] _ (.of_exec_get (by decide))
  exact absurd ((hs ("p1", _) (List.mem_singleton.2 rfl)).1 "userId" (by decide)) (by decide)

/-- A record with an author, and who uploaded its id. -/
def TracedRecord (uploader : Table String Uid) (r : Record) : Prop :=
  (Posts.init r).userId ≠ "" →
    uploader.lookup (Posts.init r).postId = some (Posts.init r).userId

/-- Every record with an author is under the id it was uploaded with, and every post a
client was told of was uploaded by the account its listener is for. -/
structure Traced (s : Clients) : Prop where
  posts : ∀ e ∈ s.posts.entries, TracedRecord s.uploader e.2
  added : ∀ r ∈ s.added, TracedRecord s.uploader r
  told : ∀ c, ∀ p ∈ s.told c, s.uploader.lookup p.postId = some p.userId

theorem Traced.put (hs : Traced s) {r : Record} (hr : TracedRecord s.uploader r)
    (postId : String) : Traced (s.put postId r) where
  posts x hx := by
    rcases Table.mem_set.1 hx with rfl | ⟨hx, -⟩
    · exact hr
    · exact hs.posts x hx
  added x hx := by
    rcases List.mem_append.1 hx with hx | hx
    · exact hs.added x hx
    · split_ifs at hx
      · exact List.mem_singleton.1 hx ▸ hr
      · simp at hx
  told := hs.told

theorem Traced.upload (hs : Traced s) {postId : String} (hid : s.uploader.lookup postId = none)
    (userId : Uid) : Traced { s with uploader := s.uploader.set postId userId } := by
  have hkeep : ∀ {i u}, s.uploader.lookup i = some u →
      (s.uploader.set postId userId).lookup i = some u := by
    intro i u hi
    have hne : i ≠ postId := fun he => by simp [he, hid] at hi
    rw [Table.lookup_set_of_ne _ _ hne, hi]
  exact ⟨fun x hx hu => hkeep (hs.posts x hx hu), fun r hr hu => hkeep (hs.added r hr hu),
    fun c p hp => hkeep (hs.told c p hp)⟩

theorem traced_step (h : step s e = some s') (hs : Traced s) : Traced s' := by
  cases e with
  | uploadPost userId title detailPost date username postId =>
    simp only [step] at h
    split at h <;> cases h
    rename_i hid
    refine (hs.upload hid userId).put (s := { s with uploader := _ }) ?_ postId
    rw [TracedRecord, init_uploadPost]
    simp
  | childAdded client user i =>
    obtain ⟨post, hpost, rfl⟩ := Option.map_eq_some_iff.1 h
    split
    · rename_i hu
      obtain ⟨r, hr, hinit⟩ := Option.bind_eq_some_iff.1 hpost
      obtain rfl : Posts.init r = post := by
        unfold observeUserPost at hinit
        split_ifs at hinit
        exact Option.some.inj hinit
      refine ⟨hs.posts, hs.added, fun c p hp => ?_⟩
      by_cases hc : c = client
      · subst hc
        simp only [Function.update_self] at hp
        rcases List.mem_append.1 hp with hp | hp
        · exact hs.told c p hp
        · rw [List.mem_singleton.1 hp]
          exact hs.added r (List.mem_of_getElem? hr) (hu.2 ▸ hu.1)
      · simp only [Function.update_of_ne hc] at hp
        exact hs.told c p hp
    · exact hs
  | editUserPost client i title detailPost date =>
    obtain ⟨post, -, rfl⟩ := Option.map_eq_some_iff.1 h
    refine hs.put ?_ post.postId
    rw [TracedRecord, updateChildValues, init_editUserPost]
    cases hl : s.posts.lookup post.postId with
    | none => exact fun hu => absurd rfl hu
    | some dict => exact hs.posts _ (Table.lookup_eq_some.1 hl)
  | deletePost client i =>
    obtain ⟨post, -, rfl⟩ := Option.map_eq_some_iff.1 h
    exact ⟨fun x hx => hs.posts x (Table.mem_erase.1 hx).1, hs.added, hs.told⟩

/-- In every run, edits and deletions go to ids that were uploaded under the uid of the
client's listener, also when a deletion or an edit came in between. -/
theorem told_uploaded {evs : List Event} (h : Path step anyStep {} evs s) :
    ∀ c, ∀ p ∈ s.told c, s.uploader.lookup p.postId = some p.userId := by
  have hs : Traced s := h.invariant Traced ⟨by simp, by simp, by simp⟩
    fun _ _ _ hs _ h => traced_step h hs
  exact hs.told

end Clients

end DevPost
