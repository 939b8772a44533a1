import DevPost.Spec.Database

/-! What the creating screens check, in the records that are stored. Sign-up, the profile
form, the post form and `postComment` refuse an empty text; the form that edits a post does
not. So a stored text is empty exactly after such an edit. -/

namespace DevPost

open Lib FirebaseServices

namespace Database

variable {s s' : Database} {c : Call} {x : Submission}

def Named (dict : Record) : Prop := (User.init dict).username ≠ ""

def Written (dict : Record) : Prop :=
  (Posts.init dict).title ≠ "" ∧ (Posts.init dict).detailPost ≠ ""

def Said (dict : Record) : Prop := (Comments.init dict).comment ≠ ""

/-- Every record of a node has the property. -/
def Every (P : Record → Prop) (node : Table String Record) : Prop := ∀ e ∈ node.entries, P e.2

/-- What the creating screens check. -/
structure Valid (s : Database) : Prop where
  users : Every Named s.users
  posts : Every Written s.posts
  comments : Every Said s.comments

/-- The texts that a call writes unchecked are filled in. -/
def Call.Filled : Call → Prop
  | .createUser _ username _ => username ≠ ""
  | .updateUserInfo _ username _ _ => username ≠ ""
  | .uploadPost title detailPost _ _ _ _ => title ≠ "" ∧ detailPost ≠ ""
  | .editUserPost _ title detailPost _ => title ≠ "" ∧ detailPost ≠ ""
  | _ => True

/-- An edit of a post leaves neither of its texts empty. -/
def FilledIn (_ : Database) : Submission → Prop
  | .handleEditUserPost userPost title detailPost _ =>
    userPost ≠ none → title ≠ "" ∧ detailPost ≠ ""
  | _ => True

instance (s : Database) (x : Submission) : Decidable (FilledIn s x) := by
  unfold FilledIn
  split <;> infer_instance

section Every

variable {P : Record → Prop} {node : Table String Record}

theorem Every.erase (h : Every P node) (key : String) : Every P (node.erase key) :=
  fun e he => h e (Table.mem_erase.1 he).1

theorem Every.set_iff (h : Every P node) (key : String) (r : Record) :
    Every P (node.set key r) ↔ P r := by
  constructor
  · exact fun hall => hall (key, r) (Table.mem_set.2 (.inl rfl))
  · intro hr e he
    rcases Table.mem_set.1 he with rfl | ⟨he, -⟩
    · exact hr
    · exact h e he

end Every

/-- A call keeps the stored texts filled in exactly when its own are. -/
theorem valid_step (h : step s c = some s') (hs : Valid s) : Valid s' ↔ c.Filled := by
  have hvalid : Valid s' ↔ Every Named s'.users ∧ Every Written s'.posts ∧
      Every Said s'.comments :=
    ⟨fun ⟨hu, hp, hc⟩ => ⟨hu, hp, hc⟩, fun ⟨hu, hp, hc⟩ => ⟨hu, hp, hc⟩⟩
  rw [hvalid]
  cases c with
  | createUser email username uid =>
    simp only [step] at h
    split_ifs at h
    cases h
    rw [hs.users.set_iff, Named, init_createUser]
    exact and_iff_left ⟨hs.posts, hs.comments⟩
  | updateUserInfo uid username title repo =>
    cases h
    rw [hs.users.set_iff, Named, updateChildValues, init_updateUserInfo]
    exact and_iff_left ⟨hs.posts, hs.comments⟩
  | deleteUser uid =>
    cases h
    exact iff_of_true ⟨hs.users.erase uid, hs.posts, hs.comments⟩ trivial
  | uploadPost title detailPost date username userId postId =>
    simp only [step] at h
    split_ifs at h
    cases h
    rw [hs.posts.set_iff, Written, init_uploadPost, and_iff_left hs.comments]
    exact and_iff_right hs.users
  | editUserPost postId title detailPost date =>
    cases h
    rw [hs.posts.set_iff, Written, updateChildValues, init_editUserPost,
      and_iff_left hs.comments]
    exact and_iff_right hs.users
  | deletePost postId =>
    cases h
    exact iff_of_true ⟨hs.users, hs.posts.erase postId, hs.comments⟩ trivial
  | postComment user userId comment postId commentId date =>
    refine iff_of_true ?_ trivial
    simp only [step] at h
    split_ifs at h with hempty
    · cases h; exact ⟨hs.users, hs.posts, hs.comments⟩
    · cases h
      rw [hs.comments.set_iff, Said, init_postComment]
      exact ⟨hs.users, hs.posts, hempty⟩

/-- Only the form that edits a post lets an empty text through to a call. -/
theorem filled_call (h : x.call = some c) : c.Filled ↔ FilledIn s x := by
  cases x with
  | handleSignup email password username uid =>
    simp only [Submission.call] at h
    split_ifs at h with hempty
    cases h
    exact iff_of_true (fun he => hempty (.inr (.inr he))) trivial
  | handleUpdateProfile currentUser username title repo =>
    simp only [Submission.call] at h
    split_ifs at h with hempty
    obtain ⟨uid, -, rfl⟩ := Option.map_eq_some_iff.1 h
    exact iff_of_true hempty trivial
  | handleDeleteAccount currentUser =>
    obtain ⟨uid, -, rfl⟩ := Option.map_eq_some_iff.1 h
    exact Iff.rfl
  | handleSubmit currentUser user title detailPost date postId =>
    simp only [Submission.call] at h
    split_ifs at h with hempty
    obtain ⟨userId, -, h⟩ := Option.bind_eq_some_iff.1 h
    obtain ⟨username, -, rfl⟩ := Option.map_eq_some_iff.1 h
    exact iff_of_true (not_or.1 hempty) trivial
  | handleEditUserPost userPost title detailPost date =>
    obtain ⟨post, rfl, rfl⟩ := Option.map_eq_some_iff.1 h
    exact ⟨fun hf _ => hf, fun hf => hf (by simp)⟩
  | deletePost post =>
    obtain ⟨post, -, rfl⟩ := Option.map_eq_some_iff.1 h
    exact Iff.rfl
  | handleSubmitComment currentUser user post comment commentId date =>
    obtain ⟨userId, -, h⟩ := Option.bind_eq_some_iff.1 h
    obtain ⟨user, -, h⟩ := Option.bind_eq_some_iff.1 h
    obtain ⟨post, -, rfl⟩ := Option.map_eq_some_iff.1 h
    exact Iff.rfl

theorem filledIn_of_call_eq_none (h : x.call = none) : FilledIn s x := by
  cases x with
  | handleEditUserPost userPost title detailPost date =>
    exact fun hne => absurd (Option.map_eq_none_iff.1 h) hne
  | handleSignup | handleUpdateProfile | handleDeleteAccount | handleSubmit | deletePost
  | handleSubmitComment => trivial

theorem valid_submit (h : submit s x = some s') (hs : Valid s) : Valid s' ↔ FilledIn s x := by
  unfold submit at h
  split at h
  · rename_i hcall
    cases h
    exact iff_of_true hs (filledIn_of_call_eq_none hcall)
  · rename_i c hcall
    exact (valid_step h hs).trans (filled_call hcall)

/-- In every run of the screens in which no edit of a post leaves a text empty, every stored
text that a creating screen checks is filled in; the first edit that does breaks it. -/
theorem texts_filled_in {xs : List Submission} (h : Path submit FilledIn {} xs s) :
    Valid s ∧ ∀ x s', submit s x = some s' → (Valid s' ↔ FilledIn s x) := by
  have hs : Valid s := h.invariant Valid ⟨by simp [Every], by simp [Every], by simp [Every]⟩
    fun _ _ _ hs hok h => (valid_submit h hs).2 hok
  exact ⟨hs, fun x s' h => valid_submit h hs⟩

/-- A sign-up, its profile, a post that is edited and commented on. -/
theorem texts_filled_in_run :
    ∃ s, Path submit FilledIn {}
        [.handleSignup "ann@dev.io" "pw" "ann" "a", .handleUpdateProfile (some "a") "ann" "" "",
          .handleSubmit (some "a") (some "ann") "Swift" "text" "Jun 1, 2020 at 9:00 AM" "p1",
          .handleEditUserPost (some ⟨"Swift", "text", "", "ann", "a", "p1"⟩) "Swift 5" "text"
            "Jun 2, 2020 at 9:00 AM",
          .handleSubmitComment (some "a") (some "ann") (some ⟨"Swift", "text", "", "ann", "a", "p1"⟩)
            "" "c1" "Jun 3, 2020 at 9:00 AM",
          .handleSubmitComment (some "a") (some "ann") (some ⟨"Swift", "text", "", "ann", "a", "p1"⟩)
            "good" "c2" "Jun 3, 2020 at 9:00 AM"] s ∧
      s.posts.entries.length = 1 ∧ s.comments.entries.length = 1 ∧ Valid s :=
  ⟨_, .of_exec_get (by decide), by decide, by decide, (texts_filled_in (.of_exec_get (by decide))).1⟩

/-- The form that edits a post takes an empty title. -/
theorem title_emptied :
    ¬ ∀ (xs : List Submission) (s : Database), Path submit anyStep {} xs s → Valid s := by
  intro h
  have hs := h [.handleSubmit (some "a") (some "ann") "Swift" "text" "Jun 1, 2020 at 9:00 AM" "p1",
    .handleEditUserPost (some ⟨"Swift", "text", "", "ann", "a", "p1"⟩) "" "text"
      "Jun 2, 2020 at 9:00 AM"] _ (.of_exec_get (by decide))
  exact (hs.posts ("p1", _) (List.mem_singleton.2 rfl)).1 (by decide)

end Database

end DevPost
