import DevPost.Proofs.Threads
import DevPost.Sanity.MyComments
import DevPost.Sanity.MainFeed
import DevPost.Spec.Network

/-! The devices follow the database: whatever they do and in whatever order, every screen
of every device has the tables that the calls made so far leave in one database. -/

namespace DevPost

open Lib FirebaseServices

namespace Database

variable {db db' : Database}

/-- The posts after a call, if there is one. -/
def postsAfter (posts : Table String Record) : Option Call → Table String Record
  | some (.uploadPost title detailPost date username userId postId) => posts.set postId
      (Table.ofList (uploadPostValues title detailPost date username userId postId))
  | some (.editUserPost postId title detailPost date) => posts.set postId
      (updateChildValues posts postId (editUserPostValues title detailPost date))
  | some (.deletePost postId) => posts.erase postId
  | _ => posts

/-- The post ids after a call. -/
def postIdsAfter (ids : List String) : Option Call → List String
  | some (.uploadPost _ _ _ _ _ postId) => postId :: ids
  | _ => ids

theorem posts_follow {c : Option Call} (h : follow step db c = some db') :
    db'.posts = postsAfter db.posts c ∧ db'.postIds = postIdsAfter db.postIds c := by
  cases c with
  | none =>
    obtain rfl := Option.some.inj h
    exact ⟨rfl, rfl⟩
  | some c =>
    cases c <;> simp only [follow_some, step] at h <;> (try split_ifs at h) <;> cases h <;>
      exact ⟨rfl, rfl⟩

end Database

open Database

namespace Device

variable {F : Foundation} {d d' : Device} {e : Event} {db : Database}

theorem step_parts (h : step F d e = some d') :
    (e.admissible ∧ d.canSelect e) ∧
      follow (Feed.step F) d.feed (d.feedEvent e) = some d'.feed ∧
      follow MyComments.step d.mine (d.mineEvent e) = some d'.mine ∧
      follow Threads.step d.threads (d.threadsEvent e) = some d'.threads := by
  unfold step at h
  split_ifs at h with hok
  obtain ⟨feed, hfeed, h⟩ := Option.bind_eq_some_iff.1 h
  obtain ⟨mine, hmine, h⟩ := Option.bind_eq_some_iff.1 h
  obtain ⟨threads, hthreads, rfl⟩ := Option.map_eq_some_iff.1 h
  exact ⟨hok, hfeed, hmine, hthreads⟩

theorem isSome_step (hok : e.admissible ∧ d.canSelect e)
    (hfeed : (follow (Feed.step F) d.feed (d.feedEvent e)).isSome)
    (hmine : (follow MyComments.step d.mine (d.mineEvent e)).isSome)
    (hthreads : (follow Threads.step d.threads (d.threadsEvent e)).isSome) :
    (step F d e).isSome := by
  obtain ⟨feed, hfeed⟩ := Option.isSome_iff_exists.1 hfeed
  obtain ⟨mine, hmine⟩ := Option.isSome_iff_exists.1 hmine
  obtain ⟨threads, hthreads⟩ := Option.isSome_iff_exists.1 hthreads
  simp [step, hok, hfeed, hmine, hthreads]

theorem feed_own {fe : Feed.Event} {s s' : Feed} (hok : (Event.feed fe).admissible)
    (h : Feed.step F s fe = some s') : s'.hub.node = s.hub.node ∧ s'.ids = s.ids := by
  obtain ⟨hf, -⟩ := Feed.step_frame h
  rw [hf.node, hf.ids]
  cases fe with
  | viewDidLoad | refreshData | textDidChange | runMain => exact ⟨rfl, rfl⟩
  | uploadPost | editUserPost | deletePost => cases hok

theorem feed_follows (hok : e.admissible)
    (h : follow (Feed.step F) d.feed (d.feedEvent e) = some d'.feed) :
    d'.feed.hub.node = postsAfter d.feed.hub.node (d.call e) ∧
      d'.feed.ids = postIdsAfter d.feed.ids (d.call e) := by
  by_cases hown : ∃ fe, e = .feed fe
  · obtain ⟨fe, rfl⟩ := hown
    exact feed_own hok h
  have hevent : d.feedEvent e = (d.call e).bind (·.feed) := by
    cases e <;> first | rfl | exact absurd ⟨_, rfl⟩ hown
  rw [hevent] at h
  cases hcall : d.call e with
  | none =>
    rw [hcall] at h
    rw [← Option.some.inj h]
    exact ⟨rfl, rfl⟩
  | some c =>
    rw [hcall] at h
    cases c with
    | uploadPost | editUserPost | deletePost =>
      simp only [Option.bind_some, Call.feed, follow_some] at h
      have hf := (Feed.step_frame h).1
      exact ⟨hf.node, hf.ids⟩
    | createUser | updateUserInfo | deleteUser | postComment =>
      rw [← Option.some.inj h]
      exact ⟨rfl, rfl⟩

theorem mine_own {me : MyComments.Event} {s' : MyComments} (hok : (Event.mine me).admissible)
    (h : MyComments.step d.mine me = some s') :
    s'.hub.node = postsAfter d.mine.hub.node (d.call (.mine me)) ∧
      s'.ids = postIdsAfter d.mine.ids (d.call (.mine me)) := by
  have hf := (MyComments.step_frame h).1
  rw [hf.node, hf.ids]
  cases me with
  | uploadPost | remoteEdit | remoteDelete => cases hok
  | deletePost l =>
    obtain ⟨cell, shown, hp, hpost⟩ := MyComments.deletePost_cases h
    cases hc : (d.mine.vc.cells cell).post <;>
      simp [MyComments.written, MyComments.put, MyComments.erased, MyComments.generated, call,
        submission, hp, hc, Submission.call, postsAfter, postIdsAfter]
  | editUserPost title detailPost date =>
    obtain ⟨post, hp, -⟩ := MyComments.editUserPost_cases h
    simp [MyComments.written, MyComments.put, MyComments.generated, call, submission, hp,
      Submission.call, postsAfter, postIdsAfter]
  | viewDidLoad | signIn | signOut | refreshData | deleteIconTapped | editIconTapped | cancel
  | layout | runMain => exact ⟨rfl, rfl⟩

theorem mine_follows (hok : e.admissible)
    (h : follow MyComments.step d.mine (d.mineEvent e) = some d'.mine) :
    d'.mine.hub.node = postsAfter d.mine.hub.node (d.call e) ∧
      d'.mine.ids = postIdsAfter d.mine.ids (d.call e) := by
  by_cases hown : ∃ me, e = .mine me
  · obtain ⟨me, rfl⟩ := hown
    exact mine_own hok h
  have hevent : d.mineEvent e = (d.call e).bind (·.mine) := by
    cases e <;> first | rfl | exact absurd ⟨_, rfl⟩ hown
  rw [hevent] at h
  cases hcall : d.call e with
  | none =>
    rw [hcall] at h
    rw [← Option.some.inj h]
    exact ⟨rfl, rfl⟩
  | some c =>
    rw [hcall] at h
    cases c with
    | uploadPost | editUserPost | deletePost =>
      simp only [Option.bind_some, Call.mine, follow_some] at h
      have hf := (MyComments.step_frame h).1
      exact ⟨hf.node, hf.ids⟩
    | createUser | updateUserInfo | deleteUser | postComment =>
      rw [← Option.some.inj h]
      exact ⟨rfl, rfl⟩

/-- The comment of a call is written to the node of the threads, and nothing else. -/
def Comments (t t' : Threads) : Option Call → Prop
  | some (.postComment user userId comment postId commentId date) =>
    t.postComment user userId comment postId commentId date = some t'
  | _ => t'.hub.node = t.hub.node

theorem comments_call {t t' : Threads} {c : Option Call}
    (h : follow Threads.step t (c.bind (·.threads)) = some t') : Comments t t' c := by
  cases c with
  | none => rw [← Option.some.inj h]; rfl
  | some c =>
    cases c with
    | postComment => exact h
    | createUser | updateUserInfo | deleteUser | uploadPost | editUserPost | deletePost =>
      rw [← Option.some.inj h]
      rfl

theorem threads_follow (h : follow Threads.step d.threads (d.threadsEvent e) = some d'.threads) :
    Comments d.threads d'.threads (d.call e) := by
  cases e with
  | feed | call | mine | handleSubmit => exact comments_call h
  | didSelectItemAt item =>
    simp only [threadsEvent] at h
    change d'.threads.hub.node = d.threads.hub.node
    cases hs : d.feed.main.didSelectItemAt item with
    | none =>
      rw [hs] at h
      rw [← Option.some.inj h]
    | some c =>
      rw [hs] at h
      rw [← Option.some.inj h]
      cases c.post <;> rfl
  | runThreads =>
    simp only [threadsEvent, follow_some, Threads.step] at h
    split at h
    · rw [← Option.some.inj h]
      rfl
    · cases h
  | handleSubmitComment screen comment user commentId date =>
    obtain ⟨c, hc, h⟩ := Option.bind_eq_some_iff.1 (show Option.bind _ _ = _ from h)
    have hcall : d.call (.handleSubmitComment screen comment user commentId date) =
        Submission.call (.handleSubmitComment d.mine.session user c.post comment commentId date) := by
      simp [call, submission, hc]
    rw [hcall]
    -- without a session, a username or a post the form does nothing
    cases hu : d.mine.session with
    | none => simp_all [Submission.call, Comments]
    | some userId =>
      cases user with
      | none => simp_all [Submission.call, Comments]
      | some user =>
        cases hp : c.post with
        | none => simp_all [Submission.call, Comments]
        | some post => simpa [hu, hp, Submission.call, Comments] using h

/-- A device has the tables of the database. -/
structure Copies (db : Database) (d : Device) : Prop where
  feed : d.feed.hub.node = db.posts ∧ d.feed.ids = db.postIds
  mine : d.mine.hub.node = db.posts ∧ d.mine.ids = db.postIds
  threads : ∀ k, d.threads.hub.node.lookup k = (db.comments.lookup k).map .dict
  commentIds : ∀ i ∈ db.commentIds, db.comments.lookup i ≠ none

theorem copies_init : Copies {} {} where
  feed := ⟨rfl, rfl⟩
  mine := ⟨rfl, rfl⟩
  threads _ := rfl
  commentIds := by simp

/-- The calls that the screens hear of. -/
def Heard (c : Call) : Prop := c.feed ≠ none ∨ c.threads ≠ none

theorem heard_submission {x : Submission} {c : Call} (hx : d.submission e = some x)
    (hc : x.call = some c) : Heard c := by
  cases x with
  | handleSignup | handleUpdateProfile | handleDeleteAccount =>
    unfold submission at hx
    split at hx <;> first | (split at hx <;> simp at hx) | simp at hx
  | handleSubmit currentUser user title detailPost date postId =>
    simp only [Submission.call] at hc
    split_ifs at hc
    obtain ⟨userId, -, hc⟩ := Option.bind_eq_some_iff.1 hc
    obtain ⟨username, -, rfl⟩ := Option.map_eq_some_iff.1 hc
    simp [Heard, Call.feed]
  | handleEditUserPost | deletePost =>
    obtain ⟨post, -, rfl⟩ := Option.map_eq_some_iff.1 hc
    simp [Heard, Call.feed]
  | handleSubmitComment currentUser user post comment commentId date =>
    obtain ⟨userId, -, hc⟩ := Option.bind_eq_some_iff.1 hc
    obtain ⟨user, -, hc⟩ := Option.bind_eq_some_iff.1 hc
    obtain ⟨post, -, rfl⟩ := Option.map_eq_some_iff.1 hc
    simp [Heard, Call.threads]

theorem heard_call {c : Call} (hok : e.admissible) (h : d.call e = some c) : Heard c := by
  cases e with
  | call c' =>
    obtain rfl : c' = c := Option.some.inj h
    cases c' with
    | createUser | updateUserInfo | deleteUser => cases hok
    | uploadPost | editUserPost | deletePost => exact .inl (by simp [Call.feed])
    | postComment => exact .inr (by simp [Call.threads])
  | feed | mine | didSelectItemAt | runThreads | handleSubmit | handleSubmitComment =>
    rw [call] at h
    · obtain ⟨x, hx, hc⟩ := Option.bind_eq_some_iff.1 h
      exact heard_submission hx hc
    · simp

theorem feedEvent_of_call {c : Call} (h : d.call e = some c) : d.feedEvent e = c.feed := by
  cases e with
  | feed => cases h
  | mine | didSelectItemAt | runThreads | handleSubmit | handleSubmitComment | call =>
    rw [feedEvent, h]
    · rfl
    · simp

/-- The database makes the call that a device made, or made for itself. -/
theorem copies_step (h : step F d e = some d') (hs : Copies db d) :
    ∃ db', follow Database.step db (d.call e) = some db' ∧ Copies db' d' := by
  obtain ⟨⟨hok, -⟩, hfeed, hmine, hthreads⟩ := step_parts h
  obtain ⟨hnode, hids⟩ := feed_follows hok hfeed
  obtain ⟨hnode', hids'⟩ := mine_follows hok hmine
  have hcomments := threads_follow hthreads
  have hposts : ∀ db', follow Database.step db (d.call e) = some db' →
      db'.comments = db.comments → db'.commentIds = db.commentIds →
      d'.threads.hub.node = d.threads.hub.node → Copies db' d' := by
    intro db' hdb hc hci ht
    obtain ⟨hp, hpi⟩ := posts_follow hdb
    refine ⟨?_, ?_, ?_, ?_⟩
    · rw [hnode, hids, hs.feed.1, hs.feed.2, hp, hpi]
      exact ⟨rfl, rfl⟩
    · rw [hnode', hids', hs.mine.1, hs.mine.2, hp, hpi]
      exact ⟨rfl, rfl⟩
    · rw [ht, hc]
      exact hs.threads
    · rw [hc, hci]
      exact hs.commentIds
  cases hcall : d.call e with
  | none =>
    rw [hcall] at hposts hcomments
    exact ⟨db, rfl, hposts db rfl rfl rfl hcomments⟩
  | some c =>
    rw [hcall] at hposts hcomments
    cases c with
    | createUser | updateUserInfo | deleteUser =>
      exact absurd (heard_call hok hcall) (by simp [Heard, Call.feed, Call.threads])
    | uploadPost title detailPost date username userId postId =>
      have hid : postId ∉ db.postIds := by
        rw [feedEvent_of_call hcall, Call.feed, follow_some] at hfeed
        rw [← hs.feed.2]
        exact (Feed.step_frame hfeed).2
      exact ⟨_, if_neg hid, hposts _ (if_neg hid) rfl rfl hcomments⟩
    | editUserPost | deletePost => exact ⟨_, rfl, hposts _ rfl rfl rfl hcomments⟩
    | postComment user userId comment postId commentId date =>
      simp only [Comments, Threads.postComment] at hcomments
      split_ifs at hcomments with hempty hnew
      · have hdb : follow Database.step db (some (.postComment user userId comment postId commentId
            date)) = some db := if_pos hempty
        exact ⟨db, hdb, hposts db hdb rfl rfl (by rw [← Option.some.inj hcomments])⟩
      · rw [hs.threads, Option.map_eq_none_iff] at hnew
        have hid : commentId ∉ db.commentIds := fun hi => hs.commentIds _ hi hnew
        refine ⟨_, (if_neg hempty).trans (if_neg hid), ?_, ?_, fun k => ?_, fun i hi => ?_⟩
        · rw [hnode, hids, hcall]
          exact hs.feed
        · rw [hnode', hids', hcall]
          exact hs.mine
        · rw [← Option.some.inj hcomments]
          simp only [Hub.put, Table.lookup_set, hs.threads]
          split_ifs <;> rfl
        · simp only [Table.lookup_set]
          split_ifs with hk
          · simp
          · exact hs.commentIds i ((List.mem_cons.1 hi).resolve_left hk)

end Device

namespace Network

open Device

variable {F : Foundation} {ι : Type*} [DecidableEq ι] [Fintype ι] {s : ι → Device}
  {evs : List (ι × Device.Event)}

/-- No screen of any device has loaded, and nothing is stored. -/
def launch : ι → Device := fun _ => {}

theorem call_echo {d d' : Device} {e e' : Device.Event} (h : (Network F).echo d e = some e') :
    d'.call e' = d.call e := by
  obtain ⟨c, hc, rfl⟩ := Option.map_eq_some_iff.1 h
  exact hc.symm

/-- The calls that the devices make in a run. -/
def calls (F : Foundation) (evs : List (ι × Device.Event)) : List Database.Call :=
  callsOf (Network F).all (fun s a => (s a.1).call a.2) launch evs

theorem copies_run {ok : (ι → Device) → ι × Device.Event → Prop}
    (h : Path (Network F).all ok launch evs s) :
    ∃ db, Path Database.step anyStep {} (calls F evs) db ∧ ∀ i, Copies db (s i) :=
  Peer.simulates (fun _ _ _ _ => copies_step) (fun _ _ => Option.map_eq_none_iff.1)
    (fun _ _ _ he _ => call_echo he) h fun _ => copies_init

/-- In every run of the devices, their calls, one after the other, leave in one database the
tables that every screen of every device has. -/
theorem follows_database (h : Path (Network F).all anyStep launch evs s) :
    ∃ db, Path Database.step anyStep {} (calls F evs) db ∧ ∀ i, Copies db (s i) :=
  copies_run h

/-- A post of one device reaches the feed of another, which comments on it. -/
theorem follows_database_run :
    let evs : List (Fin 2 × Device.Event) :=
      [(0, .mine (.signIn "a")), (0, .feed .viewDidLoad), (1, .feed .viewDidLoad),
        (0, .handleSubmit "Swift" "text" "Jun 1, 2020 at 9:00 AM" (some "ann") "p1"),
        (1, .feed .runMain), (1, .feed .runMain), (1, .didSelectItemAt 0),
        (1, .mine (.signIn "b")),
        (1, .handleSubmitComment 0 "nice" (some "bob") "c1" "Jun 1, 2020 at 9:30 AM"),
        (1, .runThreads)]
    ∃ s, Path (Network .ascii).all anyStep launch evs s ∧
      (s 1).threads.screens.map (fun c => c.comments.map (·.comment)) = [["nice"]] ∧
      ∃ db, Path Database.step anyStep {} (calls .ascii evs) db ∧ ∀ i, Copies db (s i) := by
  intro evs
  exact ⟨_, .of_exec_get (by decide), by decide, follows_database (.of_exec_get (by decide))⟩

end Network

end DevPost
