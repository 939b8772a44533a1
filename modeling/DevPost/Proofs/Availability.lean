import DevPost.Proofs.Convergence
import DevPost.Proofs.Conversation
import DevPost.Proofs.DataSource
import DevPost.Sanity.Named

/-! No screen blocks another, and none crashes. What the user and the main queue can ask of a
screen it can do: the rows and the dialogs are there. The tables of all devices are the same,
and what My Comments edits has an id that was given out, so a call that one screen makes is one
that every screen of every device can hear of. -/

namespace DevPost

open Lib FirebaseServices

/-- A call with ids as they are given out: new ones for what is added, known ones for edits. -/
def Database.Call.Accepted (db : Database) : Database.Call → Prop
  | .uploadPost _ _ _ _ _ postId => postId ∉ db.postIds
  | .editUserPost postId _ _ _ => postId ∈ db.postIds
  | .deletePost _ => True
  | .postComment _ _ comment _ commentId _ => comment = "" ∨ db.comments.lookup commentId = none
  | _ => False

open Database

/-- What the user and the main queue can ask of the feed. -/
def Feed.Offers (s : Feed) : Feed.Event → Prop
  | .viewDidLoad => s.loaded = false
  | .refreshData => s.loaded = true
  | .textDidChange _ => True
  | .runMain => s.hub.queue ≠ []
  | .uploadPost .. | .editUserPost .. | .deletePost _ => False

theorem Feed.isSome_step {F : Foundation} {s : Feed} {e : Feed.Event} (h : s.Offers e) :
    (Feed.step F s e).isSome := by
  cases e with
  | viewDidLoad =>
    have h : s.loaded = false := h
    simp [step, h]
  | refreshData =>
    have h : s.loaded = true := h
    simp [step, h]
  | textDidChange => rfl
  | runMain =>
    have h : s.hub.queue ≠ [] := h
    simp only [step, runMain]
    split
    · exact absurd ‹_› h
    all_goals rfl
  | uploadPost | editUserPost | deletePost => exact h.elim

namespace MyComments

variable {s s' : MyComments} {e : MyComments.Event}

/-- What the user and the main queue can ask of My Comments. -/
def Offers (s : MyComments) : MyComments.Event → Prop
  | .viewDidLoad => s.loaded = false
  | .refreshData => s.loaded = true
  | .signIn _ | .signOut | .cancel | .layout _ => True
  -- a cell that is on screen is on a row
  | .deleteIconTapped cell | .editIconTapped cell => (s.vc.cells cell).indexPath ≠ none
  | .deletePost _ => ∃ cell shown, s.presented = some (.deleteAlert cell shown)
  | .editUserPost .. => ∃ vc, s.presented = some (.editUserPost vc)
  | .runMain _ => s.hub.queue ≠ []
  | .uploadPost .. | .remoteEdit .. | .remoteDelete _ => False

/-- The form that edits a post has one. -/
def Filled (s : MyComments) : Prop :=
  ∀ vc, s.presented = some (.editUserPost vc) → vc.userPost ≠ none

theorem filled_init : Filled {} := by simp [Filled]

theorem filled_step (h : step s e = some s') (hs : Filled s) : Filled s' := by
  cases e with
  | viewDidLoad | uploadPost | remoteEdit | refreshData =>
    simp only [step] at h
    split at h <;> cases h
    exact hs
  | signIn | signOut | remoteDelete | layout =>
    cases h
    exact hs
  | cancel =>
    cases h
    simp [Filled]
  | deleteIconTapped cell | editIconTapped cell =>
    obtain ⟨post, -, rfl⟩ := Option.map_eq_some_iff.1 h
    cases hp : s.presented with
    | some d => simpa [Filled, present, hp] using hs
    | none => simp [Filled, present, hp]
  | deletePost =>
    obtain ⟨cell, shown, -, ⟨-, rfl⟩ | ⟨post, vc, -, -, rfl⟩⟩ := deletePost_cases h
    · simp [Filled]
    · simp [Filled]
  | editUserPost =>
    obtain ⟨post, -, rfl⟩ := editUserPost_cases h
    simp [Filled]
  | runMain =>
    rcases runMain_cases h with ⟨o, r, q, -, rfl⟩ | ⟨o, post, q, -, -, rfl⟩ |
      ⟨o, post, q, newPosts, posts, -, -, -, rfl⟩ | ⟨c, q, -, rfl⟩ | ⟨c, u, q, -, rfl⟩ <;>
    exact hs

theorem isSome_tapped (hb : s.vc.Bound) {cell : ℕ} (h : (s.vc.cells cell).indexPath ≠ none) :
    (s.tapped cell).isSome := by
  obtain ⟨row, hrow⟩ := Option.ne_none_iff_exists'.1 h
  obtain ⟨p, hp⟩ : ∃ p, s.vc.myPost[row]? = some p :=
    ⟨_, List.getElem?_eq_getElem (hb.range cell row hrow)⟩
  simp [tapped, hrow, hb.post cell row hrow, hp]

theorem isSome_step (hb : s.vc.Bound) (hf : s.Filled) (h : s.Offers e) : (step s e).isSome := by
  cases e with
  | viewDidLoad =>
    have h : s.loaded = false := h
    simp [step, h]
  | refreshData =>
    have h : s.loaded = true := h
    simp [step, h]
  | signIn | signOut | cancel | layout => rfl
  | deleteIconTapped cell | editIconTapped cell =>
    rw [step, Option.isSome_map]
    exact isSome_tapped hb h
  | deletePost l =>
    obtain ⟨cell, shown, hp⟩ := h
    exact isSome_deletePost hb hp l
  | editUserPost title detailPost date =>
    obtain ⟨vc, hp⟩ := h
    obtain ⟨post, hpost⟩ := Option.ne_none_iff_exists'.1 (hf vc hp)
    simp [step, hp, handleEditUserPost, hpost]
  | runMain l =>
    have h : s.hub.queue ≠ [] := h
    simp only [step, runMain]
    split
    · exact absurd ‹_› h
    · rfl
    · rfl
    · split <;> rfl
  | uploadPost | remoteEdit | remoteDelete => exact h.elim

end MyComments

/-- The queue of the threads has events only. -/
theorem Threads.isSome_runMain {s : Threads} (hs : s.Sound) (h : s.hub.queue ≠ []) :
    (Threads.step s .runMain).isSome := by
  obtain ⟨t, q, hq⟩ := List.exists_cons_of_ne_nil h
  obtain ⟨i, -, child, rfl⟩ := hs.addressed t (hq ▸ List.mem_cons_self)
  simp [step, hq]

namespace Device

variable {F : Foundation} {d : Device} {e : Event} {db : Database} {c : Call}

/-- What holds of a device in every run. -/
structure Sound (d : Device) : Prop where
  rows : d.feed.main.rows = d.feed.main.shown.length
  bound : d.mine.vc.Bound
  filled : d.mine.Filled
  named : d.mine.Named
  threads : d.threads.Sound

/-- What the user and the main queue can ask of a device. -/
def Offers (d : Device) : Event → Prop
  | .feed e => d.feed.Offers e
  | .mine e => d.mine.Offers e
  | .didSelectItemAt item => item < d.feed.main.rows
  | .runThreads => d.threads.hub.queue ≠ []
  -- a new `UUID` has not been given out
  | .handleSubmit _ _ _ _ postId => postId ∉ d.feed.ids
  | .handleSubmitComment screen _ _ commentId _ =>
    screen < d.threads.screens.length ∧ d.threads.hub.node.lookup commentId = none
  | .call _ => False

theorem isSome_postComment {t : Threads} {user userId comment postId commentId date : String}
    (h : comment = "" ∨ t.hub.node.lookup commentId = none) :
    (t.postComment user userId comment postId commentId date).isSome := by
  unfold Threads.postComment
  rcases h with h | h
  · rw [if_pos h]
    rfl
  · rw [if_pos h]
    split_ifs <;> rfl

theorem hears (hd : Copies db d) (hc : c.Accepted db) :
    (follow (Feed.step F) d.feed c.feed).isSome ∧
      (follow MyComments.step d.mine c.mine).isSome ∧
        (follow Threads.step d.threads c.threads).isSome := by
  cases c with
  | createUser | updateUserInfo | deleteUser => cases hc
  | uploadPost title detailPost date username userId postId =>
    have hc : postId ∉ db.postIds := hc
    simp [Call.feed, Call.mine, Call.threads, Feed.step, MyComments.step, hd.feed.2, hd.mine.2, hc]
  | editUserPost postId title detailPost date =>
    have hc : postId ∈ db.postIds := hc
    simp [Call.feed, Call.mine, Call.threads, Feed.step, MyComments.step, hd.feed.2, hd.mine.2, hc]
  | deletePost postId => simp [Call.feed, Call.mine, Call.threads, Feed.step, MyComments.step]
  | postComment user userId comment postId commentId date =>
    refine ⟨rfl, rfl, isSome_postComment (hc.imp_right fun hnew => ?_)⟩
    rw [hd.threads, hnew]
    rfl

theorem isSome_call (hd : Copies db d) (hc : c.Accepted db) :
    (step F d (.call c)).isSome := by
  obtain ⟨hfeed, hmine, hthreads⟩ := hears (F := F) hd hc
  refine isSome_step ⟨?_, rfl⟩ hfeed hmine hthreads
  cases c <;> first | rfl | cases hc

/-- What My Comments sends is a deletion, or an edit with an id that was given out. -/
theorem accepted_mine {me : MyComments.Event} (hd : Copies db d) (hs : MyComments.Named d.mine)
    (h : d.call (.mine me) = some c) : c.Accepted db := by
  obtain ⟨x, hx, hc⟩ := Option.bind_eq_some_iff.1
    (show (d.submission (.mine me)).bind (·.call) = some c from h)
  cases me with
  | deletePost l =>
    simp only [submission] at hx
    split at hx <;> cases hx
    obtain ⟨post, -, rfl⟩ := Option.map_eq_some_iff.1 hc
    trivial
  | editUserPost title detailPost date =>
    simp only [submission] at hx
    split at hx <;> cases hx
    rename_i vc hp
    obtain ⟨post, hpost, rfl⟩ := Option.map_eq_some_iff.1 hc
    change post.postId ∈ db.postIds
    rw [← hd.mine.2]
    exact hs.hand post (by simp [MyComments.inHand, hp, hpost])
  | viewDidLoad | signIn | signOut | uploadPost | remoteEdit | remoteDelete | refreshData
  | deleteIconTapped | editIconTapped | cancel | layout | runMain => cases hx

theorem accepted_call (hd : Copies db d) (hs : MyComments.Named d.mine) (hoff : d.Offers e)
    (h : d.call e = some c) : c.Accepted db := by
  cases e with
  | mine me => exact accepted_mine hd hs h
  | feed | didSelectItemAt | runThreads => cases h
  | call => exact hoff.elim
  | handleSubmit title detailPost date user postId =>
    have hnew : postId ∉ d.feed.ids := hoff
    simp only [call, submission, Option.bind_some, Submission.call] at h
    split_ifs at h
    obtain ⟨userId, -, h⟩ := Option.bind_eq_some_iff.1 h
    obtain ⟨username, -, rfl⟩ := Option.map_eq_some_iff.1 h
    rw [hd.feed.2] at hnew
    exact hnew
  | handleSubmitComment screen comment user commentId date =>
    have hnew : d.threads.hub.node.lookup commentId = none := hoff.2
    obtain ⟨x, hx, h⟩ := Option.bind_eq_some_iff.1
      (show Option.bind (d.submission _) (·.call) = some c from h)
    obtain ⟨screen, -, rfl⟩ := Option.map_eq_some_iff.1 hx
    obtain ⟨userId, -, h⟩ := Option.bind_eq_some_iff.1 h
    obtain ⟨user, -, h⟩ := Option.bind_eq_some_iff.1 h
    obtain ⟨post, -, rfl⟩ := Option.map_eq_some_iff.1 h
    rw [hd.threads, Option.map_eq_none_iff] at hnew
    exact .inr hnew

theorem hears_call (hd : Copies db d) {o : Option Call} (hc : ∀ c ∈ o, c.Accepted db) :
    (follow (Feed.step F) d.feed (o.bind (·.feed))).isSome ∧
      (follow MyComments.step d.mine (o.bind (·.mine))).isSome ∧
        (follow Threads.step d.threads (o.bind (·.threads))).isSome := by
  cases o with
  | none => exact ⟨rfl, rfl, rfl⟩
  | some c => exact hears hd (hc c rfl)

/-- The screen that an event is for takes it, and the others of the device hear of it. -/
theorem isSome_own (hd : Copies db d) (hs : d.Sound) (hoff : d.Offers e) :
    (step F d e).isSome := by
  obtain ⟨hfeed, hmine, hthreads⟩ := hears_call (F := F) hd
    fun c hc => accepted_call hd hs.named hoff hc
  cases e with
  | feed fe =>
    have hadm : (Event.feed fe).admissible := by
      cases fe <;> first | rfl | exact hoff.elim
    exact isSome_step ⟨hadm, rfl⟩ (Feed.isSome_step hoff) hmine hthreads
  | mine me =>
    have hadm : (Event.mine me).admissible := by
      cases me <;> first | rfl | exact hoff.elim
    exact isSome_step ⟨hadm, rfl⟩ hfeed (MyComments.isSome_step hs.bound hs.filled hoff) hthreads
  | call => exact hoff.elim
  | handleSubmit => exact isSome_step ⟨rfl, rfl⟩ hfeed hmine hthreads
  | runThreads => exact isSome_step ⟨rfl, rfl⟩ hfeed hmine (Threads.isSome_runMain hs.threads hoff)
  | didSelectItemAt item =>
    have hitem : item < d.feed.main.rows := hoff
    have hget : d.feed.main.didSelectItemAt item ≠ none := by
      simpa [MainController.didSelectItemAt_eq] using hs.rows ▸ hitem
    refine isSome_step ⟨rfl, by simp [canSelect, hitem, hget]⟩ hfeed hmine ?_
    obtain ⟨c, hc⟩ := Option.ne_none_iff_exists'.1 hget
    simp [threadsEvent, hc, Threads.step]
  | handleSubmitComment screen comment user commentId date =>
    refine isSome_step ⟨rfl, rfl⟩ hfeed hmine ?_
    obtain ⟨hscreen, hnew⟩ := hoff
    simp only [threadsEvent, follow_some, Threads.step, List.getElem?_eq_getElem hscreen,
      Option.bind_some]
    split
    · exact isSome_postComment (.inr hnew)
    · rfl

end Device

namespace Network

open Device

variable {F : Foundation} {ι : Type*} [DecidableEq ι] {s : ι → Device}
  {evs : List (ι × Device.Event)}

/-- Accounts have a uid. -/
def RealUsers (s : ι → Device) (a : ι × Device.Event) : Prop :=
  ∀ me ∈ (s a.1).mineEvent a.2, MyComments.RealUser me

instance (s : ι → Device) (a : ι × Device.Event) : Decidable (RealUsers s a) := by
  unfold RealUsers
  infer_instance

theorem realUsers_heard {a : ι × Device.Event} (h : RealUsers s a) (j : ι) :
    ∀ e ∈ (Network F).heard j s a, ∀ me ∈ (s j).mineEvent e, MyComments.RealUser me := by
  intro e he
  by_cases hj : j = a.1
  · subst hj
    rw [Peer.heard, if_pos rfl] at he
    exact Option.some.inj he ▸ h
  · rw [Peer.heard, if_neg hj] at he
    obtain ⟨c, -, rfl⟩ := Option.map_eq_some_iff.1 he
    intro me hme
    cases c with
    | uploadPost | editUserPost | deletePost =>
      obtain rfl := Option.some.inj hme
      trivial
    | createUser | updateUserInfo | deleteUser | postComment => cases hme

variable [Fintype ι]

theorem mine_sound (h : Path (Network F).all RealUsers launch evs s) (j : ι) :
    (s j).mine.vc.Bound ∧ (s j).mine.Filled ∧ (s j).mine.Named := by
  obtain ⟨evs', hpath, -⟩ := Peer.run_of (fun d e =>
      ∀ me ∈ d.mineEvent e, MyComments.RealUser me) h j fun _ _ _ hok _ => realUsers_heard hok j
  obtain ⟨mevs, hmine, -⟩ := mine_run (fun _ => MyComments.RealUser) hpath fun _ _ h => h
  have hall : (s j).mine.Sound ∧ (s j).mine.Filled ∧ (s j).mine.Named :=
    hmine.invariant (fun s => s.Sound ∧ s.Filled ∧ s.Named)
      ⟨MyComments.sound_init, MyComments.filled_init, MyComments.named_init⟩
      fun _ _ _ hs hok h => ⟨MyComments.sound_step h hs.1, MyComments.filled_step h hs.2.1,
        MyComments.named_step h hok hs.1 hs.2.2⟩
  exact ⟨hall.1.bound, hall.2⟩

theorem counted_run {ok : (ι → Device) → ι × Device.Event → Prop}
    (h : Path (Network F).all ok launch evs s) (j : ι) :
    (s j).feed.main.rows = (s j).feed.main.shown.length := by
  obtain ⟨evs', hpath, -⟩ := Peer.run_of anyStep h j fun _ _ _ _ _ _ _ => trivial
  obtain ⟨fevs, hfeed, -⟩ := feed_run anyStep hpath fun _ _ _ _ _ _ => trivial
  refine hfeed.invariant (fun s => s.main.rows = s.main.shown.length) rfl ?_
  intro s e s' hs _ h
  rcases Feed.reloads_cases h with ⟨-, hrows⟩ | ⟨-, hmain⟩
  · exact hrows
  · exact hmain ▸ hs

theorem device_sound (h : Path (Network F).all RealUsers launch evs s) (j : ι) : (s j).Sound := by
  obtain ⟨hbound, hfilled, hnamed⟩ := mine_sound h j
  exact ⟨counted_run h j, hbound, hfilled, hnamed, sound_run h j⟩

/-- In every reachable state, whatever the user and the main queue can ask of a device it does,
with all the other devices: no screen crashes, and none refuses what it hears of a call. -/
theorem accepts (h : Path (Network F).all RealUsers launch evs s) {i : ι} {e : Device.Event}
    (hoff : (s i).Offers e) : ((Network F).all s (i, e)).isSome := by
  obtain ⟨db, -, hdb⟩ := copies_run h
  have hall : ∀ j, (follow (Network F).step (s j) ((Network F).heard j s (i, e))).isSome := by
    intro j
    by_cases hj : j = i
    · subst hj
      simp only [Peer.heard, if_pos, follow_some]
      exact isSome_own (hdb j) (device_sound h j) hoff
    · rw [Peer.heard, if_neg hj]
      cases hc : (s i).call e with
      | none => simp [Network, hc]
      | some c =>
        simp only [Network, hc, Option.map_some, follow_some]
        exact isSome_call (hdb j) (accepted_call (hdb i) (device_sound h i).named hoff hc)
  rw [Peer.all, dif_pos hall]
  rfl

/-- The form that edits a post is open while another device deletes the post. -/
theorem accepts_run :
    ∃ s : Fin 2 → Device, Path (Network .ascii).all RealUsers launch
        [(0, .mine (.signIn "a")), (0, .mine .viewDidLoad), (0, .mine (.runMain [])),
          (0, .handleSubmit "Swift" "text" "Jun 1, 2020 at 9:00 AM" (some "ann") "p1"),
          (1, .feed .viewDidLoad), (0, .mine (.runMain [])), (0, .mine (.runMain [(0, 0)])),
          (0, .mine (.editIconTapped 0)), (1, .call (.deletePost "p1"))] s ∧
      (s 1).feed.stored = [] ∧
      ((Network .ascii).all s
        (0, .mine (.editUserPost "Swift 5" "text" "Jun 3, 2020 at 9:00 AM"))).isSome :=
  ⟨_, .of_exec_get (by decide), by decide,
    accepts (.of_exec_get (by decide)) ⟨_, rfl⟩⟩

end Network

end DevPost
