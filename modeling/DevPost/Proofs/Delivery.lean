import DevPost.Lib.Drain
import DevPost.Lib.Mirror
import DevPost.Proofs.Convergence
import DevPost.Proofs.Conversation

/-! A post that is uploaded arrives. From the upload on it is in, or on its way to, every list
that a feed keeps, so whichever closure ran last, the feed has it; a list that is rebuilt later is
rebuilt from a table that has it. And nothing is on its way for ever: the main queues of all
devices run empty. -/

namespace DevPost

open Lib FirebaseServices

namespace Feed

variable {F : Foundation} {s s' s₀ : Feed} {e : Event} {p : Posts}

/-- Steps that neither edit nor delete the post. -/
def Spares (postId : String) (_ : Feed) : Event → Prop
  | .editUserPost id _ _ _ => id ≠ postId
  | .deletePost id => id ≠ postId
  | _ => True

/-- The post is stored, and once everything has arrived it is in every list. -/
structure Delivered (p : Posts) (s : Feed) : Prop where
  known : p.postId ∈ s.ids
  stored : ∃ r, s.hub.node.lookup p.postId = some r ∧ Posts.init r = p
  settled : s.loaded → s.settled.Everywhere s.hub.listeners p

theorem Delivered.mem_stored (hd : Delivered p s) : p ∈ s.stored := by
  obtain ⟨r, hr, hp⟩ := hd.stored
  exact List.mem_map.2 ⟨_, Table.lookup_eq_some.1 hr, hp⟩

theorem delivered_upload {title detailPost date username userId postId : String} (hs : Steady s)
    (h : step F s (.uploadPost title detailPost date username userId postId) = some s') :
    Delivered ⟨title, detailPost, date, username, userId, postId⟩ s' := by
  obtain ⟨hk, hn, rs, hw⟩ := hs
  obtain ⟨hf, hid⟩ := step_frame h
  refine ⟨by simp [hf.ids, generated], ⟨_, ?_, init_uploadPost ..⟩, fun hl => ?_⟩
  · simp [hf.node, written]
  · have hl : s.loaded = true := by simpa [hf.loaded] using hl
    have hsent : s.sent (.uploadPost title detailPost date username userId postId) =
        s.hub.listeners.map (·, ⟨title, detailPost, date, username, userId, postId⟩) := by
      simp [sent, Table.lookup_eq_none_of_keys hn hid]
    rw [settled_step h hk, hsent, hf.listeners, show s.joins _ = [] from rfl, List.append_nil]
    exact Board.everywhere_raise (sort_perm _) (by simp [hw.listeners, hl])

theorem lookup_step (h : step F s e = some s') (hok : Spares p.postId s e)
    (hknown : p.postId ∈ s.ids) :
    s'.hub.node.lookup p.postId = s.hub.node.lookup p.postId := by
  obtain ⟨hf, hen⟩ := step_frame h
  rw [hf.node]
  cases e with
  | uploadPost title detailPost date username userId postId =>
    have hne : p.postId ≠ postId := fun he => hen (he ▸ hknown)
    exact Table.lookup_set_of_ne _ _ hne
  | editUserPost postId title detailPost date =>
    have hne : p.postId ≠ postId := Ne.symm hok
    exact Table.lookup_set_of_ne _ _ hne
  | deletePost postId =>
    have hne : p.postId ≠ postId := Ne.symm hok
    exact Table.lookup_erase_of_ne _ hne
  | viewDidLoad | refreshData | textDidChange | runMain => rfl

theorem delivered_step (hs : Steady s) (h : step F s e = some s') (hok : Spares p.postId s e)
    (hd : Delivered p s) : Delivered p s' := by
  obtain ⟨hk, -, rs, hw⟩ := hs
  obtain ⟨hf, hen⟩ := step_frame h
  refine ⟨by simp [hf.ids, hd.known], ?_, fun hl' => ?_⟩
  · rw [lookup_step h hok hd.known]
    exact hd.stored
  by_cases hload : e = .viewDidLoad
  · subst hload
    obtain ⟨-, hlisteners, -⟩ := hw.unloaded hen
    rw [settled_step h hk, hf.listeners, hlisteners]
    exact Board.everywhere_first (sort_perm _) hd.mem_stored
  have hl : s.loaded = true := by simpa [hf.loaded, hload] using hl'
  by_cases hreg : ∃ r q, e = .runMain ∧ s.hub.queue = .other r :: q
  · obtain ⟨r, q, rfl, hq⟩ := hreg
    have hr : r ∉ rs := hw.fresh (by simp [hq])
    have hown : s.settled.own r = [] := by
      rw [settled, Board.own_settle_of_notMem]
      · exact hw.own r hr
      · intro d hdm he
        have hmem := hw.sent d hdm
        rw [he] at hmem
        exact hr (hw.mem_listeners.1 hmem)
    have hsent : s.sent .runMain = s.stored.map (.refreshData r, ·) := by simp [sent, hq]
    have hjoins : s.joins .runMain = [.refreshData r] := by simp [joins, hq]
    rw [settled_step h hk, hf.listeners, hsent, hjoins]
    exact (hd.settled hl).snapshot hown hd.mem_stored
  · have hjoins : s.joins e = [] := by
      cases e with
      | viewDidLoad => exact absurd rfl hload
      | runMain =>
        simp only [joins]
        split
        · rename_i r q hq
          exact absurd ⟨r, q, rfl, hq⟩ hreg
        · rfl
      | uploadPost | editUserPost | deletePost | refreshData | textDidChange => rfl
    have hlisteners : s'.hub.listeners = s.hub.listeners := by
      rw [hf.listeners, hjoins, List.append_nil]
    rw [settled_step h hk, hlisteners]
    exact (hd.settled hl).settle (sort_perm _) fun d hdm => hlisteners ▸ sent_listeners h d hdm

theorem Delivered.shown (hd : Delivered p s) (hl : s.loaded) (hquiet : s.hub.queue = []) :
    p ∈ s.main.posts := by
  have hv := (hd.settled hl).visible
  rwa [settled_of_quiet hquiet] at hv

theorem queue_drains : Drains (step F) (fun _ => True) (· = .runMain) (·.hub.weight) where
  keeps _ _ _ _ _ _ := trivial
  lighter s e s' _ he h := by
    subst he
    simp only [step, runMain] at h
    split at h <;> cases h
    · rename_i hq
      exact Hub.weight_handle observeUserPost hq
    · rename_i l post q hq
      obtain ⟨newPosts, main, hs⟩ := runClosure_eq { s with hub.queue := q } l post
      rw [hs]
      exact Hub.weight_block hq
    · rename_i hq
      exact Hub.weight_observe hq _
  next s _ hne := by
    refine ⟨.runMain, rfl, ?_⟩
    simp only [step, runMain]
    split
    · rename_i hq
      exact absurd (Hub.weight_eq_zero.2 hq) hne
    all_goals rfl

end Feed

namespace MyComments

theorem runClosure_hub (s : MyComments) (post : Posts) (l : Layout) (c : Closure) :
    (s.runClosure post l c).hub = s.hub := by
  cases c <;> rfl

theorem queue_drains : Drains step (fun _ => True) (fun e => ∃ l, e = .runMain l) (·.hub.weight) where
  keeps _ _ _ _ _ _ := trivial
  lighter s e s' _ he h := by
    obtain ⟨l, rfl⟩ := he
    simp only [step, runMain] at h
    split at h
    · cases h
    · rename_i hq
      cases h
      exact Hub.weight_handle observeUserPost hq
    · rename_i hq
      cases h
      split_ifs
      · rw [runClosure_hub]
        exact Hub.weight_block hq
      · exact Hub.weight_block hq
    · rename_i hq
      split at h <;> cases h
      · exact Hub.weight_other hq
      · exact Hub.weight_observe hq _
  next s _ hne := by
    refine ⟨.runMain [], ⟨[], rfl⟩, ?_⟩
    simp only [step, runMain]
    split
    · rename_i hq
      exact absurd (Hub.weight_eq_zero.2 hq) hne
    · rfl
    · rfl
    · split <;> rfl

end MyComments

namespace Threads

theorem queue_drains : Drains step Sound (· = .runMain) (·.hub.weight) where
  keeps _ _ _ hs _ h := sound_step h hs
  lighter s e s' _ he h := by
    subst he
    simp only [step] at h
    split at h <;> cases h
    rename_i hq
    simp [Hub.weight, hq, Task.weight]
  next s hs hne := by
    refine ⟨.runMain, rfl, ?_⟩
    cases hq : s.hub.queue with
    | nil => exact absurd (Hub.weight_eq_zero.2 hq) hne
    | cons t q =>
      obtain ⟨i, -, child, rfl⟩ := hs.addressed t (by simp [hq])
      simp [step, hq]

end Threads

namespace Device

variable {F : Foundation} {d d' d₀ : Device} {e : Event} {p : Posts}

/-- The main queue of a device runs a task of one of its screens. -/
def Event.works (e : Event) : Prop :=
  e = .feed .runMain ∨ (∃ l, e = .mine (.runMain l)) ∨ e = .runThreads

def weight (d : Device) : ℕ := d.feed.hub.weight + d.mine.hub.weight + d.threads.hub.weight

/-- Nothing is on its way to a screen. -/
def Quiet (d : Device) : Prop :=
  d.feed.hub.queue = [] ∧ d.mine.hub.queue = [] ∧ d.threads.hub.queue = []

theorem weight_eq_zero : d.weight = 0 ↔ d.Quiet := by
  simp [weight, Quiet, Hub.weight_eq_zero, and_assoc]

theorem quiet_of_weight {ι : Type*} [Fintype ι] {s : ι → Device}
    (hz : ∑ i, (s i).weight = 0) (i : ι) : (s i).Quiet :=
  weight_eq_zero.1 (Finset.sum_eq_zero_iff.1 hz i (Finset.mem_univ i))

theorem call_of_works (h : e.works) : d.call e = none := by
  rcases h with rfl | ⟨l, rfl⟩ | rfl <;> rfl

theorem queue_drains :
    Drains (step F) (fun d => Threads.Sound d.threads) Event.works weight where
  keeps d e d' hs hw h := by
    have hthreads := (step_parts h).2.2.2
    rcases hw with rfl | ⟨l, rfl⟩ | rfl
    · exact Option.some.inj hthreads ▸ hs
    · exact Option.some.inj hthreads ▸ hs
    · exact Threads.sound_step (e := .runMain) hthreads hs
  lighter d e d' hs hw h := by
    obtain ⟨-, hfeed, hmine, hthreads⟩ := step_parts h
    unfold weight
    rcases hw with rfl | ⟨l, rfl⟩ | rfl
    · have hlt := (Feed.queue_drains (F := F)).lighter _ _ _ trivial rfl hfeed
      rw [← Option.some.inj hmine, ← Option.some.inj hthreads]
      omega
    · have hlt := MyComments.queue_drains.lighter _ _ _ trivial ⟨l, rfl⟩ hmine
      rw [← Option.some.inj hfeed, ← Option.some.inj hthreads]
      omega
    · have hlt := Threads.queue_drains.lighter _ _ _ hs rfl hthreads
      rw [← Option.some.inj hfeed, ← Option.some.inj hmine]
      omega
  next d hs hne := by
    have hparts : d.feed.hub.weight ≠ 0 ∨ d.mine.hub.weight ≠ 0 ∨ d.threads.hub.weight ≠ 0 := by
      unfold weight at hne
      omega
    rcases hparts with hne | hne | hne
    · obtain ⟨_, rfl, he⟩ := Feed.queue_drains (F := F).next _ trivial hne
      exact ⟨_, .inl rfl, isSome_step ⟨rfl, rfl⟩ (by simp [feedEvent, he]) rfl rfl⟩
    · obtain ⟨_, ⟨l, rfl⟩, he⟩ := MyComments.queue_drains.next _ trivial hne
      exact ⟨_, .inr (.inl ⟨l, rfl⟩), isSome_step ⟨rfl, rfl⟩ rfl (by simp [mineEvent, he]) rfl⟩
    · obtain ⟨_, rfl, he⟩ := Threads.queue_drains.next _ hs hne
      exact ⟨_, .inr (.inr rfl), isSome_step ⟨rfl, rfl⟩ rfl rfl (by simp [threadsEvent, he])⟩

theorem feedEvent_cases (hadm : e.admissible) {fe : Feed.Event} (hfe : d.feedEvent e = some fe) :
    d.call e = none ∧ (fe = .viewDidLoad ∨ fe = .refreshData ∨ fe = .runMain ∨
        ∃ searchText, fe = .textDidChange searchText) ∨
      ∃ c, d.call e = some c ∧ c.feed = some fe := by
  cases hcall : d.call e with
  | none =>
    refine .inl ⟨rfl, ?_⟩
    cases e with
    | feed fe' =>
      obtain rfl := Option.some.inj hfe
      cases fe' with
      | uploadPost | editUserPost | deletePost => cases hadm
      | viewDidLoad | refreshData | textDidChange | runMain => simp
    | mine | didSelectItemAt | runThreads | handleSubmit | handleSubmitComment | call =>
      rw [feedEvent, hcall] at hfe
      · cases hfe
      · simp
  | some c => exact .inr ⟨c, rfl, feedEvent_of_call hcall ▸ hfe⟩

end Device

namespace Database.Call

/-- The call neither edits nor deletes the post. -/
def spares (postId : String) : Call → Prop
  | .editUserPost id _ _ _ => id ≠ postId
  | .deletePost id => id ≠ postId
  | _ => True

/-- An edit of a post that is stored. -/
def editsExisting (posts : Table String Record) : Call → Prop
  | .editUserPost id _ _ _ => posts.lookup id ≠ none
  | _ => True

instance (postId : String) : (c : Call) → Decidable (c.spares postId)
  | .editUserPost id _ _ _ | .deletePost id => inferInstanceAs (Decidable (id ≠ postId))
  | .createUser .. | .updateUserInfo .. | .deleteUser _ | .uploadPost .. | .postComment .. =>
    .isTrue trivial

instance (posts : Table String Record) : (c : Call) → Decidable (c.editsExisting posts)
  | .editUserPost id _ _ _ => inferInstanceAs (Decidable (posts.lookup id ≠ none))
  | .createUser .. | .updateUserInfo .. | .deleteUser _ | .uploadPost .. | .deletePost _
  | .postComment .. => .isTrue trivial

end Database.Call

namespace Network

open Device

variable {F : Foundation} {ι : Type*} [DecidableEq ι] {s s₀ : ι → Device}
  {pre evs : List (ι × Device.Event)}

/-- No device edits or deletes the post. -/
def Spares (postId : String) (s : ι → Device) (a : ι × Device.Event) : Prop :=
  ∀ c ∈ (s a.1).call a.2, c.spares postId

/-- A device edits posts only while they are stored. -/
def EditsExisting (s : ι → Device) (a : ι × Device.Event) : Prop :=
  ∀ c ∈ (s a.1).call a.2, c.editsExisting (s a.1).feed.hub.node

instance (postId : String) (s : ι → Device) (a : ι × Device.Event) :
    Decidable (Spares postId s a) := by
  unfold Spares
  infer_instance

instance (s : ι → Device) (a : ι × Device.Event) : Decidable (EditsExisting s a) := by
  unfold EditsExisting
  infer_instance

theorem call_heard {a : ι × Device.Event} {j : ι} {e : Device.Event}
    (he : e ∈ (Network F).heard j s a) {c : Database.Call} (hc : (s j).call e = some c) :
    (s a.1).call a.2 = some c := by
  by_cases hj : j = a.1
  · rw [Peer.heard, if_pos hj] at he
    rw [← hc, ← Option.some.inj he, hj]
  · rw [Peer.heard, if_neg hj] at he
    rw [← call_echo he, ← hc]

theorem heard_of_call {a : ι × Device.Event} {c : Database.Call}
    (hc : (s a.1).call a.2 = some c) (j : ι) :
    ∃ e, (Network F).heard j s a = some e ∧ (s j).call e = some c := by
  by_cases hj : j = a.1
  · subst hj
    exact ⟨a.2, by simp [Peer.heard], hc⟩
  · exact ⟨.call c, by simp [Peer.heard, hj, Network, hc], rfl⟩

theorem spares_feed {postId : String} {a : ι × Device.Event} (hok : Spares postId s a) {j : ι}
    {e : Device.Event} (he : e ∈ (Network F).heard j s a) (hadm : e.admissible) :
    ∀ fe ∈ (s j).feedEvent e, Feed.Spares postId (s j).feed fe := by
  intro fe hfe
  rcases feedEvent_cases hadm hfe with ⟨-, rfl | rfl | rfl | ⟨_, rfl⟩⟩ | ⟨c, hc, hfe⟩
  · trivial
  · trivial
  · trivial
  · trivial
  have hspares := hok c (call_heard he hc)
  cases c with
  | uploadPost | editUserPost | deletePost =>
    obtain rfl := Option.some.inj hfe
    exact hspares
  | createUser | updateUserInfo | deleteUser | postComment => cases hfe

theorem editsExisting_feed {db : Database} (hdb : ∀ i, Copies db (s i)) {a : ι × Device.Event}
    (hok : EditsExisting s a) {j : ι} {e : Device.Event} (he : e ∈ (Network F).heard j s a)
    (hadm : e.admissible) : ∀ fe ∈ (s j).feedEvent e, Feed.EditsExisting (s j).feed fe := by
  intro fe hfe
  rcases feedEvent_cases hadm hfe with ⟨-, rfl | rfl | rfl | ⟨_, rfl⟩⟩ | ⟨c, hc, hfe⟩
  · trivial
  · trivial
  · trivial
  · trivial
  have hedits := hok c (call_heard he hc)
  cases c with
  | editUserPost postId title detailPost date =>
    obtain rfl := Option.some.inj hfe
    rwa [Feed.EditsExisting, (hdb j).feed.1, ← (hdb a.1).feed.1]
  | uploadPost | deletePost =>
    obtain rfl := Option.some.inj hfe
    trivial
  | createUser | updateUserInfo | deleteUser | postComment => cases hfe

variable [Fintype ι]

theorem steady_run {ok : (ι → Device) → ι × Device.Event → Prop}
    (h : Path (Network F).all ok launch evs s) (j : ι) : Feed.Steady (s j).feed := by
  obtain ⟨evs', hpath, -⟩ := Peer.run_of anyStep h j fun _ _ _ _ _ _ _ => trivial
  obtain ⟨fevs, hfeed, -⟩ := feed_run anyStep hpath fun _ _ _ _ _ _ => trivial
  exact Feed.run_wired hfeed

/-- In a run that brings no deleted post back, no feed shows two posts with one id. -/
theorem feed_sound (h : Path (Network F).all EditsExisting launch evs s) (j : ι) :
    Feed.Sound (s j).feed := by
  have hcopies := h.attach (fun s => ∃ db, ∀ i, Copies db (s i)) ⟨{}, fun _ => copies_init⟩
    fun _ _ _ ⟨_, hdb⟩ _ hs => by
      obtain ⟨db', -, hdb'⟩ := Peer.simulates_step (fun _ _ _ _ => copies_step)
        (fun _ _ => Option.map_eq_none_iff.1) (fun _ _ _ he _ => call_echo he) hs hdb
      exact ⟨db', hdb'⟩
  obtain ⟨evs', hpath, -⟩ := Peer.run_of (fun d e =>
      e.admissible → ∀ fe ∈ d.feedEvent e, Feed.EditsExisting d.feed fe) hcopies j
    fun _ _ _ ⟨hok, _, hdb⟩ _ _ he hadm => editsExisting_feed hdb hok he hadm
  obtain ⟨fevs, hfeed, -⟩ := feed_run Feed.EditsExisting hpath fun _ _ h hadm => h hadm
  exact hfeed.invariant Feed.Sound Feed.sound_init
    fun _ _ _ hs hok h => Feed.sound_step h hok hs

/-- A post that a device uploads is among the posts of every feed, on any device and whenever
loaded, once its queue is empty, as long as nobody edits or deletes it: at least once in every
run, and once if no deleted post is brought back. -/
theorem uploads_arrive (hpre : Path (Network F).all anyStep launch pre s₀)
    {a : ι × Device.Event} {title detailPost date username userId postId : String}
    (hcall : (s₀ a.1).call a.2 =
      some (.uploadPost title detailPost date username userId postId))
    (hrun : Path (Network F).all (Spares postId) s₀ (a :: evs) s) {j : ι}
    (hl : (s j).feed.loaded) (hquiet : (s j).feed.hub.queue = []) :
    ⟨title, detailPost, date, username, userId, postId⟩ ∈ (s j).feed.main.posts ∧
      (Path (Network F).all EditsExisting launch (pre ++ a :: evs) s →
        ((s j).feed.main.posts.map (·.postId)).count postId = 1) := by
  set p : Posts := ⟨title, detailPost, date, username, userId, postId⟩
  have hshown : p ∈ (s j).feed.main.posts := by
    obtain ⟨s₁, -, hstep, hrun⟩ := hrun.uncons
    obtain ⟨e, he, hc⟩ := heard_of_call (F := F) hcall j
    have hs := steady_run hpre j
    have hupload := (step_parts (he ▸ Peer.all_eq_some.1 hstep j : Device.step F _ e = _)).2.1
    rw [feedEvent_of_call hc, Database.Call.feed, follow_some] at hupload
    have hdelivered : Feed.Delivered p (s₁ j).feed := Feed.delivered_upload hs hupload
    obtain ⟨evs', hpath, -⟩ := Peer.run_of (fun d e =>
        e.admissible → ∀ fe ∈ d.feedEvent e, Feed.Spares postId d.feed fe) hrun j
      fun _ _ _ hok _ _ he hadm => spares_feed hok he hadm
    obtain ⟨fevs, hfeed, -⟩ := feed_run (Feed.Spares postId) hpath
      fun _ _ h hadm => h hadm
    have hall : Feed.Steady (s j).feed ∧ Feed.Delivered p (s j).feed :=
      hfeed.invariant (fun s => Feed.Steady s ∧ Feed.Delivered p s)
        ⟨Feed.steady_step hupload hs, hdelivered⟩ fun _ _ _ hs hok h =>
          ⟨Feed.steady_step h hs.1, Feed.delivered_step hs.1 h hok hs.2⟩
    exact hall.2.shown hl hquiet
  refine ⟨hshown, fun h => ?_⟩
  have hmem : postId ∈ (s j).feed.main.posts.map (·.postId) :=
    List.mem_map.2 ⟨p, hshown, rfl⟩
  exact List.count_eq_one_of_mem (feed_sound h j).fresh.visible hmem

/-- A post is uploaded while one feed is being refreshed and the other has not loaded. -/
theorem uploads_arrive_run :
    let pre : List (Fin 2 × Device.Event) :=
      [(0, .mine (.signIn "a")), (1, .mine (.signIn "b")), (0, .feed .viewDidLoad),
        (1, .handleSubmit "Swift" "text" "Jun 1, 2020 at 9:00 AM" (some "bob") "p1"),
        (0, .feed .refreshData)]
    let a : Fin 2 × Device.Event :=
      (1, .handleSubmit "Lean" "text" "Jun 2, 2020 at 9:00 AM" (some "bob") "p2")
    let evs : List (Fin 2 × Device.Event) :=
      [(1, .feed .viewDidLoad), (0, .call (.deletePost "p1")), (0, .feed .runMain),
        (0, .feed .runMain), (0, .feed .runMain), (0, .feed .runMain), (0, .feed .runMain),
        (0, .feed .runMain), (0, .feed .runMain)]
    ∃ s₀ s, Path (Network .ascii).all anyStep launch pre s₀ ∧
      Path (Network .ascii).all (Spares "p2") s₀ (a :: evs) s ∧
      Path (Network .ascii).all EditsExisting launch (pre ++ a :: evs) s ∧
      ⟨"Lean", "text", "Jun 2, 2020 at 9:00 AM", "bob", "b", "p2"⟩ ∈ (s 0).feed.main.posts ∧
      (Path (Network .ascii).all EditsExisting launch (pre ++ a :: evs) s →
        ((s 0).feed.main.posts.map (·.postId)).count "p2" = 1) := by
  intro pre a evs
  obtain ⟨s₀, s, hpre, hrun, hcall, hl, hquiet⟩ : ∃ s₀ s,
      Path (Network .ascii).all EditsExisting launch pre s₀ ∧
        Path (Network .ascii).all (fun s a => Spares "p2" s a ∧ EditsExisting s a) s₀
          (a :: evs) s ∧
        (s₀ a.1).call a.2 =
          some (.uploadPost "Lean" "text" "Jun 2, 2020 at 9:00 AM" "bob" "b" "p2") ∧
        (s 0).feed.loaded ∧ (s 0).feed.hub.queue = [] :=
    ⟨_, _, .of_exec_get (by decide), .of_exec_get (by decide), by decide, by decide, by decide⟩
  have hpre' := hpre.mono fun _ _ _ => (trivial : anyStep _ _)
  have hspares := hrun.mono fun _ _ h => h.1
  exact ⟨s₀, s, hpre', hspares, hpre.trans (hrun.mono fun _ _ h => h.2),
    uploads_arrive hpre' hcall hspares hl hquiet⟩

theorem queue_drains :
    Drains (Network F).all (fun s => ∀ i : ι, Threads.Sound (s i).threads)
      (fun a => a.2.works) fun s => ∑ i, (s i).weight :=
  (Device.queue_drains (F := F)).all (M := Network F) fun d e hw => by
    simp [Network, call_of_works hw]

theorem runs_quiet (hs : ∀ i, Threads.Sound (s i).threads) :
    ∃ tasks s', Path (Network F).all (fun _ a => a.2.works) s tasks s' ∧ ∀ i, (s' i).Quiet := by
  obtain ⟨tasks, s', hpath, hz⟩ := (queue_drains (F := F)).ends hs
  exact ⟨tasks, s', hpath, quiet_of_weight hz⟩

/-- However the tasks of the main queues are run, they come to an end, and then nothing is on
its way to any screen of any device. -/
theorem queues_drain (h : Path (Network F).all anyStep launch evs s) :
    (∃ n, ∀ tasks s', Path (Network F).all (fun _ a => a.2.works) s tasks s' →
        tasks.length ≤ n ∧
          ((∀ a : ι × Device.Event, a.2.works → (Network F).all s' a = none) →
            ∀ i, (s' i).Quiet)) ∧
      ∃ tasks s', Path (Network F).all (fun _ a => a.2.works) s tasks s' ∧ ∀ i, (s' i).Quiet := by
  have hs : ∀ i, Threads.Sound (s i).threads := sound_run h
  refine ⟨⟨∑ i, (s i).weight, fun tasks s' hpath => ⟨?_, fun hstuck => ?_⟩⟩, runs_quiet hs⟩
  · have hlen := (queue_drains.run hpath hs).2
    omega
  · exact quiet_of_weight (queue_drains.weight_eq_zero hpath hs hstuck)

/-- A post is on its way to the feeds of two devices and to My Comments of one of them. -/
theorem queues_drain_run :
    ∃ s : Fin 2 → Device, Path (Network .ascii).all anyStep launch
        [(0, .mine (.signIn "a")), (0, .feed .viewDidLoad), (1, .feed .viewDidLoad),
          (0, .mine .viewDidLoad), (1, .feed .refreshData),
          (0, .handleSubmit "Swift" "text" "Jun 1, 2020 at 9:00 AM" (some "ann") "p1")] s ∧
      (∀ i, ∑ j, (s j).weight ≠ (s i).weight) ∧
      (∃ n, ∀ tasks s', Path (Network .ascii).all (fun _ a => a.2.works) s tasks s' →
        tasks.length ≤ n ∧
          ((∀ a : Fin 2 × Device.Event, a.2.works → (Network .ascii).all s' a = none) →
            ∀ i, (s' i).Quiet)) ∧
      ∃ tasks s', Path (Network .ascii).all (fun _ a => a.2.works) s tasks s' ∧
        ∀ i, (s' i).Quiet :=
  ⟨_, .of_exec_get (by decide), by decide, queues_drain (.of_exec_get (by decide))⟩

end Network

end DevPost
