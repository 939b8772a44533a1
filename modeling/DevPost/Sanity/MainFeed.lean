import DevPost.Sanity.Posts
import DevPost.Spec.MainFeed

/-! The feed as a board. Every step of the feed either makes the first pending
delivery, exactly as `Board.deliver` does, or leaves the lists alone and sends
some deliveries after all the others. What a step does to the rest of the state is
said once, in `Frame`; the listeners are `observeUser` and then the refreshes in
the order of their numbers. -/

namespace DevPost

open Lib FirebaseServices

theorem MainController.rows_reloadData (c : MainController) :
    c.reloadData.rows = c.reloadData.shown.length := by
  change c.numberOfItemsInSection = c.shown.length
  unfold numberOfItemsInSection shown
  split_ifs <;> rfl

namespace Feed

variable {F : Foundation} {s s' : Feed} {e : Event}

/-- The listeners an event registers. -/
def joins (s : Feed) : Event → List Closure
  | .viewDidLoad => [.observeUser]
  | .runMain =>
    match s.hub.queue with
    | .other r :: _ => [.refreshData r]
    | _ => []
  | _ => []

/-- The numbers of the refreshes an event registers. -/
def joined (s : Feed) (e : Event) : List ℕ :=
  (s.joins e).filterMap fun
    | .refreshData r => some r
    | .observeUser => none

/-- The refreshes an event asks for. -/
def asked (s : Feed) : Event → List ℕ
  | .refreshData => [s.refreshes]
  | _ => []

/-- The node after an event. -/
def written (s : Feed) : Event → Table String Record
  | .uploadPost title detailPost date username userId postId =>
    s.hub.node.set postId
      (Table.ofList (uploadPostValues title detailPost date username userId postId))
  | .editUserPost postId title detailPost date =>
    s.hub.node.set postId
      (updateChildValues s.hub.node postId (editUserPostValues title detailPost date))
  | .deletePost postId => s.hub.node.erase postId
  | _ => s.hub.node

/-- The ids an event generates. -/
def generated : Event → List String
  | .uploadPost _ _ _ _ _ postId => [postId]
  | _ => []

/-- The deliveries an event adds. -/
def sent (s : Feed) : Event → List (Closure × Posts)
  | .viewDidLoad => s.stored.map (.observeUser, ·)
  | .uploadPost title detailPost date username userId postId =>
    if s.hub.node.lookup postId = none then
      s.hub.listeners.map (·, ⟨title, detailPost, date, username, userId, postId⟩)
    else []
  | .editUserPost postId title detailPost date =>
    if s.hub.node.lookup postId = none then
      s.hub.listeners.map (·, Posts.init
        (updateChildValues s.hub.node postId (editUserPostValues title detailPost date)))
    else []
  | .runMain =>
    match s.hub.queue with
    | .other r :: _ => s.stored.map (.refreshData r, ·)
    | _ => []
  | _ => []

/-- What a step does besides the deliveries. -/
structure Frame (s : Feed) (e : Event) (s' : Feed) : Prop where
  node : s'.hub.node = s.written e
  ids : s'.ids = generated e ++ s.ids
  listeners : s'.hub.listeners = s.hub.listeners ++ s.joins e
  loaded : s'.loaded = (s.loaded || e = .viewDidLoad)
  refreshes : s'.refreshes = s.refreshes + (s.asked e).length
  others : s.joined e ++ others s'.hub.queue = others s.hub.queue ++ s.asked e

/-- When each event is enabled. -/
def Enabled (s : Feed) : Event → Prop
  | .viewDidLoad => s.loaded = false
  | .uploadPost _ _ _ _ _ postId => postId ∉ s.ids
  | .editUserPost postId _ _ _ => postId ∈ s.ids
  | .refreshData => s.loaded = true
  | _ => True

theorem deliver_runClosure (s : Feed) (l : Closure) (post : Posts) :
    (s.runClosure post l).board = s.board.deliver byDate (l, post) := by
  cases l <;> rfl

theorem runClosure_eq (s : Feed) (l : Closure) (post : Posts) :
    ∃ newPosts main, s.runClosure post l = { s with newPosts, main } := by
  cases l
  · exact ⟨s.newPosts, _, rfl⟩
  · exact ⟨_, _, rfl⟩

theorem step_frame (h : step F s e = some s') : Frame s e s' ∧ s.Enabled e := by
  cases e with
  | viewDidLoad =>
    simp only [step] at h
    split at h <;> cases h
    rename_i hl
    exact ⟨⟨rfl, rfl, rfl, by simp, rfl, by simp [joined, joins, asked, Hub.observe]⟩,
      by simpa [Enabled] using hl⟩
  | uploadPost | editUserPost =>
    simp only [step] at h
    split at h <;> cases h
    rename_i hid
    refine ⟨⟨rfl, rfl, by simp [joins, Hub.put], by simp, rfl, ?_⟩, hid⟩
    simp only [joined, joins, asked, Hub.put]
    split_ifs <;> simp
  | deletePost | textDidChange =>
    cases h
    exact ⟨⟨rfl, rfl, by simp [joins, Hub.remove], by simp, rfl,
      by simp [joined, joins, asked, Hub.remove]⟩, trivial⟩
  | refreshData =>
    simp only [step] at h
    split at h <;> cases h
    rename_i hl
    refine ⟨⟨rfl, rfl, by simp [joins, Hub.post], by simp, rfl, ?_⟩, hl⟩
    simp only [joined, joins, asked, Hub.post, others_append, others_map_other,
      List.filterMap_nil, List.nil_append]
  | runMain =>
    simp only [step, runMain] at h
    split at h
    · cases h
    · rename_i hq
      cases h
      exact ⟨⟨rfl, rfl, by simp [joins, hq], by simp, rfl, by simp [joined, joins, asked, hq]⟩,
        trivial⟩
    · rename_i l post q hq
      cases h
      obtain ⟨newPosts, main, hs⟩ := runClosure_eq { s with hub.queue := q } l post
      rw [hs]
      exact ⟨⟨rfl, rfl, by simp [joins, hq], by simp, rfl, by simp [joined, joins, asked, hq]⟩,
        trivial⟩
    · rename_i hq
      cases h
      exact ⟨⟨rfl, rfl, by simp [joins, hq, Hub.observe], by simp, rfl,
        by simp [joined, joins, asked, hq, Hub.observe]⟩, trivial⟩

theorem kept_step (h : step F s e = some s') (hk : Kept s.hub.node) : Kept s'.hub.node := by
  rw [(step_frame h).1.node]
  cases e with
  | uploadPost => exact kept_set hk _ (exists_uploadPost ..)
  | editUserPost => exact kept_set hk _ (exists_editUserPost ..)
  | deletePost => exact kept_erase hk _
  | viewDidLoad | refreshData | textDidChange | runMain => exact hk

/-- One step of the feed is one step of the board: a delivery made, or deliveries sent. -/
theorem step_board (h : step F s e = some s') (hk : Kept s.hub.node) :
    (s'.board = s.board ∧ s'.pending = s.pending ++ s.sent e) ∨
      ∃ d, s.pending = d :: s'.pending ∧ s'.board = s.board.deliver byDate d ∧ s.sent e = [] := by
  cases e with
  | viewDidLoad =>
    simp only [step] at h
    split at h <;> cases h
    refine .inl ⟨rfl, ?_⟩
    simp only [pending, sent, Hub.observe]
    rw [inflight_append_snapshot, deliveries_of_kept hk]
    rfl
  | uploadPost title detailPost date username userId postId =>
    simp only [step] at h
    split at h <;> cases h
    refine .inl ⟨rfl, ?_⟩
    simp only [pending, sent, Hub.put]
    split
    · rw [inflight_append_raise, observeUserPost_of_exists (exists_uploadPost ..),
        init_uploadPost]
      simp
    · simp
  | editUserPost postId title detailPost date =>
    simp only [step] at h
    split at h <;> cases h
    refine .inl ⟨rfl, ?_⟩
    simp only [pending, sent, Hub.put]
    split
    · rw [inflight_append_raise, observeUserPost_of_exists (exists_editUserPost ..)]
      simp
    · simp
  | deletePost postId => cases h; exact .inl ⟨rfl, by simp [pending, sent, Hub.remove]⟩
  | refreshData =>
    simp only [step] at h
    split at h <;> cases h
    refine .inl ⟨rfl, ?_⟩
    simp only [pending, sent, Hub.post, inflight_append_other, List.append_nil]
  | textDidChange searchText => cases h; exact .inl ⟨rfl, by simp [pending, sent]⟩
  | runMain =>
    simp only [step, runMain] at h
    split at h
    · cases h
    · rename_i l r q hq
      cases h
      refine .inl ⟨rfl, ?_⟩
      simp only [pending, sent, hq, inflight_handle, List.append_nil]
    · rename_i l post q hq
      cases h
      refine .inr ⟨(l, post), ?_, deliver_runClosure _ l post, by simp [sent, hq]⟩
      obtain ⟨newPosts, main, hs⟩ := runClosure_eq { s with hub.queue := q } l post
      rw [hs]
      simp [pending, hq]
    · rename_i r q hq
      cases h
      refine .inl ⟨rfl, ?_⟩
      simp only [pending, sent, hq, Hub.observe, inflight_other]
      rw [inflight_append_snapshot, deliveries_of_kept hk]
      rfl

/-- The delivery an event makes. -/
def delivers (s : Feed) : Event → Option (Closure × Posts)
  | .runMain =>
    match s.hub.queue with
    | .block l post :: _ => some (l, post)
    | _ => none
  | _ => none

/-- What a step does to the screen: a search, nothing, or the closure of a delivery. -/
theorem main_cases (h : step F s e = some s') :
    (∃ searchText, e = .textDidChange searchText ∧ s'.newPosts = s.newPosts ∧
        s'.main = s.main.textDidChange F searchText) ∨
      ((∀ searchText, e ≠ .textDidChange searchText) ∧ s.delivers e = none ∧
        s'.newPosts = s.newPosts ∧ s'.main = s.main) ∨
      (∃ post, e = .runMain ∧ s.delivers e = some (.observeUser, post) ∧
        s'.newPosts = s.newPosts ∧ s'.main = s.main.observeUser post) ∨
      ∃ r post, e = .runMain ∧ s.delivers e = some (.refreshData r, post) ∧
        s'.newPosts = Function.update s.newPosts r (s.newPosts r ++ [post]) ∧
        s'.main = s.main.refreshData (s.newPosts r ++ [post]) := by
  cases e with
  | textDidChange searchText =>
    cases h
    exact .inl ⟨searchText, rfl, rfl, rfl⟩
  | viewDidLoad | uploadPost | editUserPost | refreshData =>
    simp only [step] at h
    split at h <;> cases h
    exact .inr (.inl ⟨by simp, rfl, rfl, rfl⟩)
  | deletePost =>
    cases h
    exact .inr (.inl ⟨by simp, rfl, rfl, rfl⟩)
  | runMain =>
    simp only [step, runMain] at h
    split at h <;> cases h
    · rename_i hq
      exact .inr (.inl ⟨by simp, by simp [delivers, hq], rfl, rfl⟩)
    · rename_i l post q hq
      cases l with
      | append => exact .inr (.inr (.inl ⟨post, rfl, by simp [delivers, hq], rfl, rfl⟩))
      | rebuild r => exact .inr (.inr (.inr ⟨r, post, rfl, by simp [delivers, hq], rfl, rfl⟩))
    · rename_i hq
      exact .inr (.inl ⟨by simp, by simp [delivers, hq], rfl, rfl⟩)

theorem board_step (h : step F s e = some s') :
    s'.board = (s.delivers e).elim s.board (s.board.deliver byDate) := by
  rcases main_cases h with ⟨_, rfl, hnew, hmain⟩ | ⟨-, hd, hnew, hmain⟩ |
    ⟨post, -, hd, hnew, hmain⟩ | ⟨r, post, -, hd, hnew, hmain⟩
  · rw [board, hnew, hmain]
    rfl
  all_goals
    rw [hd, board, hnew, hmain]
    rfl

/-- What the lists will be once every pending delivery is made. -/
def settled (s : Feed) : Board Posts := s.board.settle byDate s.pending

theorem settled_step (h : step F s e = some s') (hk : Kept s.hub.node) :
    s'.settled = s.settled.settle byDate (s.sent e) := by
  rcases step_board h hk with ⟨hb, hp⟩ | ⟨d, hp, hb, hs⟩
  · rw [settled, settled, hb, hp, Board.settle_append]
  · rw [settled, settled, hb, hp, hs]
    rfl

theorem settled_of_quiet (h : s.hub.queue = []) : s.settled = s.board := by
  simp [settled, pending, h]

/-- The shape of the listeners: `observeUser`, then the refreshes registered so far, whose
numbers come before those still on the queue. -/
structure Wired (s : Feed) (rs : List ℕ) : Prop where
  listeners : s.hub.listeners = (if s.loaded then [.observeUser] else []) ++ rs.map .refreshData
  numbers : rs ++ others s.hub.queue = List.range s.refreshes
  early : s.loaded = false → s.refreshes = 0 ∧ s.main.posts = []
  sent : ∀ d ∈ s.pending, d.1 ∈ s.hub.listeners
  own : ∀ r ∉ rs, s.newPosts r = []

theorem wired_init : Wired {} [] where
  listeners := rfl
  numbers := rfl
  early _ := ⟨rfl, rfl⟩
  sent := by simp [pending, Hub.idle]
  own _ _ := rfl

section Wired

variable {rs : List ℕ} (hw : Wired s rs)
include hw

theorem Wired.numbers_nodup : (rs ++ others s.hub.queue).Nodup :=
  hw.numbers ▸ List.nodup_range

theorem Wired.fresh {r : ℕ} (hr : r ∈ others s.hub.queue) : r ∉ rs := fun hrs =>
  (List.nodup_append.1 hw.numbers_nodup).2.2 r hrs r hr rfl

theorem Wired.mem_listeners {r : ℕ} : .refreshData r ∈ s.hub.listeners ↔ r ∈ rs := by
  rw [hw.listeners]
  cases s.loaded <;> simp

/-- `observeUser` is registered once and first, each refresh once. -/
theorem Wired.listeners_nodup : s.hub.listeners.Nodup ∧ .observeUser ∉ s.hub.listeners.tail := by
  have hmap : (rs.map Closure.refreshData).Nodup :=
    hw.numbers_nodup.of_append_left.map fun _ _ h => Feeder.rebuild.inj h
  have hnot : Closure.observeUser ∉ rs.map Closure.refreshData := by simp
  rw [hw.listeners]
  cases s.loaded
  · exact ⟨hmap, fun h => hnot (List.mem_of_mem_tail h)⟩
  · exact ⟨List.nodup_cons.2 ⟨hnot, hmap⟩, hnot⟩

theorem Wired.unloaded (hl : s.loaded = false) :
    rs = [] ∧ s.hub.listeners = [] ∧ s.pending = [] := by
  have hn := hw.numbers
  rw [(hw.early hl).1, List.range_zero, List.append_eq_nil_iff] at hn
  have hlisteners : s.hub.listeners = [] := by simp [hw.listeners, hl, hn.1]
  refine ⟨hn.1, hlisteners, List.eq_nil_iff_forall_not_mem.2 fun d hd => ?_⟩
  have := hw.sent d hd
  simp [hlisteners] at this

end Wired

theorem joins_eq (hne : e ≠ .viewDidLoad) : s.joins e = (s.joined e).map .refreshData := by
  cases e with
  | viewDidLoad => exact absurd rfl hne
  | runMain =>
    simp only [joined, joins]
    split <;> rfl
  | uploadPost | editUserPost | deletePost | refreshData | textDidChange => rfl

theorem sent_listeners (h : step F s e = some s') : ∀ d ∈ s.sent e, d.1 ∈ s'.hub.listeners := by
  intro d hd
  rw [(step_frame h).1.listeners, List.mem_append]
  cases e with
  | viewDidLoad =>
    obtain ⟨p, -, rfl⟩ := List.mem_map.1 hd
    exact .inr (by simp [joins])
  | uploadPost | editUserPost =>
    simp only [sent] at hd
    split at hd
    · obtain ⟨l, hl, rfl⟩ := List.mem_map.1 hd
      exact .inl hl
    · simp at hd
  | deletePost | refreshData | textDidChange => simp [sent] at hd
  | runMain =>
    simp only [sent] at hd
    split at hd
    · rename_i hq
      obtain ⟨p, -, rfl⟩ := List.mem_map.1 hd
      exact .inr (by simp [joins, hq])
    · simp at hd

theorem wired_step {rs : List ℕ} (h : step F s e = some s') (hk : Kept s.hub.node)
    (hw : Wired s rs) : Wired s' (rs ++ s.joined e) := by
  obtain ⟨hf, hen⟩ := step_frame h
  refine ⟨?_, ?_, fun hl' => ?_, fun d hd => ?_, fun r hr => ?_⟩
  · rw [hf.listeners, hw.listeners, hf.loaded]
    by_cases he : e = .viewDidLoad
    · subst he
      have hl : s.loaded = false := hen
      simp [hl, (hw.unloaded hl).1, joined, joins]
    · simp [he, joins_eq he]
  · rw [List.append_assoc, hf.others, ← List.append_assoc, hw.numbers, hf.refreshes]
    cases e <;> simp [asked, List.range_succ]
  · have hl : s.loaded = false := by
      rw [hf.loaded] at hl'
      exact (Bool.or_eq_false_iff.1 hl').1
    refine ⟨?_, ?_⟩
    · rw [hf.refreshes, (hw.early hl).1]
      cases e with
      | refreshData => exact absurd (hl.symm.trans hen) (by simp)
      | viewDidLoad | uploadPost | editUserPost | deletePost | textDidChange | runMain => rfl
    · rcases step_board h hk with ⟨hb, -⟩ | ⟨d, hp, -⟩
      · exact (congrArg Board.visible hb).trans (hw.early hl).2
      · simp [(hw.unloaded hl).2.2] at hp
  · rcases step_board h hk with ⟨-, hp⟩ | ⟨d', hp, -⟩
    · rw [hp] at hd
      rcases List.mem_append.1 hd with hd | hd
      · rw [hf.listeners]
        exact List.mem_append_left _ (hw.sent d hd)
      · exact sent_listeners h d hd
    · rw [hf.listeners]
      exact List.mem_append_left _ (hw.sent d (hp ▸ List.mem_cons_of_mem _ hd))
  · have hr' : r ∉ rs := fun h => hr (List.mem_append_left _ h)
    rcases step_board h hk with ⟨hb, -⟩ | ⟨d, hp, hb, -⟩
    · exact (congrFun (congrArg Board.own hb) r).trans (hw.own r hr')
    · have hd : d.1 ≠ .refreshData r := fun hd =>
        hr' (hw.mem_listeners.1 (hd ▸ hw.sent d (hp ▸ List.mem_cons_self)))
      have hown := congrFun (congrArg Board.own hb) r
      rw [Board.own_deliver, Board.forRebuild_eq_nil (by simpa using hd), List.append_nil] at hown
      exact hown.trans (hw.own r hr')

end Feed

end DevPost
