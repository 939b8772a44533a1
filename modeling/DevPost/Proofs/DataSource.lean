import DevPost.Proofs.Threads
import DevPost.Sanity.Listeners
import DevPost.Sanity.MainFeed
import DevPost.Spec.DataSource

/-! No callback of a list subscripts its array out of range. The three screens change their
arrays in many places, and every one of them has the view count the rows again before it
asks for a row: each is a list view that agrees with its source between any two steps. -/

namespace DevPost

open Lib

namespace MainController

variable {M : Measures} {c : MainController} {item : ℕ}

theorem cellForItemAt_eq : c.cellForItemAt item = c.shown[item]? := by
  unfold cellForItemAt shown
  split_ifs <;> rfl

theorem sizeForItemAt_eq : c.sizeForItemAt M item =
    c.shown[item]?.map fun p => (M.width, M.estimateFrameForText p.detailPost + 60) := by
  unfold sizeForItemAt shown
  split_ifs <;> rfl

theorem didSelectItemAt_eq :
    c.didSelectItemAt item = c.shown[item]?.map fun p => { post := some p } := by
  unfold didSelectItemAt shown
  split_ifs <;> rfl

end MainController

namespace Feed

variable {F : Foundation} {s s' : Feed} {e : Event}

theorem reloads_runMain (s : Feed) : s.reloads .runMain = (s.delivers .runMain).isSome := by
  unfold reloads delivers
  cases s.hub.queue with
  | nil => rfl
  | cons t q => cases t <;> rfl

theorem reloads_cases (h : step F s e = some s') :
    (s.reloads e = true ∧ s'.main.rows = s'.main.shown.length) ∨
      s.reloads e = false ∧ s'.main = s.main := by
  have hrows : ∀ c : MainController, s'.main = c.reloadData → s'.main.rows = s'.main.shown.length :=
    fun c hc => hc ▸ c.rows_reloadData
  rcases main_cases h with ⟨_, rfl, -, hmain⟩ | ⟨hne, hd, -, hmain⟩ | ⟨_, rfl, hd, -, hmain⟩ |
    ⟨_, _, rfl, hd, -, hmain⟩
  · exact .inl ⟨rfl, hrows _ hmain⟩
  · refine .inr ⟨?_, hmain⟩
    cases e with
    | textDidChange searchText => exact absurd rfl (hne searchText)
    | runMain => simp [reloads_runMain, hd]
    | viewDidLoad | uploadPost | editUserPost | deletePost | refreshData => rfl
  · exact .inl ⟨by simp [reloads_runMain, hd], hrows _ hmain⟩
  · exact .inl ⟨by simp [reloads_runMain, hd], hrows _ hmain⟩

end Feed

namespace FeedView

variable {F : Foundation} {s s' : FeedView} {e : Event}

/-- The collection view as a list view; the cell of an item is at that item. -/
def view (s : FeedView) : ListView ℕ Posts where
  rows := s.feed.main.rows
  cells item := (s.cells item).map (item, ·)

/-- What holds between two callbacks. -/
def InSync (s : FeedView) : Prop := s.view.Reads s.feed.main.shown

theorem view_cellForItemAt (s : FeedView) (item : ℕ) :
    (s.cellForItemAt item).view = s.view.bind s.feed.main.shown item item := by
  simp only [view, ListView.bind, ListView.mk.injEq]
  refine ⟨rfl, funext fun i => ?_⟩
  by_cases hi : i = item
  · subst hi
    simp [cellForItemAt, MainController.cellForItemAt_eq]
  · simp [cellForItemAt, Function.update_of_ne hi]

theorem view_layout (s : FeedView) (items : List ℕ) :
    (s.layout items).feed = s.feed ∧ (s.layout items).view =
      s.view.layout s.feed.main.shown (items.map fun item => (item, item)) := by
  unfold layout ListView.layout
  induction items generalizing s with
  | nil => exact ⟨rfl, rfl⟩
  | cons item items ih =>
    rw [List.foldl_cons, List.map_cons, List.foldl_cons]
    by_cases hitem : item < s.feed.main.rows
    · have hitem' : item < s.view.rows := hitem
      rw [if_pos hitem, if_pos hitem', ← view_cellForItemAt]
      exact ih (s.cellForItemAt item)
    · have hitem' : ¬ item < s.view.rows := hitem
      rw [if_neg hitem, if_neg hitem']
      exact ih s

theorem inSync_init : InSync {} where
  rows := rfl
  cells _ _ _ h := by simp [view] at h

theorem inSync_step (h : step F s e = some s') (hs : s.InSync) : s'.InSync := by
  cases e with
  | layout items =>
    cases h
    obtain ⟨hfeed, hview⟩ := s.view_layout items
    rw [InSync, hview, hfeed]
    exact ListView.Reads.layout hs _
  | feed e =>
    obtain ⟨feed, hstep, rfl⟩ := Option.map_eq_some_iff.1 h
    rcases Feed.reloads_cases hstep with ⟨hreload, hrows⟩ | ⟨hreload, hmain⟩
    · have hview : view ⟨feed, if s.feed.reloads e then fun _ => none else s.cells⟩ =
          ListView.reload feed.main.shown := by
        simp [view, hreload, hrows, ListView.reload]
      rw [InSync, hview]
      exact ListView.reads_reload
    · have hview : view ⟨feed, if s.feed.reloads e then fun _ => none else s.cells⟩ = s.view := by
        simp [view, hreload, hmain]
      rw [InSync, hview, hmain]
      exact hs

theorem run_inSync {ok : FeedView → Event → Prop} {evs : List Event}
    (h : Path (step F) ok {} evs s) : s.InSync :=
  h.invariant InSync inSync_init fun _ _ _ hs _ h => inSync_step h hs

/-- The callbacks for the items below the known count are in range, and a tap on an item opens
the post that its cell got. -/
structure InRange (M : Measures) (s : FeedView) : Prop where
  cell : ∀ item < s.feed.main.rows, (s.feed.main.cellForItemAt item).isSome
  size : ∀ item < s.feed.main.rows, (s.feed.main.sizeForItemAt M item).isSome
  select : ∀ item < s.feed.main.rows, (s.feed.main.didSelectItemAt item).isSome
  opens : ∀ item p, s.cells item = some p →
    item < s.feed.main.rows ∧ s.feed.main.didSelectItemAt item = some { post := some p }

theorem InSync.inRange (M : Measures) (hs : s.InSync) : s.InRange M := by
  have hget : ∀ item < s.feed.main.rows, s.feed.main.shown[item]?.isSome := fun item hitem => by
    obtain ⟨p, hp⟩ := hs.get hitem
    simp [hp]
  refine ⟨fun item hitem => ?_, fun item hitem => ?_, fun item hitem => ?_, fun item p hcell => ?_⟩
  · rw [MainController.cellForItemAt_eq]
    exact hget item hitem
  · rw [MainController.sizeForItemAt_eq, Option.isSome_map]
    exact hget item hitem
  · rw [MainController.didSelectItemAt_eq, Option.isSome_map]
    exact hget item hitem
  · have hview : s.view.cells item = some (item, p) := by simp [view, hcell]
    refine ⟨hs.row_lt hview, ?_⟩
    rw [MainController.didSelectItemAt_eq, hs.cells item item p hview]
    rfl

end FeedView

/-- The callbacks for the rows below the known count are in range; so is the row that a deletion
removes, and `deleteRows` then counts one row less. -/
structure MyComments.InRange (M : Measures) (s : MyComments) : Prop where
  cell : ∀ row < s.vc.rows, ∀ i, ((s.vc.cellForRowAt row i).cells i).post.isSome
  height : ∀ row < s.vc.rows, (s.vc.heightForRowAt M row).isSome
  remove : ∀ i row, (s.vc.cells i).indexPath = some row → row < s.vc.myPost.length
  delete : ∀ i row, (s.vc.cells i).indexPath = some row →
    { s.vc with myPost := s.vc.myPost.eraseIdx row }.numberOfRowsInSection + 1 = s.vc.rows
  confirm : ∀ i post l, s.presented = some (.deleteAlert i post) → (s.step (.deletePost l)).isSome

theorem MyComments.isSome_deletePost {s : MyComments} (hb : s.vc.Bound) {cell : ℕ} {shown : Posts}
    (hp : s.presented = some (.deleteAlert cell shown)) (l : Layout) :
    (s.step (.deletePost l)).isSome := by
  simp only [step, hp, deletePost]
  split
  · rfl
  · rw [Option.isSome_map, MyCommentsController.deletePost_eq hb]
    rfl

theorem MyComments.Sound.inRange {s : MyComments} (M : Measures) (hs : s.Sound) : s.InRange M where
  cell row hrow i := by
    obtain ⟨p, hp⟩ := hs.bound.reads.get hrow
    simp [MyCommentsController.cellForRowAt, hp]
  height row hrow := by
    obtain ⟨p, hp⟩ := hs.bound.reads.get hrow
    simp [MyCommentsController.heightForRowAt, hp]
  remove := hs.bound.range
  delete _ _ hrow := hs.bound.length_eraseIdx hrow
  confirm _ _ l halert := isSome_deletePost hs.bound halert l

/-- The callbacks for the rows below the known count are in range. -/
structure CommentsController.InRange (M : Measures) (c : CommentsController) : Prop where
  cell : ∀ row < c.rows, (c.cellForRowAt row).isSome
  height : ∀ row < c.rows, (c.heightForRowAt M row).isSome

/-- The table view of a thread as a list view, its cells aside. -/
def CommentsController.view (c : CommentsController) : ListView Empty Comments where
  rows := c.rows
  cells := Empty.elim

theorem Threads.Sorted.reads {c : CommentsController} (hc : Sorted c) :
    c.view.Reads c.comments where
  rows := hc.2
  cells cell := cell.elim

theorem Threads.Sorted.inRange {c : CommentsController} (M : Measures) (hc : Sorted c) :
    c.InRange M where
  cell row hrow := by
    obtain ⟨x, hx⟩ := hc.reads.get hrow
    simp [CommentsController.cellForRowAt, hx]
  height row hrow := by
    obtain ⟨x, hx⟩ := hc.reads.get hrow
    simp [CommentsController.heightForRowAt, hx]

/-- Under any order of deliveries, refreshes, searches, deletions and layout passes, the
callbacks of the three lists are in range, a tap in the feed opens the post on the cell, and a
deletion agrees with the table view on the number of rows. -/
theorem callbacks_in_range {F : Foundation} (M : Measures) {node : Table String Child}
    {evs : List FeedView.Event} {evs' : List MyComments.Event} {evs'' : List Threads.Event}
    {s : FeedView} {t : MyComments} {u : Threads} (hs : Path (FeedView.step F) anyStep {} evs s)
    (ht : Path MyComments.step anyStep {} evs' t)
    (hu : Path Threads.step anyStep (Threads.launch node) evs'' u) :
    s.InRange M ∧ t.InRange M ∧ ∀ c ∈ u.screens, c.InRange M :=
  ⟨(FeedView.run_inSync hs).inRange M, (MyComments.run_sound ht).inRange M,
    fun c hc => ((Threads.run_sound hu).sorted c hc).inRange M⟩

/-- A search over two posts, a deletion that waits for its confirmation, and a thread. -/
theorem callbacks_in_range_run :
    let M : Measures := ⟨320, fun _ text => text.length⟩
    let post : Posts := ⟨"Swift", "text", "Jun 1, 2020 at 9:00 AM", "ann", "a", "p1"⟩
    ∃ s t u, Path (FeedView.step .ascii) anyStep {}
        [.feed (.uploadPost "Swift" "text" "Jun 1, 2020 at 9:00 AM" "ann" "a" "p1"),
          .feed (.uploadPost "Lean" "text" "Jun 2, 2020 at 9:00 AM" "ann" "a" "p2"),
          .feed .viewDidLoad, .feed .runMain, .feed .runMain, .feed .runMain, .feed .runMain,
          .layout [0, 1], .feed (.textDidChange "swift"), .layout [0, 1]] s ∧
      Path MyComments.step anyStep {}
        [.uploadPost "Swift" "text" "Jun 1, 2020 at 9:00 AM" "ann" "a" "p1",
          .uploadPost "Lean" "text" "Jun 2, 2020 at 9:00 AM" "ann" "a" "p2", .signIn "a",
          .viewDidLoad, .runMain [], .runMain [], .runMain [], .runMain [],
          .runMain [(0, 0), (1, 1)], .deleteIconTapped 1] t ∧
      Path Threads.step anyStep (Threads.launch ∅)
        [.present (some post), .postComment "bob" "b" "nice" "p1" "c1" "Jun 3, 2020 at 9:00 AM",
          .runMain] u ∧
      (s.feed.main.rows = 1 ∧ s.cells 0 = some post) ∧
      (t.vc.rows = 2 ∧ (t.vc.cells 1).indexPath = some 1) ∧ u.screens.map (·.rows) = [1] ∧
      s.InRange M ∧ t.InRange M ∧ ∀ c ∈ u.screens, c.InRange M := by
  intro M post
  refine ⟨_, _, _, .of_exec_get (by decide), .of_exec_get (by decide), .of_exec_get (by decide),
    by decide, by decide, by decide, ?_⟩
  exact callbacks_in_range M (F := .ascii) (.of_exec_get (by decide)) (.of_exec_get (by decide))
    (.of_exec_get (by decide))

end DevPost
