import DevPost.Sanity.Listeners
import DevPost.Sanity.MainFeed
import DevPost.Sanity.Sorted

/-! The order of the posts on screen. The closures of the launch path sort the list after
each post, and a deletion leaves the order alone, but a refresh puts the posts on screen as
they come: it keeps the order exactly as long as each is dated no later than the posts
that the refresh was told before. -/

namespace DevPost

open Lib FirebaseServices

/-- The posts are in non-increasing order of their dates, and the launch path shows the same
posts in the same order, whatever the table view lays out. -/
structure InDateOrder (posts : List Posts) : Prop where
  inOrder : InOrder latest posts
  observeUser : (posts.foldl MainController.observeUser {}).posts = posts
  fetchPostForCurrentUser : ∀ layout : Posts → Layout,
    (posts.foldl (fun c p => c.fetchPostForCurrentUser p (layout p))
      ({} : MyCommentsController)).myPost = posts

theorem inDateOrder_iff {posts : List Posts} : InDateOrder posts ↔ InOrder latest posts := by
  refine ⟨fun h => h.inOrder, fun h => ⟨h, ?_, fun layout => ?_⟩⟩
  · rw [posts_foldl_observeUser]
    exact feed_nil_eq_self_iff.2 h
  · have hfold := myPost_foldl_fetchPostForCurrentUser {} (posts.map fun p => (p, layout p))
    rw [List.foldl_map, List.map_map] at hfold
    rw [hfold]
    simpa [Function.comp_def] using feed_nil_eq_self_iff.2 h

theorem byDate_eq : byDate = sortOn latest := funext sort_orderedDescending

namespace Feed

variable {F : Foundation} {s s' : Feed} {e : Event}

/-- A post that a refresh is told is dated no later than the posts it was told before. -/
def RefreshInTurn (s : Feed) (e : Event) : Prop := ∀ d ∈ s.delivers e, s.board.InTurn latest d

instance (s : Feed) (e : Event) : Decidable (s.RefreshInTurn e) :=
  inferInstanceAs (Decidable (∀ d ∈ s.delivers e, s.board.InTurn latest d))

theorem ordered_step (h : step F s e = some s') (hok : s.RefreshInTurn e)
    (hs : s.board.Ordered latest) : s'.board.Ordered latest := by
  rw [board_step h]
  cases hd : s.delivers e with
  | none => exact hs
  | some d =>
    rw [byDate_eq]
    exact hs.deliver (hok d hd)

theorem inDateOrder_step_iff (h : step F s e = some s') (hs : s.board.Ordered latest) :
    InDateOrder s'.main.posts ↔ s.RefreshInTurn e := by
  rw [inDateOrder_iff, show s'.main.posts = s'.board.visible from rfl, board_step h, RefreshInTurn]
  cases s.delivers e with
  | none => exact iff_of_true hs.visible (by simp)
  | some d =>
    rw [byDate_eq]
    simpa using hs.visible_deliver_iff d

theorem run_ordered {evs : List Event} (h : Path (step F) RefreshInTurn {} evs s) :
    s.board.Ordered latest :=
  h.invariant (fun s => s.board.Ordered latest) ⟨.nil, fun _ => .nil⟩
    fun _ _ _ hs hok h => ordered_step h hok hs

end Feed

namespace MyComments

variable {s s' : MyComments} {e : Event}

/-- A post that a refresh is told is dated no later than the posts it was told before. -/
def RefreshInTurn (s : MyComments) (e : Event) : Prop := ∀ d ∈ s.delivers e, s.board.InTurn latest d

instance (s : MyComments) (e : Event) : Decidable (s.RefreshInTurn e) :=
  inferInstanceAs (Decidable (∀ d ∈ s.delivers e, s.board.InTurn latest d))

theorem board_quiet (h : step s e = some s') (hk : Kept s.hub.node) (hb : s.vc.Bound)
    (hd : s.delivers e = none) :
    s'.newPosts = s.newPosts ∧ s'.vc.myPost.Sublist s.vc.myPost := by
  cases step_moves h hk hb with
  | send board =>
    have hvisible : s'.vc.myPost = s.vc.myPost := congrArg Board.visible board
    exact ⟨congrArg Board.own board, hvisible ▸ List.Sublist.refl _⟩
  | deliver d makes => simp [hd] at makes
  | remove l event row post get board =>
    have hvisible : s'.vc.myPost = s.vc.myPost.eraseIdx row := congrArg Board.visible board
    exact ⟨congrArg Board.own board, hvisible ▸ List.eraseIdx_sublist ..⟩

theorem ordered_step (h : step s e = some s') (hk : Kept s.hub.node) (hb : s.vc.Bound)
    (hok : s.RefreshInTurn e) (hs : s.board.Ordered latest) : s'.board.Ordered latest := by
  cases hd : s.delivers e with
  | none =>
    obtain ⟨hnew, hsub⟩ := board_quiet h hk hb hd
    exact ⟨hs.visible.sublist hsub, fun r => by simpa [board, hnew] using hs.own r⟩
  | some d =>
    rw [board_delivers h hd, byDate_eq]
    exact hs.deliver (hok d hd)

theorem inDateOrder_step_iff (h : step s e = some s') (hk : Kept s.hub.node) (hb : s.vc.Bound)
    (hs : s.board.Ordered latest) : InDateOrder s'.vc.myPost ↔ s.RefreshInTurn e := by
  rw [inDateOrder_iff, RefreshInTurn]
  cases hd : s.delivers e with
  | none => exact iff_of_true (hs.visible.sublist (board_quiet h hk hb hd).2) (by simp)
  | some d =>
    rw [show s'.vc.myPost = s'.board.visible from rfl, board_delivers h hd, byDate_eq]
    simpa using hs.visible_deliver_iff d

theorem run_ordered {evs : List Event} (h : Path step RefreshInTurn {} evs s) :
    s.board.Ordered latest := by
  have hboth : Sound s ∧ s.board.Ordered latest := h.invariant
    (fun s => Sound s ∧ s.board.Ordered latest) ⟨sound_init, .nil, fun _ => .nil⟩
    fun _ _ _ hs hok h => ⟨sound_step h hs.1, ordered_step h hs.1.kept hs.1.bound hok hs.2⟩
  exact hboth.2

end MyComments

/-- Along runs in which every refresh is told its posts in turn, both screens show them in
order, and after the next step exactly when this one is in turn as well. -/
theorem lists_in_order {F : Foundation} {evs : List Feed.Event} {s s' : Feed} {e : Feed.Event}
    {evs' : List MyComments.Event} {t t' : MyComments} {e' : MyComments.Event}
    (hs : Path (Feed.step F) Feed.RefreshInTurn {} evs s) (h : Feed.step F s e = some s')
    (ht : Path MyComments.step MyComments.RefreshInTurn {} evs' t)
    (h' : MyComments.step t e' = some t') :
    (InDateOrder s.main.posts ∧ (InDateOrder s'.main.posts ↔ s.RefreshInTurn e)) ∧
      InDateOrder t.vc.myPost ∧ (InDateOrder t'.vc.myPost ↔ t.RefreshInTurn e') := by
  have hfeed := Feed.run_ordered hs
  have hmine := MyComments.run_ordered ht
  have hsound := MyComments.run_sound ht
  exact ⟨⟨inDateOrder_iff.2 hfeed.visible, Feed.inDateOrder_step_iff h hfeed⟩,
    inDateOrder_iff.2 hmine.visible,
    MyComments.inDateOrder_step_iff h' hsound.kept hsound.bound hmine⟩

/-- Both screens are refreshed while the later post has the smaller key. -/
theorem lists_in_order_run :
    ∃ s s' t t', Path (Feed.step .ascii) Feed.RefreshInTurn {}
        [.viewDidLoad, .uploadPost "Swift" "text" "Jun 2, 2020 at 9:00 AM" "ann" "a" "p1",
          .uploadPost "Lean" "text" "Jun 1, 2020 at 9:00 AM" "ann" "a" "p2", .refreshData,
          .runMain, .runMain, .runMain, .runMain, .runMain, .runMain, .runMain, .runMain] s ∧
      Feed.step .ascii s .runMain = some s' ∧
      Path MyComments.step MyComments.RefreshInTurn {}
        [.signIn "a", .viewDidLoad, .runMain [],
          .uploadPost "Swift" "text" "Jun 2, 2020 at 9:00 AM" "ann" "a" "p1",
          .uploadPost "Lean" "text" "Jun 1, 2020 at 9:00 AM" "ann" "a" "p2", .refreshData,
          .runMain [], .runMain [], .runMain [], .runMain [], .runMain [], .runMain [],
          .runMain [], .runMain []] t ∧
      MyComments.step t (.runMain []) = some t' ∧
      (InDateOrder s.main.posts ∧ (InDateOrder s'.main.posts ↔ s.RefreshInTurn .runMain)) ∧
      InDateOrder t.vc.myPost ∧ (InDateOrder t'.vc.myPost ↔ t.RefreshInTurn (.runMain [])) := by
  refine ⟨_, _, _, _, .of_exec_get (by decide), (Option.some_get (by decide)).symm,
    .of_exec_get (by decide), (Option.some_get (by decide)).symm, ?_⟩
  exact lists_in_order (F := .ascii) (.of_exec_get (by decide)) (Option.some_get (by decide)).symm
    (.of_exec_get (by decide)) (Option.some_get (by decide)).symm

/-- The keys are in the order in which the posts were written. -/
theorem lists_out_of_order :
    ¬ ((∀ (F : Foundation) (evs : List Feed.Event) (s : Feed),
          Path (Feed.step F) anyStep {} evs s → InDateOrder s.main.posts) ∧
        ∀ (evs : List MyComments.Event) (t : MyComments),
          Path MyComments.step anyStep {} evs t → InDateOrder t.vc.myPost) := by
  rintro ⟨hall, -⟩
  have hrun : Path (Feed.step .ascii) anyStep {}
      [.uploadPost "Swift" "text" "Jun 1, 2020 at 9:00 AM" "ann" "a" "p1",
        .uploadPost "Lean" "text" "Jun 2, 2020 at 9:00 AM" "ann" "a" "p2", .viewDidLoad,
        .refreshData, .runMain, .runMain, .runMain, .runMain, .runMain, .runMain, .runMain,
        .runMain, .runMain] _ := .of_exec_get (by decide)
  exact absurd (hall _ _ _ hrun).inOrder (by decide)

end DevPost
