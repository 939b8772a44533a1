import DevPost.Sanity.Posts
import DevPost.Sanity.TableView

/-! The My Comments screen as a board. A step makes the first pending delivery, or
sends some after all the others, or is a confirmed deletion, which takes one row out
of the visible list. What a step does to the listeners, the auth callbacks and the
node is said once, in `Frame`. -/

namespace DevPost

open Lib FirebaseServices

namespace MyComments

variable {s s' : MyComments} {e : Event}

@[simp] theorem accepted_nil : accepted [] = [] := rfl

@[simp] theorem accepted_cons (d : Observer × Posts) (ds : List (Observer × Posts)) :
    accepted (d :: ds) =
      if d.1.user = d.2.userId then (d.1.closure, d.2) :: accepted ds else accepted ds := by
  unfold accepted
  rw [List.filterMap_cons]
  split_ifs <;> rfl

@[simp] theorem accepted_append (xs ys : List (Observer × Posts)) :
    accepted (xs ++ ys) = accepted xs ++ accepted ys := List.filterMap_append ..

theorem accepted_snapshot (o : Observer) (ps : List Posts) :
    accepted (ps.map (o, ·)) = (ps.filter fun p => o.user = p.userId).map (o.closure, ·) := by
  induction ps with
  | nil => rfl
  | cons p ps ih =>
    rw [List.map_cons, accepted_cons, ih, List.filter_cons]
    by_cases hp : o.user = p.userId <;> simp [hp]

theorem accepted_raise (os : List Observer) (p : Posts) :
    accepted (os.map (·, p)) = (os.filter fun o => o.user = p.userId).map (·.closure, p) := by
  induction os with
  | nil => rfl
  | cons o os ih =>
    rw [List.map_cons, accepted_cons, ih, List.filter_cons]
    by_cases ho : o.user = p.userId <;> simp [ho]

/-- The child an event writes. -/
def put (s : MyComments) : Event → Option (String × Record)
  | .uploadPost title detailPost date username userId postId =>
    some (postId, Table.ofList (uploadPostValues title detailPost date username userId postId))
  | .remoteEdit postId title detailPost date =>
    some (postId,
      updateChildValues s.hub.node postId (editUserPostValues title detailPost date))
  | .editUserPost title detailPost date =>
    match s.presented with
    | some (.editUserPost ⟨some post⟩) =>
      some (post.postId,
        updateChildValues s.hub.node post.postId (editUserPostValues title detailPost date))
    | _ => none
  | _ => none

/-- The child an event removes. -/
def erased (s : MyComments) : Event → Option String
  | .remoteDelete postId => some postId
  | .deletePost _ =>
    match s.presented with
    | some (.deleteAlert cell _) => (s.vc.cells cell).post.map (·.postId)
    | _ => none
  | _ => none

/-- The node after an event. -/
def written (s : MyComments) (e : Event) : Table String Record :=
  match s.put e, s.erased e with
  | some (k, r), _ => s.hub.node.set k r
  | none, some k => s.hub.node.erase k
  | none, none => s.hub.node

/-- The ids an event generates. -/
def generated : Event → List String
  | .uploadPost _ _ _ _ _ postId => [postId]
  | _ => []

/-- The auth callback an event runs. -/
def heard (s : MyComments) : Event → List AuthCallback
  | .runMain _ =>
    match s.hub.queue with
    | .other t :: _ => [t]
    | _ => []
  | _ => []

/-- The post listeners that auth callbacks register. -/
def observers (ts : List AuthCallback) : List Observer :=
  ts.filterMap fun t => t.user.map (⟨t.closure, ·⟩)

/-- The post listeners an event registers. -/
def joins (s : MyComments) (e : Event) : List Observer := observers (s.heard e)

/-- The auth callbacks an event causes. -/
def called (s : MyComments) : Event → List AuthCallback
  | .viewDidLoad => [⟨.fetchPostForCurrentUser, s.session⟩]
  | .refreshData => [⟨.refreshData s.refreshes, s.session⟩]
  | .signIn uid => if s.session = some uid then [] else s.authListeners.map (⟨·, some uid⟩)
  | .signOut => if s.session = none then [] else s.authListeners.map (⟨·, none⟩)
  | _ => []

/-- The auth listeners an event adds. -/
def asked (s : MyComments) : Event → List Closure
  | .viewDidLoad => [.fetchPostForCurrentUser]
  | .refreshData => [.refreshData s.refreshes]
  | _ => []

/-- The session after an event. -/
def user (s : MyComments) : Event → Option Uid
  | .signIn uid => some uid
  | .signOut => none
  | _ => s.session

/-- The deliveries an event adds, of those its listeners let through. -/
def sends (s : MyComments) (e : Event) : List (Closure × Posts) :=
  match s.put e with
  | some (k, r) =>
    if s.hub.node.lookup k = none then accepted (s.hub.listeners.map (·, Posts.init r)) else []
  | none => (s.joins e).flatMap fun o => (s.storedBy o.user).map (o.closure, ·)

/-- The delivery an event makes. -/
def delivers (s : MyComments) : Event → Option (Closure × Posts)
  | .runMain _ =>
    match s.hub.queue with
    | .block o post :: _ => if o.user = post.userId then some (o.closure, post) else none
    | _ => none
  | _ => none

/-- What a step does to the lists. -/
inductive Moves (s : MyComments) (e : Event) (s' : MyComments) : Prop
  | send (board : s'.board = s.board) (pending : s'.pending = s.pending ++ s.sends e)
      (removed : s'.removed = s.removed)
  | deliver (d : Closure × Posts) (makes : s.delivers e = some d)
      (pending : s.pending = d :: s'.pending) (board : s'.board = s.board.deliver byDate d)
      (sends : s.sends e = []) (removed : s'.removed = s.removed)
  | remove (l : Layout) (event : e = .deletePost l) (row : ℕ) (post : Posts)
      (get : s.vc.myPost[row]? = some post)
      (board : s'.board = ⟨s.vc.myPost.eraseIdx row, s.newPosts⟩)
      (pending : s'.pending = s.pending) (sends : s.sends e = [])
      (node : s'.hub.node = s.hub.node.erase post.postId)
      (removed : s'.removed = post.postId :: s.removed)

/-- What a step does besides the lists and the dialogs. -/
structure Frame (s : MyComments) (e : Event) (s' : MyComments) : Prop where
  node : s'.hub.node = s.written e
  ids : s'.ids = generated e ++ s.ids
  listeners : s'.hub.listeners = s.hub.listeners ++ s.joins e
  callbacks : s.heard e ++ others s'.hub.queue = others s.hub.queue ++ s.called e
  authListeners : s'.authListeners = s.authListeners ++ s.asked e
  loaded : s'.loaded = (s.loaded || e = .viewDidLoad)
  refreshes : s'.refreshes = s.refreshes + if e = .refreshData then 1 else 0
  session : s'.session = s.user e

/-- When the events that set the screen up are enabled. -/
def Enabled (s : MyComments) : Event → Prop
  | .viewDidLoad => s.loaded = false
  | .uploadPost _ _ _ _ _ postId => postId ∉ s.ids
  | .remoteEdit postId _ _ _ => postId ∈ s.ids
  | .refreshData => s.loaded = true
  | _ => True

/-- OK in the alert: nothing to delete, or one post removed. -/
theorem deletePost_cases {l : Layout} (h : step s (.deletePost l) = some s') :
    ∃ cell shown, s.presented = some (.deleteAlert cell shown) ∧
      ((s.vc.cells cell).post = none ∧ s' = { s with presented := none } ∨
        ∃ post vc, (s.vc.cells cell).post = some post ∧ s.vc.deletePost cell l = some vc ∧
          s' = { s with
            presented := none
            hub := s.hub.remove post.postId
            sent := s.sent ++ [⟨s.session, post⟩]
            removed := if (s.vc.cells cell).indexPath = none then s.removed
              else post.postId :: s.removed
            vc }) := by
  simp only [step] at h
  split at h
  · rename_i cell shown hp
    refine ⟨cell, shown, hp, ?_⟩
    unfold deletePost at h
    split at h
    · rename_i hpost
      exact .inl ⟨hpost, (Option.some.inj h).symm⟩
    · rename_i post hpost
      obtain ⟨vc, hvc, hs⟩ := Option.map_eq_some_iff.1 h
      exact .inr ⟨post, vc, hpost, hvc, hs.symm⟩
  · cases h

theorem editUserPost_cases {title detailPost date : String}
    (h : step s (.editUserPost title detailPost date) = some s') :
    ∃ post, s.presented = some (.editUserPost ⟨some post⟩) ∧
      s' = { s with
        hub := s.hub.put post.postId
          (updateChildValues s.hub.node post.postId (editUserPostValues title detailPost date))
        sent := s.sent ++ [⟨s.session, post⟩]
        presented := none } := by
  simp only [step] at h
  split at h
  · rename_i vc hp
    obtain ⟨post, hpost, hs⟩ := Option.map_eq_some_iff.1 h
    obtain ⟨userPost⟩ := vc
    obtain rfl : userPost = some post := hpost
    exact ⟨post, hp, hs.symm⟩
  · cases h

theorem runClosure_eq (s : MyComments) (post : Posts) (l : Layout) (c : Closure) :
    ∃ newPosts posts, s.runClosure post l c =
        { s with newPosts, vc := { s.vc with myPost := posts }.reloadData l } ∧
      (⟨posts, newPosts⟩ : Board Posts) = s.board.deliver byDate (c, post) := by
  cases c
  · exact ⟨s.newPosts, _, rfl, rfl⟩
  · exact ⟨_, _, rfl, rfl⟩

/-- The first task of the main queue: the handler of an event, a delivery that the
listener drops or lets through, or an auth callback. -/
theorem runMain_cases {l : Layout} (h : step s (.runMain l) = some s') :
    (∃ o r q, s.hub.queue = .event o r :: q ∧
        s' = { s with hub := { s.hub with queue := q ++ handle observeUserPost o r } }) ∨
      (∃ o post q, s.hub.queue = .block o post :: q ∧ o.user ≠ post.userId ∧
        s' = { s with hub := { s.hub with queue := q } }) ∨
      (∃ o post q newPosts posts, s.hub.queue = .block o post :: q ∧ o.user = post.userId ∧
        (⟨posts, newPosts⟩ : Board Posts) = s.board.deliver byDate (o.closure, post) ∧
        s' = { s with
          hub := { s.hub with queue := q }
          newPosts
          vc := { s.vc with myPost := posts }.reloadData l }) ∨
      (∃ c q, s.hub.queue = .other ⟨c, none⟩ :: q ∧
        s' = { s with hub := { s.hub with queue := q } }) ∨
      ∃ c u q, s.hub.queue = .other ⟨c, some u⟩ :: q ∧
        s' = { s with hub := ({ s.hub with queue := q }).observe ⟨c, u⟩ } := by
  simp only [step, runMain] at h
  split at h
  · cases h
  · rename_i o r q hq
    exact .inl ⟨o, r, q, hq, (Option.some.inj h).symm⟩
  · rename_i o post q hq
    split_ifs at h with hu
    · obtain ⟨newPosts, posts, hs, hd⟩ :=
        runClosure_eq { s with hub := { s.hub with queue := q } } post l o.closure
      rw [hs] at h
      exact .inr (.inr (.inl ⟨o, post, q, newPosts, posts, hq, hu, hd, (Option.some.inj h).symm⟩))
    · exact .inr (.inl ⟨o, post, q, hq, hu, (Option.some.inj h).symm⟩)
  · rename_i t q hq
    obtain ⟨c, u⟩ := t
    cases u with
    | none => exact .inr (.inr (.inr (.inl ⟨c, q, hq, (Option.some.inj h).symm⟩)))
    | some u => exact .inr (.inr (.inr (.inr ⟨c, u, q, hq, (Option.some.inj h).symm⟩)))

theorem step_put {k : String} {r : Record} (h : step s e = some s') (hp : s.put e = some (k, r)) :
    s'.hub = s.hub.put k r ∧ s'.vc = s.vc ∧ s'.newPosts = s.newPosts ∧ r.exists := by
  cases e with
  | uploadPost title detailPost date username userId postId =>
    cases hp
    simp only [step] at h
    split at h <;> cases h
    exact ⟨rfl, rfl, rfl, exists_uploadPost ..⟩
  | remoteEdit postId title detailPost date =>
    cases hp
    simp only [step] at h
    split at h <;> cases h
    exact ⟨rfl, rfl, rfl, exists_editUserPost ..⟩
  | editUserPost title detailPost date =>
    obtain ⟨post, hpost, rfl⟩ := editUserPost_cases h
    simp only [put, hpost] at hp
    cases hp
    exact ⟨rfl, rfl, rfl, exists_editUserPost ..⟩
  | viewDidLoad | signIn | signOut | remoteDelete | refreshData | deleteIconTapped
  | editIconTapped | deletePost | cancel | layout | runMain => cases hp

@[simp] theorem others_put (h : Hub String Observer Record Posts AuthCallback) (k : String)
    (r : Record) : others (h.put k r).queue = others h.queue := by
  simp only [Hub.put]
  split_ifs <;> simp

theorem step_frame (h : step s e = some s') : Frame s e s' ∧ s.Enabled e := by
  cases e with
  | viewDidLoad =>
    simp only [step] at h
    split at h <;> cases h
    rename_i hl
    exact ⟨⟨rfl, rfl, by simp [joins, heard, observers, addStateDidChangeListener, Hub.post],
      by simp [heard, called, addStateDidChangeListener, Hub.post], rfl, by simp, rfl, rfl⟩,
      by simpa [Enabled] using hl⟩
  | signIn | signOut =>
    cases h
    exact ⟨⟨rfl, rfl, by simp [joins, heard, observers, stateDidChange, Hub.post],
      by simp [heard, called, stateDidChange, Hub.post], by simp [asked, stateDidChange],
      by simp [stateDidChange], by simp [stateDidChange], rfl⟩, trivial⟩
  | uploadPost | remoteEdit =>
    simp only [step] at h
    split at h <;> cases h
    rename_i hid
    exact ⟨⟨rfl, rfl, by simp [joins, heard, observers, Hub.put], by simp [heard, called],
      by simp [asked], by simp, by simp, rfl⟩, hid⟩
  | remoteDelete | cancel | layout =>
    cases h
    exact ⟨⟨rfl, rfl, by simp [joins, heard, observers, Hub.remove],
      by simp [heard, called, Hub.remove], by simp [asked], by simp, by simp, rfl⟩, trivial⟩
  | refreshData =>
    simp only [step] at h
    split at h <;> cases h
    rename_i hl
    exact ⟨⟨rfl, rfl, by simp [joins, heard, observers, addStateDidChangeListener, Hub.post],
      by simp [heard, called, addStateDidChangeListener, Hub.post], rfl, by simp [
        addStateDidChangeListener], by simp, rfl⟩, hl⟩
  | deleteIconTapped | editIconTapped =>
    obtain ⟨post, -, rfl⟩ := Option.map_eq_some_iff.1 h
    exact ⟨⟨rfl, rfl, by simp [joins, heard, observers, present], by simp [heard, called, present],
      by simp [asked, present], by simp [present], by simp [present], rfl⟩, trivial⟩
  | deletePost =>
    obtain ⟨cell, shown, hp, ⟨hpost, rfl⟩ | ⟨post, vc, hpost, -, rfl⟩⟩ := deletePost_cases h
    · exact ⟨⟨by simp [written, put, erased, hp, hpost], rfl, by simp [joins, heard, observers],
        by simp [heard, called], by simp [asked], by simp, by simp, rfl⟩, trivial⟩
    · exact ⟨⟨by simp [written, put, erased, hp, hpost, Hub.remove], rfl,
        by simp [joins, heard, observers, Hub.remove], by simp [heard, called, Hub.remove],
        by simp [asked], by simp, by simp, rfl⟩, trivial⟩
  | editUserPost =>
    obtain ⟨post, hp, rfl⟩ := editUserPost_cases h
    exact ⟨⟨by simp [written, put, hp, Hub.put], rfl,
      by simp [joins, heard, observers, Hub.put], by simp [heard, called], by simp [asked],
      by simp, by simp, rfl⟩, trivial⟩
  | runMain =>
    refine ⟨?_, trivial⟩
    rcases runMain_cases h with ⟨o, r, q, hq, rfl⟩ | ⟨o, post, q, hq, -, rfl⟩ |
      ⟨o, post, q, newPosts, posts, hq, -, -, rfl⟩ | ⟨c, q, hq, rfl⟩ | ⟨c, u, q, hq, rfl⟩ <;>
    exact ⟨rfl, rfl, by simp [joins, heard, observers, hq, Hub.observe],
      by simp [heard, called, hq, Hub.observe], by simp [asked], by simp, by simp, rfl⟩

theorem kept_step (h : step s e = some s') (hk : Kept s.hub.node) : Kept s'.hub.node := by
  rw [(step_frame h).1.node]
  unfold written
  split
  · rename_i k r hp
    exact kept_set hk k (step_put h hp).2.2.2
  · exact kept_erase hk _
  · exact hk

/-- The deliveries of a registration, once the handlers drop nothing. -/
theorem accepted_observe {q : List (Task Observer Record Posts AuthCallback)} (o : Observer)
    (hk : Kept s.hub.node) :
    accepted (inflight observeUserPost (q ++ snapshot o (s.hub.node.entries.map (·.2)))) =
      accepted (inflight observeUserPost q) ++ (s.storedBy o.user).map (o.closure, ·) := by
  rw [inflight_append_snapshot, deliveries_of_kept hk, accepted_append, accepted_snapshot]
  rfl

theorem pending_put {k : String} {r : Record} (hr : r.exists) (h : s'.hub = s.hub.put k r) :
    s'.pending = s.pending ++
      if s.hub.node.lookup k = none then accepted (s.hub.listeners.map (·, Posts.init r))
      else [] := by
  unfold pending
  rw [h]
  simp only [Hub.put]
  split_ifs with hl
  · rw [inflight_append_raise, accepted_append, observeUserPost_of_exists hr]
    simp
  · simp

theorem sends_of_quiet (hp : s.put e = none) (hh : s.heard e = []) : s.sends e = [] := by
  simp [sends, hp, joins, hh, observers]

theorem Moves.quiet (hboard : s'.board = s.board) (hpending : s'.pending = s.pending)
    (hsends : s.sends e = []) (hremoved : s'.removed = s.removed) : Moves s e s' :=
  .send hboard (by rw [hsends, List.append_nil, hpending]) hremoved

theorem step_moves (h : step s e = some s') (hk : Kept s.hub.node) (hb : s.vc.Bound) :
    Moves s e s' := by
  by_cases hp : ∃ k r, s.put e = some (k, r)
  · obtain ⟨k, r, hp⟩ := hp
    obtain ⟨hhub, hvc, hnew, hr⟩ := step_put h hp
    refine .send (by simp [board, hvc, hnew]) ?_ ?_
    · rw [pending_put hr hhub]
      simp [sends, hp]
    · cases e with
      | uploadPost | remoteEdit =>
        simp only [step] at h
        split at h <;> cases h
        rfl
      | editUserPost =>
        obtain ⟨post, -, rfl⟩ := editUserPost_cases h
        rfl
      | viewDidLoad | signIn | signOut | remoteDelete | refreshData | deleteIconTapped
      | editIconTapped | deletePost | cancel | layout | runMain => cases hp
  have hput : s.put e = none := by
    rw [Option.eq_none_iff_forall_ne_some]
    exact fun ⟨k, r⟩ he => hp ⟨k, r, he⟩
  cases e with
  | uploadPost | remoteEdit => exact absurd ⟨_, _, rfl⟩ hp
  | editUserPost title detailPost date =>
    obtain ⟨post, hpost, -⟩ := editUserPost_cases h
    exact absurd ⟨_, _, by simp only [put, hpost]; rfl⟩ hp
  | viewDidLoad | refreshData =>
    simp only [step] at h
    split at h <;> cases h
    refine .quiet rfl ?_ (sends_of_quiet rfl rfl) rfl
    simp only [pending, addStateDidChangeListener, Hub.post, inflight_append_other]
  | signIn | signOut =>
    cases h
    refine .quiet rfl ?_ (sends_of_quiet rfl rfl) rfl
    simp only [pending, stateDidChange, Hub.post, inflight_append_other]
  | remoteDelete | cancel =>
    cases h
    exact .quiet rfl rfl (sends_of_quiet rfl rfl) rfl
  | layout l =>
    cases h
    exact .quiet (by simp [board]) rfl (sends_of_quiet rfl rfl) rfl
  | deleteIconTapped | editIconTapped =>
    obtain ⟨post, -, rfl⟩ := Option.map_eq_some_iff.1 h
    exact .quiet rfl rfl (sends_of_quiet rfl rfl) rfl
  | deletePost l =>
    have hquiet : s.sends (.deletePost l) = [] := sends_of_quiet rfl rfl
    obtain ⟨cell, shown, hp, ⟨hpost, rfl⟩ | ⟨post, vc, hpost, hvc, rfl⟩⟩ := deletePost_cases h
    · exact .quiet rfl rfl hquiet rfl
    · rw [MyCommentsController.deletePost_eq hb] at hvc
      obtain rfl := Option.some.inj hvc
      cases hi : (s.vc.cells cell).indexPath with
      | none => exact .quiet rfl rfl hquiet rfl
      | some row =>
        have hget : s.vc.myPost[row]? = some post := by rw [← hb.post cell row hi, hpost]
        exact .remove l rfl row post hget (by simp [board]) rfl hquiet rfl rfl
  | runMain l =>
    rcases runMain_cases h with ⟨o, r, q, hq, rfl⟩ | ⟨o, post, q, hq, hu, rfl⟩ |
      ⟨o, post, q, newPosts, posts, hq, hu, hd, rfl⟩ | ⟨c, q, hq, rfl⟩ | ⟨c, u, q, hq, rfl⟩
    · refine .quiet rfl ?_ (sends_of_quiet rfl (by simp [heard, hq])) rfl
      simp only [pending, inflight_handle, hq]
    · refine .quiet rfl ?_ (sends_of_quiet rfl (by simp [heard, hq])) rfl
      simp [pending, hq, hu]
    · refine .deliver (o.closure, post) (by simp [delivers, hq, hu]) (by simp [pending, hq, hu]) ?_
        (sends_of_quiet rfl (by simp [heard, hq])) rfl
      rw [← hd]
      simp [board]
    · refine .quiet rfl (by simp [pending, hq]) ?_ rfl
      simp [sends, put, joins, heard, hq, observers]
    · refine .send rfl ?_ rfl
      rw [show s.sends (.runMain l) = (s.storedBy u).map (c, ·) by
        simp [sends, put, joins, heard, hq, observers]]
      simp only [pending, Hub.observe, hq, inflight_other]
      exact accepted_observe ⟨c, u⟩ hk

theorem board_delivers {d : Closure × Posts} (h : step s e = some s')
    (hd : s.delivers e = some d) : s'.board = s.board.deliver byDate d := by
  cases e with
  | runMain l =>
    rcases runMain_cases h with ⟨o, r, q, hq, rfl⟩ | ⟨o, post, q, hq, hu, rfl⟩ |
      ⟨o, post, q, newPosts, posts, hq, hu, hb, rfl⟩ | ⟨c, q, hq, rfl⟩ | ⟨c, u, q, hq, rfl⟩
    · simp [delivers, hq] at hd
    · simp [delivers, hq, hu] at hd
    · obtain rfl : (o.closure, post) = d := by simpa [delivers, hq, hu] using hd
      rw [← hb]
      simp [board]
    · simp [delivers, hq] at hd
    · simp [delivers, hq] at hd
  | viewDidLoad | signIn | signOut | uploadPost | remoteEdit | remoteDelete | refreshData
  | deleteIconTapped | editIconTapped | deletePost | editUserPost | cancel | layout => cases hd

/-- The table view is left alone, laid out again, or reloaded with other posts. -/
theorem vc_step (h : step s e = some s') (hb : s.vc.Bound) :
    s'.vc = s.vc ∨ (∃ l, s'.vc = s.vc.layout l) ∨
      ∃ (c : MyCommentsController) (l : Layout), c.cells = s.vc.cells ∧ s'.vc = c.reloadData l := by
  cases e with
  | viewDidLoad | uploadPost | remoteEdit | refreshData =>
    simp only [step] at h
    split at h <;> cases h
    exact .inl rfl
  | signIn | signOut | remoteDelete | cancel => cases h; exact .inl rfl
  | layout l => cases h; exact .inr (.inl ⟨l, rfl⟩)
  | deleteIconTapped | editIconTapped =>
    obtain ⟨post, -, rfl⟩ := Option.map_eq_some_iff.1 h
    exact .inl rfl
  | deletePost l =>
    obtain ⟨cell, shown, -, ⟨-, rfl⟩ | ⟨post, vc, -, hvc, rfl⟩⟩ := deletePost_cases h
    · exact .inl rfl
    · rw [MyCommentsController.deletePost_eq hb] at hvc
      cases hi : (s.vc.cells cell).indexPath with
      | none =>
        rw [hi] at hvc
        exact .inl (Option.some.inj hvc).symm
      | some row =>
        rw [hi] at hvc
        exact .inr (.inr ⟨{ s.vc with
          myPost := s.vc.myPost.eraseIdx row, rows := s.vc.rows - 1 }, l, rfl,
          (Option.some.inj hvc).symm⟩)
  | editUserPost =>
    obtain ⟨post, -, rfl⟩ := editUserPost_cases h
    exact .inl rfl
  | runMain l =>
    rcases runMain_cases h with ⟨o, r, q, -, rfl⟩ | ⟨o, post, q, -, -, rfl⟩ |
      ⟨o, post, q, newPosts, posts, -, -, -, rfl⟩ | ⟨c, q, -, rfl⟩ | ⟨c, u, q, -, rfl⟩
    · exact .inl rfl
    · exact .inl rfl
    · exact .inr (.inr ⟨{ s.vc with myPost := posts }, l, rfl, rfl⟩)
    · exact .inl rfl
    · exact .inl rfl

theorem bound_step (h : step s e = some s') (hb : s.vc.Bound) : s'.vc.Bound := by
  rcases vc_step h hb with hvc | ⟨l, hvc⟩ | ⟨c, l, -, hvc⟩ <;> rw [hvc]
  · exact hb
  · exact MyCommentsController.layout_bound hb.rows
  · exact MyCommentsController.reloadData_bound

end MyComments

end DevPost
