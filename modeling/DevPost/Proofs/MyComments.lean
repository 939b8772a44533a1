import DevPost.Sanity.Listeners

/-! The writes of My Comments. A deletion or an edit goes to the post that the tapped
cell or the form holds, and neither checks who wrote it or that it is still the one
the user saw. So both results follow what the screen holds: the posts it can send a
write for, over changes of the account, and the post of one cell, over reloads. -/

namespace DevPost

open Lib FirebaseServices

namespace MyComments

variable {s s' : MyComments} {e : Event}

/-- The post that OK in the presented dialog would act on. -/
def inHand (s : MyComments) : List Posts :=
  match s.presented with
  | none => []
  | some (.deleteAlert cell _) => (s.vc.cells cell).post.toList
  | some (.editUserPost vc) => vc.userPost.toList

/-- The posts on the screen, captured by a refresh, on their way, or in hand. -/
def held (s : MyComments) : List Posts :=
  s.vc.myPost ++ (List.range s.refreshes).flatMap s.newPosts ++ s.pending.map (·.2) ++ s.inHand

/-- An account signs in while the screen holds no post of another, and while it is signed
in no post of another is sent to the screen. -/
def KeepsToUser (s : MyComments) : Event → Prop
  | .signIn uid => ∀ p ∈ s.held, p.userId = uid
  | e => ∀ uid ∈ s.session, ∀ d ∈ s.sends e, d.2.userId = uid

instance (s : MyComments) (e : Event) : Decidable (KeepsToUser s e) := by
  unfold KeepsToUser
  split <;> infer_instance

theorem cells_step (h : step s e = some s') (hb : s.vc.Bound) {i : ℕ} {p : Posts}
    (hp : (s'.vc.cells i).post = some p) : (s.vc.cells i).post = some p ∨ p ∈ s'.vc.myPost := by
  rcases vc_step h hb with hvc | ⟨l, hvc⟩ | ⟨c, l, hcells, hvc⟩ <;> rw [hvc] at hp ⊢
  · exact .inl hp
  · rcases MyCommentsController.layout_post (l := l) hb.rows i with he | ⟨x, hx, he⟩
    · exact .inl (he ▸ hp)
    · obtain rfl : x = p := Option.some.inj (he.symm.trans hp)
      exact .inr (by simpa using hx)
  · rcases MyCommentsController.reloadData_post (c := c) (l := l) i with he | ⟨x, hx, he⟩
    · exact .inl (by rw [← hcells, ← he, hp])
    · obtain rfl : x = p := Option.some.inj (he.symm.trans hp)
      exact .inr (by simpa using hx)

theorem tapped_mem (hb : s.vc.Bound) {cell : ℕ} {post : Posts} (h : s.tapped cell = some post) :
    (s.vc.cells cell).post = some post ∧ post ∈ s.vc.myPost := by
  obtain ⟨row, hrow, hpost⟩ := Option.bind_eq_some_iff.1 h
  exact ⟨hpost, List.mem_of_getElem? ((hb.post cell row hrow).symm.trans hpost)⟩

theorem presented_step (h : step s e = some s') (hb : s.vc.Bound) :
    s'.presented = s.presented ∨ s'.inHand = [] ∨ ∀ p ∈ s'.inHand, p ∈ s'.vc.myPost := by
  cases e with
  | viewDidLoad | uploadPost | remoteEdit | refreshData =>
    simp only [step] at h
    split at h <;> cases h
    exact .inl rfl
  | signIn | signOut | remoteDelete | layout => cases h; exact .inl rfl
  | cancel => cases h; exact .inr (.inl rfl)
  | deleteIconTapped cell | editIconTapped cell =>
    obtain ⟨post, ht, rfl⟩ := Option.map_eq_some_iff.1 h
    obtain ⟨hpost, hmem⟩ := tapped_mem hb ht
    cases hp : s.presented with
    | some d => exact .inl (by simp [present, hp])
    | none => exact .inr (.inr fun p hmem' => by
        simp only [inHand, present, hp, Option.none_or, hpost, Option.toList_some,
          List.mem_singleton] at hmem'
        exact hmem' ▸ hmem)
  | deletePost =>
    obtain ⟨cell, shown, -, ⟨-, rfl⟩ | ⟨post, vc, -, -, rfl⟩⟩ := deletePost_cases h
    · exact .inr (.inl rfl)
    · exact .inr (.inl rfl)
  | editUserPost =>
    obtain ⟨post, -, rfl⟩ := editUserPost_cases h
    exact .inr (.inl rfl)
  | runMain l =>
    rcases runMain_cases h with ⟨o, r, q, -, rfl⟩ | ⟨o, post, q, -, -, rfl⟩ |
      ⟨o, post, q, newPosts, posts, -, -, -, rfl⟩ | ⟨c, q, -, rfl⟩ | ⟨c, u, q, -, rfl⟩ <;>
    exact .inl rfl

theorem inHand_step (h : step s e = some s') (hb : s.vc.Bound) :
    ∀ p ∈ s'.inHand, p ∈ s.inHand ∨ p ∈ s'.vc.myPost := by
  intro p hp
  rcases presented_step h hb with hsame | hnil | hlist
  · unfold inHand at hp ⊢
    rw [hsame] at hp
    split at hp
    · simp at hp
    · exact (cells_step h hb (Option.mem_toList.1 hp)).imp_left Option.mem_toList.2
    · exact .inl hp
  · simp [hnil] at hp
  · exact .inr (hlist p hp)

/-- A write that is sent is sent under the current session, for the post in hand. -/
theorem sent_step (h : step s e = some s') :
    ∀ w ∈ s'.sent, w ∈ s.sent ∨ w.session = s.session ∧ w.post ∈ s.inHand := by
  intro w hw
  cases e with
  | viewDidLoad | uploadPost | remoteEdit | refreshData =>
    simp only [step] at h
    split at h <;> cases h
    exact .inl hw
  | signIn | signOut | remoteDelete | cancel | layout => cases h; exact .inl hw
  | deleteIconTapped | editIconTapped =>
    obtain ⟨post, -, rfl⟩ := Option.map_eq_some_iff.1 h
    exact .inl hw
  | deletePost =>
    obtain ⟨cell, shown, hp, ⟨-, rfl⟩ | ⟨post, vc, hpost, -, rfl⟩⟩ := deletePost_cases h
    · exact .inl hw
    · rcases List.mem_append.1 hw with hw | hw
      · exact .inl hw
      · obtain rfl := List.mem_singleton.1 hw
        exact .inr ⟨rfl, by simp [inHand, hp, hpost]⟩
  | editUserPost =>
    obtain ⟨post, hp, rfl⟩ := editUserPost_cases h
    rcases List.mem_append.1 hw with hw | hw
    · exact .inl hw
    · obtain rfl := List.mem_singleton.1 hw
      exact .inr ⟨rfl, by simp [inHand, hp]⟩
  | runMain l =>
    rcases runMain_cases h with ⟨o, r, q, -, rfl⟩ | ⟨o, post, q, -, -, rfl⟩ |
      ⟨o, post, q, newPosts, posts, -, -, -, rfl⟩ | ⟨c, q, -, rfl⟩ | ⟨c, u, q, -, rfl⟩ <;>
    exact .inl hw

/-- While `uid` is signed in, everything the screen holds is its own. -/
structure Owned (uid : Uid) (s : MyComments) : Prop where
  lists : s.board.Holds (·.userId = uid) s.pending
  hand : ∀ p ∈ s.inHand, p.userId = uid

theorem Owned.of_held (hw : Wired s) {uid : Uid} (h : ∀ p ∈ s.held, p.userId = uid) :
    Owned uid s where
  lists := by
    refine ⟨fun p hp => h p (by simp [held, show p ∈ s.vc.myPost from hp]), fun r p hp => ?_,
      fun d hd => h d.2 ?_⟩
    · have hr : .refreshData r ∈ s.closures := by
        by_contra hr
        have : s.newPosts r = [] := hw.own r hr
        simp [board, this] at hp
      have hlt : r < s.refreshes := hw.mem_authListeners.1 (hw.registered _ hr)
      have hmem : p ∈ (List.range s.refreshes).flatMap s.newPosts :=
        List.mem_flatMap.2 ⟨r, List.mem_range.2 hlt, hp⟩
      exact h p (by simp only [held, List.mem_append]; exact .inl (.inl (.inr hmem)))
    · have hmem : d.2 ∈ s.pending.map (·.2) := List.mem_map_of_mem hd
      simp only [held, List.mem_append]
      exact .inl (.inr hmem)
  hand p hp := h p (by simp [held, hp])

theorem owned_step {uid : Uid} (h : step s e = some s') (hs : Sound s) (ho : Owned uid s)
    (hsends : ∀ d ∈ s.sends e, d.2.userId = uid) : Owned uid s' := by
  have hlists : s'.board.Holds (·.userId = uid) s'.pending := by
    cases step_moves h hs.kept hs.bound with
    | send hboard hp _ =>
      rw [hboard, hp]
      exact ho.lists.push hsends
    | deliver d _ hp hboard _ _ =>
      have hold := ho.lists
      rw [hp] at hold
      rw [hboard]
      exact hold.deliver (sort_perm _)
    | remove _ _ row post _ hboard hp _ _ _ =>
      rw [hboard, hp]
      exact ⟨fun p hp => ho.lists.visible p (List.mem_of_mem_eraseIdx hp), ho.lists.own,
        ho.lists.coming⟩
  refine ⟨hlists, fun p hp => ?_⟩
  rcases inHand_step h hs.bound p hp with hp | hp
  · exact ho.hand p hp
  · exact hlists.visible p hp

/-- The invariant of the runs that keep the screen to the account that is signed in. -/
structure Private (s : MyComments) : Prop where
  sound : Sound s
  owned : ∀ uid ∈ s.session, Owned uid s
  sent : ∀ w ∈ s.sent, ∀ uid, w.session = some uid → w.post.userId = uid

theorem private_step (h : step s e = some s') (hok : KeepsToUser s e) (hs : Private s) :
    Private s' where
  sound := sound_step h hs.sound
  owned := by
    intro uid huid
    rw [Option.mem_def, (step_frame h).1.session] at huid
    by_cases hin : ∃ u, e = .signIn u
    · obtain ⟨u, rfl⟩ := hin
      obtain rfl : u = uid := Option.some.inj huid
      have ho : Owned u s := .of_held hs.sound.wired hok
      exact owned_step h hs.sound ho (by simp [sends_of_quiet (s := s) (e := .signIn u) rfl rfl])
    by_cases hout : e = .signOut
    · subst hout
      cases huid
    have hsame : s.session = some uid := by
      cases e <;> first | exact huid | exact absurd rfl hout | exact absurd ⟨_, rfl⟩ hin
    have hsends : ∀ d ∈ s.sends e, d.2.userId = uid := by
      cases e <;> first | exact hok uid hsame | exact absurd ⟨_, rfl⟩ hin
    exact owned_step h hs.sound (hs.owned uid hsame) hsends
  sent := by
    intro w hw uid huid
    rcases sent_step h w hw with hw | ⟨hsession, hpost⟩
    · exact hs.sent w hw uid huid
    · exact (hs.owned uid (hsession.symm.trans huid)).hand _ hpost

/-- As long as no account signs in over posts of another, and none arrive while it is
signed in, every deletion and every edit is sent for a post of the signed-in account. -/
theorem writes_own {evs : List Event} (h : Path step KeepsToUser {} evs s) :
    ∀ w ∈ s.sent, ∀ uid, w.session = some uid → w.post.userId = uid := by
  have hs : Private s := h.invariant Private
    ⟨sound_init, fun uid huid => (by cases huid), fun w hw => (by cases hw)⟩
    fun _ _ _ hs hok h => private_step h hok hs
  exact hs.sent

/-- Two accounts on one device: the first deletes its only post, the second edits its own. -/
theorem writes_own_run :
    ∃ s, Path step KeepsToUser {}
        [.signIn "a", .uploadPost "Swift" "text" "Jun 1, 2020 at 9:00 AM" "ann" "a" "p1",
          .viewDidLoad, .runMain [], .runMain [], .runMain [(0, 0)], .deleteIconTapped 0,
          .deletePost [], .signOut, .runMain [], .signIn "b",
          .uploadPost "Lean" "text" "Jun 2, 2020 at 9:00 AM" "bob" "b" "p2", .runMain [],
          .runMain [], .runMain [], .runMain [], .runMain [(0, 0)], .editIconTapped 0,
          .editUserPost "Lean 4" "text" "Jun 3, 2020 at 9:00 AM"] s ∧
      s.sent.map (·.session) = [some "a", some "b"] ∧
      ∀ w ∈ s.sent, ∀ uid, w.session = some uid → w.post.userId = uid :=
  ⟨_, .of_exec_get (by decide), by decide, writes_own (.of_exec_get (by decide))⟩

/-- The next account to sign in deletes a post of the one before. -/
theorem writes_foreign :
    ¬ ∀ (evs : List Event) (s : MyComments), Path step anyStep {} evs s →
        ∀ w ∈ s.sent, ∀ uid, w.session = some uid → w.post.userId = uid := by
  intro h
  have hw := h [.signIn "a", .uploadPost "Swift" "text" "Jun 1, 2020 at 9:00 AM" "ann" "a" "p1",
    .viewDidLoad, .runMain [], .runMain [], .runMain [(0, 0)], .signOut, .runMain [], .signIn "b",
    .runMain [], .runMain [], .runMain [], .deleteIconTapped 0, .deletePost []] _
    (.of_exec_get (by decide))
  exact absurd (hw ⟨some "b", ⟨"Swift", "text", "Jun 1, 2020 at 9:00 AM", "ann", "a", "p1"⟩⟩
    (by decide) "b" rfl) (by decide)

/-- The deletion that was asked for: the post shown at the tap is removed from the database,
and the element removed from `myPost` is that post. -/
def Deletes (s s' : MyComments) (shown : Posts) : Prop :=
  (∃ post, s'.sent = s.sent ++ [⟨s.session, post⟩] ∧ post.postId = shown.postId ∧
      s'.hub.node = s.hub.node.erase shown.postId) ∧
    ∃ row post, s.vc.myPost[row]? = some post ∧ post.postId = shown.postId ∧
      s'.vc.myPost = s.vc.myPost.eraseIdx row

/-- The cell is on some row, and holds a post of that id. -/
def StillShows (s : MyComments) (cell : ℕ) (postId : String) : Prop :=
  (s.vc.cells cell).indexPath ≠ none ∧ ∃ post ∈ (s.vc.cells cell).post, post.postId = postId

theorem ne_eraseIdx {α : Type*} {l : List α} {row : ℕ} {a : α} (h : l[row]? = some a) :
    l ≠ l.eraseIdx row := by
  intro he
  have hrow : row < l.length := (List.getElem?_eq_some_iff.1 h).1
  have := congrArg List.length he
  rw [List.length_eraseIdx_of_lt hrow] at this
  omega

/-- The handler of OK never crashes, and it deletes the post that was shown at the tap exactly
when the cell of the tap is, as it runs, still on a row and still holds that post. -/
theorem deletes_shown {evs : List Event} (h : Path step anyStep {} evs s) {cell : ℕ}
    {shown : Posts} (hp : s.presented = some (.deleteAlert cell shown)) (l : Layout) :
    ∃ s', step s (.deletePost l) = some s' ∧
      (Deletes s s' shown ↔ s.StillShows cell shown.postId) := by
  have hb : s.vc.Bound := (run_sound h).bound
  have hstep : step s (.deletePost l) = { s with presented := none }.deletePost cell l := by
    simp only [step, hp]
  rw [hstep]
  unfold deletePost
  cases hpost : (s.vc.cells cell).post with
  | none =>
    refine ⟨{ s with presented := none }, rfl, ?_⟩
    simp [Deletes, StillShows, hpost]
  | some post =>
    simp only [MyCommentsController.deletePost_eq hb, Option.map_some]
    refine ⟨_, rfl, ?_⟩
    cases hi : (s.vc.cells cell).indexPath with
    | none =>
      refine iff_of_false ?_ (by simp [StillShows, hi])
      rintro ⟨-, row, x, hx, -, he⟩
      exact ne_eraseIdx hx he
    | some row =>
      have hget : s.vc.myPost[row]? = some post := by rw [← hb.post cell row hi, hpost]
      constructor
      · rintro ⟨⟨x, hsent, hid, -⟩, -⟩
        have hx : post = x := by simpa using hsent
        exact ⟨by simp [hi], post, by simp [hpost], hx ▸ hid⟩
      · rintro ⟨-, x, hx, hid⟩
        obtain rfl : post = x := by simpa [hpost] using hx
        exact ⟨⟨post, rfl, hid, by rw [← hid]; rfl⟩, row, post, hget, hid, by simp⟩

/-- A newer post arrives before the handler runs, and the reload leaves the cell on its post. -/
theorem deletes_shown_run :
    ∃ s s' : MyComments, ∃ cell shown,
      Path step anyStep {}
        [.signIn "a", .uploadPost "Swift" "text" "Jun 1, 2020 at 9:00 AM" "ann" "a" "p1",
          .viewDidLoad, .runMain [], .runMain [], .runMain [(0, 0)], .deleteIconTapped 0,
          .uploadPost "Lean" "text" "Jun 2, 2020 at 9:00 AM" "ann" "a" "p2", .runMain [],
          .runMain [(0, 1), (1, 0)]] s ∧
      s.presented = some (.deleteAlert cell shown) ∧ step s (.deletePost []) = some s' ∧
      s.vc.myPost.length = 2 ∧ Deletes s s' shown := by
  have hrun : Path step anyStep {}
      [.signIn "a", .uploadPost "Swift" "text" "Jun 1, 2020 at 9:00 AM" "ann" "a" "p1",
        .viewDidLoad, .runMain [], .runMain [], .runMain [(0, 0)], .deleteIconTapped 0,
        .uploadPost "Lean" "text" "Jun 2, 2020 at 9:00 AM" "ann" "a" "p2", .runMain [],
        .runMain [(0, 1), (1, 0)]] _ := .of_exec_get (by decide)
  have hp : _ = some (Presented.deleteAlert 0
      ⟨"Swift", "text", "Jun 1, 2020 at 9:00 AM", "ann", "a", "p1"⟩) := rfl
  obtain ⟨s', hs, hiff⟩ := deletes_shown hrun hp []
  exact ⟨_, s', 0, _, hrun, hp, hs, by decide, hiff.2 ⟨by decide, _, rfl, rfl⟩⟩

/-- The same tap, but the reload puts the cell on the newer post, which is deleted. -/
theorem deletes_rebound :
    ¬ ∀ (evs : List Event) (s s' : MyComments) (cell : ℕ) (shown : Posts) (l : Layout),
        Path step anyStep {} evs s → s.presented = some (.deleteAlert cell shown) →
        step s (.deletePost l) = some s' → Deletes s s' shown := by
  intro h
  obtain ⟨⟨post, hsent, hid, -⟩, -⟩ := h
    [.signIn "a", .uploadPost "Swift" "text" "Jun 1, 2020 at 9:00 AM" "ann" "a" "p1",
      .viewDidLoad, .runMain [], .runMain [], .runMain [(0, 0)], .deleteIconTapped 0,
      .uploadPost "Lean" "text" "Jun 2, 2020 at 9:00 AM" "ann" "a" "p2", .runMain [],
      .runMain [(0, 0), (1, 1)]] _ _ 0 _ [] (.of_exec_get (by decide)) rfl
    (Option.some_get (by decide)).symm
  have hpost : [(⟨some "a", ⟨"Lean", "text", "Jun 2, 2020 at 9:00 AM", "ann", "a", "p2"⟩⟩ :
      Write)] = [⟨some "a", post⟩] := hsent
  obtain rfl := (Write.mk.inj (List.singleton_inj.1 hpost)).2
  exact absurd hid (by decide)

end MyComments

end DevPost
