import DevPost.Lib.Mirror
import DevPost.Proofs.MyCommentsAccounts
import DevPost.Proofs.MyCommentsList
import DevPost.Sanity.Named

/-! My Comments of one account after a refresh. Whatever was edited and deleted before, a
list that was loaded or pulled down since is the account's posts as they are stored: the
dialog that asks the user to refresh after an edit is right. -/

namespace DevPost

open Lib FirebaseServices

namespace MyComments

variable {s s' s₀ : MyComments} {e : Event} {u v : Uid}

/-- The runs of one account that has a uid. -/
def Alone (s : MyComments) (e : Event) : Prop := OneAccount s e ∧ RealUser e

instance (s : MyComments) (e : Event) : Decidable (Alone s e) := instDecidableAnd

/-- The runs of one account in which nothing is edited or deleted. -/
def Growing (s : MyComments) (e : Event) : Prop := Alone s e ∧ Unedited e ∧ Undeleted e

instance (s : MyComments) (e : Event) : Decidable (Growing s e) := instDecidableAnd

/-- What the runs of one account keep. -/
structure Regular (u : Uid) (s : MyComments) : Prop where
  sound : Sound s
  single : Single u s
  named : Named s

theorem regular_init : Regular u {} := ⟨sound_init, single_init, named_init⟩

theorem regular_step (h : step s e = some s') (hok : Alone s e) (hs : Regular u s) :
    ∃ v, Regular v s' := by
  obtain ⟨v, hv⟩ := single_step h hok.1 hs.single
  exact ⟨v, sound_step h hs.sound, hv, named_step h hok.2 hs.sound hs.named⟩

/-- What the list will be mirrors the posts of the account. -/
def Current (u : Uid) (s : MyComments) : Prop := s.settled.Mirrors s.closures (s.storedBy u)

/-- Once a listener is registered, the account does not change any more. -/
theorem Current.user (hc : Current u s) (hs : Regular u s) (h : step s e = some s')
    (hs' : Regular v s') : v = u := by
  have hne : s.closures ≠ [] := by
    rcases hc.last with ⟨hls, -⟩ | ⟨pre, r, hls, -⟩ <;> simp [hls]
  obtain ⟨c, hcl⟩ := List.exists_mem_of_ne_nil _ hne
  obtain ⟨o, ho, -⟩ := List.mem_map.1 hcl
  rw [← hs.single.listener_user ho]
  refine (hs'.single.listener_user ?_).symm
  rw [(step_frame h).1.listeners]
  exact List.mem_append_left _ ho

theorem current_register {o : Observer} {q : List (Task Observer Record Posts AuthCallback)}
    (h : step s e = some s') (hdel : Undeleted e) (hs : Regular u s)
    (hq : s.hub.queue = .other ⟨o.closure, some o.user⟩ :: q)
    (hsends : s.sends e = (s.storedBy o.user).map (o.closure, ·))
    (hnode : s'.hub.node = s.hub.node) (hlisteners : s'.hub.listeners = s.hub.listeners ++ [o]) :
    Current u s' := by
  have hw := hs.sound.wired
  obtain ⟨hu, hnew, hfirst⟩ := hs.single.next hw hq
  have hclosures : s'.closures = s.closures ++ [o.closure] := by simp [closures, hlisteners]
  rw [Current, settled_step h hdel hs.sound, hsends, hu, storedBy_congr hnode, hclosures]
  cases hc : o.closure with
  | append =>
    have hnil := hfirst.1 hc
    have hv : s.settled.visible = [] := by
      rw [settled, pending_of_untold hw hnil]
      exact hw.shown hnil
    rw [hnil]
    exact Board.mirrors_first (sort_perm _) hv
  | rebuild r =>
    rw [hc] at hnew
    apply Board.mirrors_snapshot
    rw [settled, Board.own_settle_of_notMem]
    · exact hw.own r hnew
    · exact fun d hd he => hnew (he ▸ hw.coming d hd)

theorem current_step (h : step s e = some s') (hok : Growing s e) (hs : Regular u s)
    (hc : Current u s) : Current u s' := by
  obtain ⟨-, hedit, hdel⟩ := hok
  cases sends_of_fresh h hedit hs.named.fresh with
  | quiet hput hsends _ hlisteners =>
    rw [Current, settled_step h hdel hs.sound, hsends, Board.settle_nil, closures, hlisteners,
      storedBy_congr (node_quiet h hdel hput)]
    exact hc
  | upload post _ _ _ hsends _ hstored hlisteners =>
    have hby : (s'.storedBy u).Perm (s.storedBy u ++ if u = post.userId then [post] else []) := by
      apply (hstored.filter _).trans
      rw [List.filter_append]
      by_cases hu : u = post.userId <;> simp [storedBy, hu]
    rw [Current, settled_step h hdel hs.sound, hsends, hs.single.heard, closures, hlisteners]
    split_ifs at hby ⊢
    · exact (hc.raise (sort_perm _) (hs.single.closures_nodup hs.sound.wired).1 _).perm hby.symm
    · rw [List.append_nil] at hby
      exact hc.perm hby.symm
  | register o q hq hsends hnode _ _ hlisteners =>
    exact current_register h hdel hs hq hsends hnode hlisteners

/-- An auth listener has been added whose post listener is still to be registered, or the list
mirrors the account's posts already. -/
def Due (u : Uid) (s : MyComments) : Prop :=
  (∃ c ∈ s.authListeners, c ∉ s.closures) ∨ Current u s

theorem due_step (h : step s e = some s') (hok : Growing s e) (hs : Regular u s) (hs' : Regular v s')
    (hd : Due u s) : Due v s' := by
  rcases hd with ⟨c, hauth, hnew⟩ | hc
  · have hauth' : c ∈ s'.authListeners := by
      rw [(step_frame h).1.authListeners]
      exact List.mem_append_left _ hauth
    cases sends_of_fresh h hok.2.1 hs.named.fresh with
    | quiet _ _ _ hlisteners | upload _ _ _ _ _ _ _ hlisteners =>
      exact .inl ⟨c, hauth', by rwa [closures, hlisteners]⟩
    | register o q hq hsends hnode _ _ hlisteners =>
      have hu : o.user = u := (hs.single.next hs.sound.wired hq).1
      have hv : o.user = v := hs'.single.listener_user (by simp [hlisteners])
      have hc := current_register h hok.2.2 hs hq hsends hnode hlisteners
      exact .inr (hv ▸ hu.symm ▸ hc)
  · exact .inr (hc.user hs h hs' ▸ current_step h hok hs hc)

/-- The events that add an auth listener. -/
def Event.pulls (e : Event) : Prop := e = .viewDidLoad ∨ e = .refreshData

theorem due_pulls (h : step s e = some s') (hs : Sound s) (hp : e.pulls) : Due v s' := by
  obtain ⟨hf, hen⟩ := step_frame h
  have hw := hs.wired
  suffices hnew : ∃ c, s.asked e = [c] ∧ c ∉ s.authListeners ∧ s.joins e = [] by
    obtain ⟨c, hasked, hnew, hjoins⟩ := hnew
    refine .inl ⟨c, by simp [hf.authListeners, hasked], fun hc => hnew (hw.registered c ?_)⟩
    rwa [closures_step h, hjoins, List.map_nil, List.append_nil] at hc
  rcases hp with rfl | rfl
  · have hl : s.loaded = false := hen
    refine ⟨_, rfl, ?_, rfl⟩
    simp [hw.auth, hl]
  · exact ⟨_, rfl, fun hm => (hw.mem_authListeners.1 hm).false, rfl⟩

/-- Once everything has run, a pull that came after the last edit or deletion has made the
list mirror the account's posts. -/
theorem current_run {pre evs : List Event} (hpre : Path step Alone {} pre s₀)
    (hrun : Path step Growing s₀ evs s) (hp : ∃ e ∈ evs, e.pulls) (hquiet : s.hub.queue = [])
    (hu : s.session = some u) : Current u s := by
  obtain ⟨w, hs₀⟩ : ∃ w, Regular w s₀ := hpre.invariant (fun s => ∃ w, Regular w s)
    ⟨u, regular_init⟩ fun _ _ _ ⟨_, hs⟩ hok h => regular_step h hok hs
  obtain ⟨v, hs, hdue⟩ : ∃ v, Regular v s ∧ ((∃ e ∈ evs, e.pulls) → Due v s) := by
    clear hquiet hu hp
    induction hrun with
    | nil => exact ⟨w, hs₀, by simp⟩
    | snoc _ hok h ih =>
      obtain ⟨v, hs, hdue⟩ := ih
      obtain ⟨v', hs'⟩ := regular_step h hok.1 hs
      refine ⟨v', hs', fun ⟨e, he, hp⟩ => ?_⟩
      rcases List.mem_append.1 he with he | he
      · exact due_step h hok hs hs' (hdue ⟨e, he, hp⟩)
      · exact due_pulls h hs.sound (List.mem_singleton.1 he ▸ hp)
  obtain rfl : u = v := hs.single.session u hu
  refine (hdue hp).resolve_left fun ⟨c, hauth, hnew⟩ => hnew ?_
  -- while the account is signed in, every auth listener has its post listener
  have hlistening : s.listening = s.hub.listeners := by simp [listening, hquiet, observers]
  rw [closures, ← hlistening, hs.single.full (by simp [hu])]
  exact hauth

theorem Current.shows (hc : Current u s) (hquiet : s.hub.queue = []) (hne : s.storedBy u ≠ []) :
    s.vc.myPost.Perm (s.storedBy u) := by
  have hv := hc.shown hne
  rwa [show s.settled = s.board by simp [settled, pending, hquiet]] at hv

/-- With one account, which signs in once, a list that was loaded or pulled down since the last
edit or deletion is the account's posts as they are stored, if it has any. -/
theorem refreshed_own {pre evs : List Event} (hpre : Path step Alone {} pre s₀)
    (hrun : Path step Growing s₀ evs s) (hp : ∃ e ∈ evs, e.pulls) (hquiet : s.hub.queue = [])
    (hu : s.session = some u) (hne : s.storedBy u ≠ []) : s.vc.myPost.Perm (s.storedBy u) :=
  (current_run hpre hrun hp hquiet hu).shows hquiet hne

/-- One of two posts is deleted and the other edited, the list refreshed, and a third arrives. -/
theorem refreshed_own_run :
    ∃ s₀ s, Path step Alone {}
        [.signIn "a", .uploadPost "Swift" "text" "Jun 1, 2020 at 9:00 AM" "ann" "a" "p1",
          .uploadPost "Lean" "text" "Jun 2, 2020 at 9:00 AM" "ann" "a" "p2", .viewDidLoad,
          .runMain [], .runMain [], .runMain [], .runMain [(0, 0)], .runMain [(0, 0), (1, 1)],
          .deleteIconTapped 0, .deletePost [(0, 0)], .editIconTapped 0,
          .editUserPost "Swift 5" "text" "Jun 3, 2020 at 9:00 AM"] s₀ ∧
      Path step Growing s₀
        [.refreshData, .uploadPost "Rust" "text" "Jun 4, 2020 at 9:00 AM" "ann" "a" "p3",
          .runMain [], .runMain [], .runMain [], .runMain [], .runMain [], .runMain [],
          .runMain []] s ∧
      s.vc.myPost.map (·.title) = ["Swift 5", "Rust"] ∧ s.vc.myPost.Perm (s.storedBy "a") := by
  have hpre : Path step Alone {}
      [.signIn "a", .uploadPost "Swift" "text" "Jun 1, 2020 at 9:00 AM" "ann" "a" "p1",
        .uploadPost "Lean" "text" "Jun 2, 2020 at 9:00 AM" "ann" "a" "p2", .viewDidLoad,
        .runMain [], .runMain [], .runMain [], .runMain [(0, 0)], .runMain [(0, 0), (1, 1)],
        .deleteIconTapped 0, .deletePost [(0, 0)], .editIconTapped 0,
        .editUserPost "Swift 5" "text" "Jun 3, 2020 at 9:00 AM"] _ := .of_exec_get (by decide)
  exact ⟨_, _, hpre, .of_exec_get (by decide), by decide,
    refreshed_own hpre (.of_exec_get (by decide)) ⟨.refreshData, by simp, .inr rfl⟩ (by decide)
      (by decide) (by decide)⟩

end MyComments

end DevPost
