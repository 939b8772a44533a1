import DevPost.Sanity.Sends

/-! The list of My Comments over changes of the account. Nothing is cleared when the
account changes, and every sign-in registers all listeners again. So the list is the
account's posts only where the accounts before it left nothing behind: no posts, and so
listeners that stay silent. Then the last listener of the account, told of each post once,
decides what is shown. -/

namespace DevPost

open Lib FirebaseServices

namespace MyComments

variable {s s' : MyComments} {e : Event} {u v : Uid}

/-- The closures whose listeners for `u` are registered. -/
def joined (u : Uid) (s : MyComments) : List Closure :=
  (s.hub.listeners.filter (·.user = u)).map (·.closure)

/-- The closures whose listeners for `u` are registered or will be by callbacks on the queue. -/
def live (u : Uid) (s : MyComments) : List Closure :=
  (s.listening.filter (·.user = u)).map (·.closure)

/-- An account signs in after accounts without posts; and while it is signed in, posts come
from accounts that nobody listens for, or from itself while the newest auth listener has one
post listener for it. -/
def LeavesNothing (s : MyComments) : Event → Prop
  | .signIn uid => s.session = some uid ∨ ∀ o ∈ s.listening, s.storedBy o.user = []
  | .uploadPost _ _ _ _ userId _ => ∀ v ∈ s.session, (∀ o ∈ s.listening, o.user ≠ userId) ∨
      userId = v ∧ ∀ c ∈ s.authListeners.getLast?, (s.live v).count c = 1
  | _ => True

instance (s : MyComments) : (e : Event) → Decidable (LeavesNothing s e)
  | .signIn _ => instDecidableOr
  | .uploadPost _ _ _ _ userId _ =>
    inferInstanceAs (Decidable (∀ v ∈ s.session, (∀ o ∈ s.listening, o.user ≠ userId) ∨
      userId = v ∧ ∀ c ∈ s.authListeners.getLast?, (s.live v).count c = 1))
  | .viewDidLoad | .signOut | .remoteEdit .. | .remoteDelete _ | .refreshData
  | .deleteIconTapped _ | .editIconTapped _ | .deletePost _ | .editUserPost .. | .cancel
  | .layout _ | .runMain _ => instDecidableTrue

theorem joined_isPrefix (u : Uid) (s : MyComments) : s.joined u <+: s.live u := by
  rw [live, listening, List.filter_append, List.map_append]
  exact List.prefix_append _ _

theorem mem_closures_of {os : List Observer} {c : Closure} :
    c ∈ (os.filter (·.user = u)).map (·.closure) ↔ ⟨c, u⟩ ∈ os := by
  simp only [List.mem_map, List.mem_filter, decide_eq_true_eq]
  constructor
  · rintro ⟨o, ⟨ho, rfl⟩, rfl⟩
    exact ho
  · exact fun h => ⟨_, ⟨h, rfl⟩, rfl⟩

theorem mem_joined {c : Closure} : c ∈ s.joined u ↔ ⟨c, u⟩ ∈ s.hub.listeners := mem_closures_of

theorem mem_live {c : Closure} : c ∈ s.live u ↔ ⟨c, u⟩ ∈ s.listening := mem_closures_of

theorem storedBy_congr (h : s'.hub.node = s.hub.node) (u : Uid) :
    s'.storedBy u = s.storedBy u := by
  rw [storedBy, stored, h]
  rfl

/-- What the lists will be once every pending delivery is made. -/
def settled (s : MyComments) : Board Posts := s.board.settle byDate s.pending

theorem settled_step (h : step s e = some s') (hdel : Undeleted e) (hs : Sound s) :
    s'.settled = s.settled.settle byDate (s.sends e) := by
  cases step_moves h hs.kept hs.bound with
  | send hboard hpending _ => rw [settled, settled, hboard, hpending, Board.settle_append]
  | deliver d _ hpending hboard hnil _ =>
    rw [settled, settled, hboard, hpending, hnil]
    rfl
  | remove l hevent _ _ _ _ _ _ _ _ =>
    subst hevent
    exact hdel.elim

theorem node_quiet (h : step s e = some s') (hdel : Undeleted e) (hput : s.put e = none) :
    s'.hub.node = s.hub.node := by
  have herased : s.erased e = none := by
    cases e <;> first | rfl | exact hdel.elim
  rw [(step_frame h).1.node, written, hput, herased]

/-- Every post that will be shown or captured is stored, and came through a listener of its
author. -/
structure Told (s : MyComments) : Prop where
  visible : ∀ p ∈ s.settled.visible, p ∈ s.stored ∧ ∃ c, ⟨c, p.userId⟩ ∈ s.hub.listeners
  own : ∀ r, ∀ p ∈ s.settled.own r, p ∈ s.stored ∧
    ⟨.refreshData r, p.userId⟩ ∈ s.hub.listeners

theorem stored_step (h : step s e = some s') (hdel : Undeleted e) (hsends : Sends s e s') :
    ∀ p ∈ s.stored, p ∈ s'.stored := by
  intro p hp
  cases hsends with
  | quiet hput _ _ _ => rwa [stored, node_quiet h hdel hput]
  | upload _ _ _ _ _ _ hstored _ => exact hstored.mem_iff.2 (List.mem_append_left _ hp)
  | register _ _ _ _ hnode _ _ _ => rwa [stored, hnode]

theorem sends_stored (hsends : Sends s e s') : ∀ d ∈ s.sends e, d.2 ∈ s'.stored := by
  intro d hd
  cases hsends with
  | quiet _ hnil _ _ => simp [hnil] at hd
  | upload post _ _ _ hsends _ hstored _ =>
    rw [hsends] at hd
    obtain ⟨c, -, rfl⟩ := List.mem_map.1 hd
    exact hstored.mem_iff.2 (by simp)
  | register o _ _ hsends hnode _ _ _ =>
    rw [hsends] at hd
    obtain ⟨p, hp, rfl⟩ := List.mem_map.1 hd
    rw [stored, hnode]
    exact (List.mem_filter.1 hp).1

theorem told_step (h : step s e = some s') (hdel : Undeleted e) (hs : Sound s)
    (hsends : Sends s e s') (ht : Told s) : Told s' := by
  have hstored := stored_step h hdel hsends
  have hlisteners : ∀ o ∈ s.hub.listeners, o ∈ s'.hub.listeners := fun o ho => by
    rw [(step_frame h).1.listeners]
    exact List.mem_append_left _ ho
  have hnew : ∀ d ∈ s.sends e, d.2 ∈ s'.stored ∧ ⟨d.1, d.2.userId⟩ ∈ s'.hub.listeners := by
    intro d hd
    obtain ⟨o, ho, hc, hu⟩ := sends_observer h hd
    exact ⟨sends_stored hsends d hd, hc ▸ hu ▸ ho⟩
  constructor
  case visible =>
    intro p hp
    rw [settled_step h hdel hs] at hp
    rcases Board.mem_visible_settle (sort_perm _) _ _ hp with hp | ⟨r, hp⟩ | ⟨d, hd, rfl⟩
    · exact (ht.visible p hp).imp (hstored p) fun ⟨c, hc⟩ => ⟨c, hlisteners _ hc⟩
    · exact (ht.own r p hp).imp (hstored p) fun hc => ⟨_, hlisteners _ hc⟩
    · exact (hnew d hd).imp_right fun hc => ⟨_, hc⟩
  case own =>
    intro r p hp
    rw [settled_step h hdel hs, Board.own_settle] at hp
    rcases List.mem_append.1 hp with hp | hp
    · exact (ht.own r p hp).imp (hstored p) (hlisteners _)
    · exact hnew _ (Board.mem_forRebuild.1 hp)

/-- With `v` signed in: the other accounts that the screen listens for have no posts, and the
newest auth listener has one post listener for `v`, which shows the posts of `v` once it is
registered. -/
structure Shows (v : Uid) (s : MyComments) : Prop where
  silent : ∀ o ∈ s.listening, o.user ≠ v → s.storedBy o.user = []
  newest : s.authListeners <:+ s.live v
  once : s.storedBy v ≠ [] → ∀ c ∈ s.authListeners.getLast?, (s.live v).count c = 1
  shown : s.storedBy v ≠ [] → ∀ c ∈ s.authListeners.getLast?, c ∈ s.joined v →
    s.settled.visible.Perm (s.storedBy v) ∧
      ∀ r, c = .refreshData r → (s.settled.own r).Perm (s.storedBy v)

theorem live_subset (hw : Wired s) : ∀ c ∈ s.live v, c ∈ s.authListeners := by
  intro c hc
  rcases List.mem_append.1 (mem_live.1 hc) with ho | ho
  · exact hw.registered c (List.mem_map.2 ⟨_, ho, rfl⟩)
  · obtain ⟨t, ht, he⟩ := List.mem_filterMap.1 ho
    obtain ⟨u, -, he⟩ := Option.map_eq_some_iff.1 he
    obtain rfl : t.closure = c := congrArg Observer.closure he
    exact hw.callbacks t ht

/-- The launch listener is the newest auth listener only as long as it is the only one. -/
theorem launch_only (hw : Wired s)
    (h : .fetchPostForCurrentUser ∈ s.authListeners.getLast?) :
    s.authListeners = [.fetchPostForCurrentUser] := by
  have hauth := hw.auth
  cases hr : s.refreshes with
  | zero =>
    rw [hr, List.range_zero, List.map_nil, List.append_nil] at hauth
    cases hl : s.loaded <;> simp_all
  | succ n =>
    rw [hr, List.range_succ, List.map_append, ← List.append_assoc] at hauth
    simp [hauth] at h

section Listener

variable (hs : Shows v s)
include hs

theorem Shows.live_last {c : Closure} (hc : c ∈ s.authListeners.getLast?) :
    ∃ cs, s.live v = cs ++ [c] := by
  obtain ⟨cs, hcs⟩ := List.getLast?_eq_some_iff.1 hc
  obtain ⟨pre, hpre⟩ := hs.newest
  exact ⟨pre ++ cs, by rw [← hpre, hcs, List.append_assoc]⟩

theorem Shows.joined_eq {c : Closure} (hc : c ∈ s.authListeners.getLast?)
    (hcount : (s.live v).count c = 1) (hmem : c ∈ s.joined v) : s.joined v = s.live v := by
  obtain ⟨cs, hcs⟩ := hs.live_last hc
  obtain ⟨rest, hrest⟩ := joined_isPrefix v s
  rcases List.eq_nil_or_concat' rest with rfl | ⟨rest, c', rfl⟩
  · rw [← hrest, List.append_nil]
  · -- the last one would be registered twice
    rw [hcs, ← List.append_assoc] at hrest
    obtain ⟨-, hlast⟩ := List.append_inj' hrest rfl
    obtain rfl := List.singleton_inj.1 hlast
    rw [hcs, ← hrest, List.count_append, List.count_append] at hcount
    have := List.count_pos_iff.2 hmem
    simp at hcount
    omega

theorem Shows.author {c : Closure} {p : Posts} (hp : p ∈ s.stored)
    (hc : ⟨c, p.userId⟩ ∈ s.hub.listeners) : p.userId = v := by
  by_contra hne
  have hnil := hs.silent ⟨c, p.userId⟩ (List.mem_append_left _ hc) hne
  have hmem : p ∈ s.storedBy p.userId := List.mem_filter.2 ⟨hp, by simp⟩
  simp [hnil] at hmem

variable (ht : Told s)
include ht

theorem Shows.own_eq_nil {r : ℕ} (hr : .refreshData r ∉ s.joined v) : s.settled.own r = [] := by
  refine List.eq_nil_iff_forall_not_mem.2 fun p hp => hr ?_
  obtain ⟨hstored, hc⟩ := ht.own r p hp
  exact mem_joined.2 (hs.author hstored hc ▸ hc)

theorem Shows.visible_eq_nil (hnil : s.joined v = []) : s.settled.visible = [] := by
  refine List.eq_nil_iff_forall_not_mem.2 fun p hp => ?_
  obtain ⟨hstored, c, hc⟩ := ht.visible p hp
  have hmem : c ∈ s.joined v := mem_joined.2 (hs.author hstored hc ▸ hc)
  simp [hnil] at hmem

theorem Shows.empty (hnil : s.storedBy v = []) :
    s.settled.visible = [] ∧ ∀ r, s.settled.own r = [] := by
  have hnone : ∀ p ∈ s.stored, p.userId ≠ v := fun p hp hv => by
    have hmem : p ∈ s.storedBy v := List.mem_filter.2 ⟨hp, by simp [hv]⟩
    simp [hnil] at hmem
  refine ⟨List.eq_nil_iff_forall_not_mem.2 fun p hp => ?_, fun r =>
    List.eq_nil_iff_forall_not_mem.2 fun p hp => ?_⟩
  · obtain ⟨hstored, c, hc⟩ := ht.visible p hp
    exact hnone p hstored (hs.author hstored hc)
  · obtain ⟨hstored, hc⟩ := ht.own r p hp
    exact hnone p hstored (hs.author hstored hc)

variable (hw : Wired s) {c : Closure} (hlast : c ∈ s.authListeners.getLast?)
  (hcount : (s.live v).count c = 1)
include hw hlast hcount

/-- A new post of the account reaches the newest listener last. -/
theorem shows_upload (post : Posts) (hmem : c ∈ s.joined v) :
    let b := s.settled.settle byDate ((s.joined v).map (·, post))
    b.visible.Perm (s.storedBy v ++ [post]) ∧
      ∀ r, c = .refreshData r → (b.own r).Perm (s.storedBy v ++ [post]) := by
  have hold : s.settled.visible.Perm (s.storedBy v) ∧
      ∀ r, c = .refreshData r → (s.settled.own r).Perm (s.storedBy v) := by
    by_cases hnil : s.storedBy v = []
    · obtain ⟨hvisible, hown⟩ := hs.empty ht hnil
      rw [hnil, hvisible]
      exact ⟨.refl _, fun r _ => hown r ▸ .refl _⟩
    · exact hs.shown hnil c hlast hmem
  have hlive := hs.joined_eq hlast hcount hmem
  cases c with
  | append =>
    have hone : s.joined v = [.append] := by
      have hall : ∀ c ∈ s.live v, c = .append := fun c hc => by
        simpa [launch_only hw hlast] using live_subset hw c hc
      rw [List.eq_replicate_of_mem hall, List.count_replicate_self] at hcount
      rw [hlive, List.eq_replicate_of_mem hall, hcount]
      rfl
    rw [hone]
    refine ⟨?_, by simp⟩
    exact (Board.visible_settle_appends (sort_perm _) _ [post]).trans (hold.1.append_right _)
  | rebuild r =>
    obtain ⟨cs, hcs⟩ := hs.live_last hlast
    have hown : ((s.settled.settle byDate ((s.joined v).map (·, post))).own r).Perm
        (s.storedBy v ++ [post]) := by
      rw [Board.own_settle, Board.forRebuild_raise, hlive, hcount]
      exact (hold.2 r rfl).append_right _
    refine ⟨?_, fun r' hr' => by cases hr'; exact hown⟩
    rw [hlive, hcs, List.map_append] at hown ⊢
    exact Board.visible_settle_snoc byDate _ _ r post ▸ hown

/-- The newest listener is told the account's posts when it is registered. -/
theorem shows_register (hne : s.storedBy v ≠ []) (hnew : c ∉ s.joined v) :
    let b := s.settled.settle byDate ((s.storedBy v).map (c, ·))
    b.visible.Perm (s.storedBy v) ∧
      ∀ r, c = .refreshData r → (b.own r).Perm (s.storedBy v) := by
  cases c with
  | append =>
    have hnil : s.joined v = [] := List.eq_nil_iff_forall_not_mem.2 fun c hc => by
      have hmem := live_subset hw c ((joined_isPrefix v s).subset hc)
      rw [launch_only hw hlast] at hmem
      obtain rfl : c = .append := List.mem_singleton.1 hmem
      exact hnew hc
    refine ⟨?_, by simp⟩
    have hp : (s.settled.settle byDate ((s.storedBy v).map (.append, ·))).visible.Perm
        (s.settled.visible ++ s.storedBy v) := Board.visible_settle_appends (sort_perm _) _ _
    rwa [hs.visible_eq_nil ht hnil, List.nil_append] at hp
  | rebuild r =>
    have hown := hs.own_eq_nil ht hnew
    refine ⟨?_, fun r' hr' => ?_⟩
    · rw [Board.visible_settle_snapshot byDate _ _ hown, if_neg hne]
    · cases hr'
      rw [Board.own_settle, Board.forRebuild_snapshot, if_pos rfl, hown]
      exact .refl _

end Listener

theorem shows_same (hs : Shows v s) (hlive : s'.live v = s.live v)
    (hauth : s'.authListeners = s.authListeners)
    (hsilent : ∀ o ∈ s'.listening, o.user ≠ v → s'.storedBy o.user = [])
    (hstored : (s'.storedBy v).Perm (s.storedBy v)) (hsettled : s'.settled = s.settled)
    (hjoined : s'.joined v = s.joined v) : Shows v s' := by
  have hne : s'.storedBy v ≠ [] → s.storedBy v ≠ [] := fun hne hnil =>
    hne (List.perm_nil.1 (hnil ▸ hstored))
  refine ⟨hsilent, by rw [hauth, hlive]; exact hs.newest, fun hn c hc => ?_, fun hn c hc hm => ?_⟩
  · rw [hlive]
    exact hs.once (hne hn) c (hauth ▸ hc)
  · rw [hsettled]
    obtain ⟨hvisible, hown⟩ := hs.shown (hne hn) c (hauth ▸ hc) (hjoined ▸ hm)
    exact ⟨hvisible.trans hstored.symm, fun r hr => (hown r hr).trans hstored.symm⟩

theorem live_step (h : step s e = some s') (u : Uid) :
    s'.live u = s.live u ++ ((observers (s.called e)).filter (·.user = u)).map (·.closure) := by
  rw [live, listening_step h, List.filter_append, List.map_append]
  rfl

theorem shows_signIn (h : step s (.signIn v) = some s') (hw : Wired s)
    (hother : s.session ≠ some v) (hnone : ∀ o ∈ s.listening, s.storedBy o.user = []) :
    Shows v s' := by
  have hf := (step_frame h).1
  have hcalled : observers (s.called (.signIn v)) = s.authListeners.map (⟨·, v⟩) := by
    rw [called, if_neg hother, observers_signIn]
  have hauth : s'.authListeners = s.authListeners := by
    rw [hf.authListeners]
    exact List.append_nil _
  have hby := storedBy_congr hf.node
  have hlive : s'.live v = s.live v ++ s.authListeners := by
    rw [live_step h, hcalled, List.filter_eq_self.2 (by simp), List.map_map]
    exact congrArg _ (List.map_id _)
  -- posts of its own mean that the screen was never told of the account
  have hfirst : s.storedBy v ≠ [] → s.live v = [] := fun hne =>
    List.eq_nil_iff_forall_not_mem.2 fun c hc => hne (hnone _ (mem_live.1 hc))
  refine ⟨fun o ho hv => ?_, ?_, fun hne c hc => ?_, fun hne c hc hm => ?_⟩
  · rw [hby]
    rw [listening_step h, hcalled] at ho
    rcases List.mem_append.1 ho with ho | ho
    · exact hnone o ho
    · obtain ⟨c, -, rfl⟩ := List.mem_map.1 ho
      exact absurd rfl hv
  · rw [hauth, hlive]
    exact List.suffix_append _ _
  · rw [hlive, hfirst (hby v ▸ hne), List.nil_append]
    exact List.count_eq_one_of_mem hw.auth_nodup.1 (List.mem_of_getLast? (hauth ▸ hc))
  · have hjoined : s'.joined v = s.joined v := by
      rw [joined, hf.listeners]
      exact congrArg _ (congrArg _ (List.append_nil _))
    have hmem := (joined_isPrefix v s).subset (hjoined ▸ hm)
    simp [hfirst (hby v ▸ hne)] at hmem

theorem shows_asked {c : Closure} (hs : Shows v s) (h : step s e = some s')
    (hasked : s.asked e = [c]) (hcalled : observers (s.called e) = [⟨c, v⟩])
    (hnew : c ∉ s.live v) (hnode : s'.hub.node = s.hub.node) (hjoins : s.joins e = []) :
    Shows v s' := by
  have hf := (step_frame h).1
  have hauth : s'.authListeners = s.authListeners ++ [c] := by rw [hf.authListeners, hasked]
  have hlive : s'.live v = s.live v ++ [c] := by simp [live_step h, hcalled]
  have hby := storedBy_congr hnode
  refine ⟨fun o ho hv => ?_, ?_, fun _ c' hc' => ?_, fun _ c' hc' hm => ?_⟩
  · rw [hby]
    rw [listening_step h, hcalled] at ho
    rcases List.mem_append.1 ho with ho | ho
    · exact hs.silent o ho hv
    · exact absurd (congrArg Observer.user (List.mem_singleton.1 ho)) hv
  · rw [hauth, hlive]
    obtain ⟨pre, hpre⟩ := hs.newest
    exact ⟨pre, by rw [← hpre, List.append_assoc]⟩
  · obtain rfl : c = c' := by simpa [hauth] using hc'
    simp [hlive, List.count_eq_zero_of_not_mem hnew]
  · obtain rfl : c = c' := by simpa [hauth] using hc'
    rw [joined, hf.listeners, hjoins, List.append_nil] at hm
    exact absurd ((joined_isPrefix v s).subset hm) hnew

section Kept

variable (hs : Shows v s) (hlistening : s'.listening = s.listening)
  (hauth : s'.authListeners = s.authListeners)

theorem live_congr (h : s'.listening = s.listening) (u : Uid) : s'.live u = s.live u := by
  rw [live, h, live]

theorem storedBy_upload {post : Posts} (hstored : s'.stored.Perm (s.stored ++ [post])) (u : Uid) :
    (s'.storedBy u).Perm (s.storedBy u ++ if u = post.userId then [post] else []) := by
  apply (hstored.filter _).trans
  rw [List.filter_append]
  by_cases hu : u = post.userId <;> simp [storedBy, hu]

theorem storedBy_upload_of_ne {post : Posts} (hstored : s'.stored.Perm (s.stored ++ [post]))
    (hu : u ≠ post.userId) : (s'.storedBy u).Perm (s.storedBy u) := by
  simpa [hu] using storedBy_upload hstored u

include hs hlistening hauth

/-- A post of an author that the screen does not listen for. -/
theorem shows_upload_unheard {post : Posts} (hstored : s'.stored.Perm (s.stored ++ [post]))
    (hnone : ∀ o ∈ s.listening, o.user ≠ post.userId) (hsettled : s'.settled = s.settled)
    (hjoined : s'.joined v = s.joined v) : Shows v s' := by
  have hlive := live_congr hlistening v
  have hsilent : ∀ o ∈ s'.listening, o.user ≠ v → s'.storedBy o.user = [] := by
    intro o ho hne
    rw [hlistening] at ho
    have hsame := storedBy_upload_of_ne hstored (hnone o ho)
    exact List.perm_nil.1 (hs.silent o ho hne ▸ hsame)
  by_cases hvp : v = post.userId
  · -- then nobody listens for `v` either, as no screen has loaded
    have hnil : s.live v = [] := List.eq_nil_iff_forall_not_mem.2 fun c hc =>
      hnone _ (mem_live.1 hc) hvp
    have hauthnil : s.authListeners = [] := List.suffix_nil.1 (hnil ▸ hs.newest)
    exact ⟨hsilent, by simp [hauth, hauthnil], by simp [hauth, hauthnil],
      by simp [hauth, hauthnil]⟩
  · exact shows_same hs hlive hauth hsilent (storedBy_upload_of_ne hstored hvp) hsettled hjoined

/-- A post of the account, which the newest listener is told once. -/
theorem shows_upload_own {post : Posts} (hv : post.userId = v)
    (hstored : s'.stored.Perm (s.stored ++ [post])) (ht : Told s) (hw : Wired s)
    (honce : ∀ c ∈ s.authListeners.getLast?, (s.live v).count c = 1)
    (hsettled : s'.settled = s.settled.settle byDate ((s.joined v).map (·, post)))
    (hjoined : s'.joined v = s.joined v) : Shows v s' := by
  have hlive := live_congr hlistening v
  have hown : (s'.storedBy v).Perm (s.storedBy v ++ [post]) := by
    simpa [hv] using storedBy_upload hstored v
  refine ⟨fun o ho hne => ?_, by rw [hauth, hlive]; exact hs.newest, fun _ c hlast => ?_,
    fun _ c hlast hm => ?_⟩
  · have hsame := storedBy_upload_of_ne hstored (hv ▸ hne)
    exact List.perm_nil.1 (hs.silent o (hlistening ▸ ho) hne ▸ hsame)
  · rw [hlive]
    exact honce c (hauth ▸ hlast)
  · rw [hauth] at hlast
    obtain ⟨hvisible, hall⟩ :=
      shows_upload hs ht hw hlast (honce c hlast) post (hjoined ▸ hm)
    rw [hsettled]
    exact ⟨hvisible.trans hown.symm, fun r hr => (hall r hr).trans hown.symm⟩

/-- A callback registers a listener for the account. -/
theorem shows_registered {c : Closure} (hnode : s'.hub.node = s.hub.node) (ht : Told s)
    (hw : Wired s) (hsettled : s'.settled = s.settled.settle byDate ((s.storedBy v).map (c, ·)))
    (hjoined : s'.joined v = s.joined v ++ [c]) : Shows v s' := by
  have hlive := live_congr hlistening v
  have hby := storedBy_congr hnode
  refine ⟨fun o ho hne => ?_, by rw [hauth, hlive]; exact hs.newest, ?_, fun hne c' hlast hm => ?_⟩
  · rw [hby]
    exact hs.silent o (hlistening ▸ ho) hne
  · rw [hauth, hlive, hby]
    exact hs.once
  · rw [hauth] at hlast
    rw [hby] at hne ⊢
    have hcount := hs.once hne c' hlast
    have hnew : c' ∉ s.joined v := fun hmem => by
      have hpre := (joined_isPrefix v s').length_le
      rw [hjoined, hlive, hs.joined_eq hlast hcount hmem] at hpre
      simp at hpre
    rw [hjoined] at hm
    obtain rfl : c' = c := by simpa using (List.mem_append.1 hm).resolve_left hnew
    rw [hsettled]
    exact shows_register hs ht hw hlast hcount hne hnew

end Kept

theorem shows_kept (h : step s e = some s') (hok : LeavesNothing s e) (hedit : Unedited e)
    (hdel : Undeleted e) (hsound : Sound s) (hc : Carries s.ids s.hub.node) (ht : Told s)
    (hs : Shows v s) (hv : s.session = some v) (hcalled : observers (s.called e) = [])
    (hasked : s.asked e = []) : Shows v s' := by
  have hlistening : s'.listening = s.listening := by simp [listening_step h, hcalled]
  have hauth : s'.authListeners = s.authListeners := by
    simp [(step_frame h).1.authListeners, hasked]
  have hlive := live_congr hlistening v
  have hsettled := settled_step h hdel hsound
  have hsilent : s'.hub.node = s.hub.node →
      ∀ o ∈ s'.listening, o.user ≠ v → s'.storedBy o.user = [] := fun hnode o ho hne => by
    rw [storedBy_congr hnode]
    exact hs.silent o (hlistening ▸ ho) hne
  cases step_sends h hedit hc with
  | quiet hput hsends _ hlisteners =>
    have hnode := node_quiet h hdel hput
    apply shows_same hs hlive hauth (hsilent hnode) (.of_eq (storedBy_congr hnode v))
    · rw [hsettled, hsends, Board.settle_nil]
    · rw [joined, hlisteners, joined]
  | upload post he _ _ hsends _ hstored hlisteners =>
    have hjoined : s'.joined v = s.joined v := by rw [joined, hlisteners, joined]
    subst he
    rcases hok v hv with hnone | ⟨hpost, honce⟩
    · refine shows_upload_unheard hs hlistening hauth hstored hnone ?_ hjoined
      have hnobody : s.hub.listeners.filter (·.user = post.userId) = [] :=
        List.filter_eq_nil_iff.2 fun o ho => by simpa using hnone o (List.mem_append_left _ ho)
      rw [hsettled, hsends, hnobody]
      rfl
    · refine shows_upload_own hs hlistening hauth hpost hstored ht hsound.wired honce ?_ hjoined
      rw [hsettled, hsends, hpost]
      rfl
  | register o q hq hsends hnode _ _ hlisteners =>
    by_cases hov : o.user = v
    · apply shows_registered hs hlistening hauth (c := o.closure) hnode ht hsound.wired
      · rw [hsettled, hsends, hov]
      · simp [joined, hlisteners, hov]
    · have hin : o ∈ s.listening := by
        apply List.mem_append_right _
        simp [hq, observers]
      apply shows_same hs hlive hauth (hsilent hnode) (.of_eq (storedBy_congr hnode v))
      · rw [hsettled, hsends, hs.silent o hin hov]
        rfl
      · simp [joined, hlisteners, hov]

theorem shows_step (h : step s e = some s') (hok : LeavesNothing s e) (hedit : Unedited e)
    (hdel : Undeleted e) (hsound : Sound s) (hc : Carries s.ids s.hub.node) (ht : Told s)
    (hs : ∀ v ∈ s.session, Shows v s) : ∀ v ∈ s'.session, Shows v s' := by
  obtain ⟨hf, hen⟩ := step_frame h
  intro v hv
  rw [Option.mem_def, hf.session] at hv
  have hauth := hsound.wired.auth
  cases e with
  | viewDidLoad =>
    have hl : s.loaded = false := hen
    have hnew : Closure.fetchPostForCurrentUser ∉ s.live v := fun hm => by
      have := live_subset hsound.wired _ hm
      simp [hauth, hl] at this
    exact shows_asked (hs v hv) h rfl (by simp [called, observers, show s.session = some v from hv])
      hnew hf.node (by rfl)
  | refreshData =>
    have hnew : Closure.refreshData s.refreshes ∉ s.live v := fun hm =>
      absurd (hsound.wired.mem_authListeners.1 (live_subset hsound.wired _ hm)) (lt_irrefl _)
    exact shows_asked (hs v hv) h rfl (by simp [called, observers, show s.session = some v from hv])
      hnew hf.node (by rfl)
  | signIn u =>
    obtain rfl : u = v := Option.some.inj hv
    by_cases hsame : s.session = some u
    · exact shows_kept h hok hedit hdel hsound hc ht (hs u hsame) hsame
        (by simp [called, hsame, observers]) rfl
    · exact shows_signIn h hsound.wired hsame (hok.resolve_left hsame)
  | signOut => cases hv
  | uploadPost | remoteEdit | remoteDelete | deleteIconTapped | editIconTapped | deletePost
  | editUserPost | cancel | layout | runMain =>
    exact shows_kept h hok hedit hdel hsound hc ht (hs v hv) hv rfl rfl

/-- The invariant of the runs without edits and deletions in which every account finds
nothing left behind. -/
structure Lists (s : MyComments) : Prop where
  sound : Sound s
  carries : Carries s.ids s.hub.node
  told : Told s
  shows : ∀ v ∈ s.session, Shows v s

theorem lists_init : Lists {} where
  sound := sound_init
  carries := by simp [Carries, Hub.idle]
  told := ⟨by simp [settled, board, pending, Hub.idle], by simp [settled, board, pending, Hub.idle]⟩
  shows := by simp

/-- The runs of the screen without deletions and edits in which every account finds nothing
left behind. -/
def Steady (s : MyComments) (e : Event) : Prop := LeavesNothing s e ∧ Unedited e ∧ Undeleted e

instance (s : MyComments) (e : Event) : Decidable (Steady s e) := instDecidableAnd

theorem lists_step (h : step s e = some s') (hok : Steady s e) (hs : Lists s) : Lists s' := by
  obtain ⟨hleaves, hedit, hdel⟩ := hok
  exact ⟨sound_step h hs.sound, carries_step h hedit hs.carries,
    told_step h hdel hs.sound (step_sends h hedit hs.carries) hs.told,
    shows_step h hleaves hedit hdel hs.sound hs.carries hs.told hs.shows⟩

/-- With nothing pending, the list is the posts of the account that is signed in. -/
theorem lists_own {evs : List Event} (h : Path step Steady {} evs s) (hl : s.loaded = true)
    (hquiet : s.hub.queue = []) {uid : Uid} (huid : s.session = some uid) :
    s.vc.myPost.Perm (s.storedBy uid) := by
  have hlists : Lists s := h.invariant Lists lists_init fun _ _ _ hs hok h => lists_step h hok hs
  have hs := hlists.shows uid huid
  have hsettled : s.settled = s.board := by simp [settled, pending, hquiet]
  have hvisible : s.vc.myPost = s.settled.visible := by rw [hsettled]; rfl
  rw [hvisible]
  by_cases hnil : s.storedBy uid = []
  · rw [hnil, (hs.empty hlists.told hnil).1]
  have hne : s.authListeners ≠ [] := by simp [hlists.sound.wired.auth, hl]
  obtain ⟨c, hc⟩ := Option.ne_none_iff_exists'.1 (mt List.getLast?_eq_none_iff.1 hne)
  have hjoined : s.joined uid = s.live uid := by
    simp [joined, live, listening, hquiet, observers]
  have hmem : c ∈ s.joined uid := by
    rw [hjoined]
    exact hs.newest.subset (List.mem_of_getLast? hc)
  exact (hs.shown hnil c hc hmem).1

/-- After an account without posts, one with a post, and another post after a refresh. -/
theorem lists_own_run :
    ∃ s, Path step Steady {}
        [.uploadPost "Swift" "text" "Jun 1, 2020 at 9:00 AM" "ann" "a" "p1", .viewDidLoad,
          .signIn "b", .runMain [], .runMain [], .runMain [], .runMain [], .signOut, .runMain [],
          .signIn "a", .runMain [], .refreshData, .runMain [], .runMain [], .runMain [],
          .runMain [], .runMain [], .signIn "a",
          .uploadPost "Rust" "text" "Jun 3, 2020 at 9:00 AM" "ann" "a" "p2", .runMain [],
          .runMain [], .runMain [], .runMain [], .runMain [], .runMain []] s ∧
      s.hub.queue = [] ∧ s.session = some "a" ∧ s.vc.myPost.length = 2 ∧
      s.vc.myPost.Perm (s.storedBy "a") :=
  ⟨_, .of_exec_get (by decide), by decide, by decide, by decide,
    lists_own (.of_exec_get (by decide)) (by decide) (by decide) (by decide)⟩

/-- Signing out and in again shows the account's post twice. -/
theorem lists_twice :
    ¬ ∀ (evs : List Event) (s : MyComments),
        Path step (fun _ e => Unedited e ∧ Undeleted e) {} evs s → s.loaded = true →
        s.hub.queue = [] → ∀ uid, s.session = some uid → s.vc.myPost.Perm (s.storedBy uid) := by
  intro h
  have hs := h [.signIn "a", .uploadPost "Swift" "text" "Jun 1, 2020 at 9:00 AM" "ann" "a" "p1",
    .viewDidLoad, .runMain [], .runMain [], .runMain [], .signOut, .runMain [], .signIn "a",
    .runMain [], .runMain [], .runMain []] _ (.of_exec_get (by decide)) (by decide) (by decide)
    "a" (by decide)
  exact absurd hs (by decide)

end MyComments

end DevPost
