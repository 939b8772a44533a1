import DevPost.Sanity.MyComments

/-! The listeners of My Comments along any run: auth listeners are `viewDidLoad`'s and
then the refreshes in the order of their numbers, post listeners belong to auth
listeners, and nothing is shown, captured or on its way except through a post
listener. -/

namespace DevPost

open Lib FirebaseServices

namespace MyComments

variable {s s' : MyComments} {e : Event}

/-- The closures that post listeners have been registered for. -/
def closures (s : MyComments) : List Closure := s.hub.listeners.map (·.closure)

theorem mem_accepted {ds : List (Observer × Posts)} {d : Closure × Posts} :
    d ∈ accepted ds ↔ ∃ o, (o, d.2) ∈ ds ∧ o.closure = d.1 ∧ o.user = d.2.userId := by
  simp only [accepted, List.mem_filterMap]
  constructor
  · rintro ⟨⟨o, p⟩, hmem, he⟩
    split_ifs at he with hu
    obtain rfl := Option.some.inj he
    exact ⟨o, hmem, rfl, hu⟩
  · rintro ⟨o, hmem, hc, hu⟩
    exact ⟨(o, d.2), hmem, by simp [hu, hc]⟩

theorem sends_observer (h : step s e = some s') {d : Closure × Posts} (hd : d ∈ s.sends e) :
    ∃ o ∈ s'.hub.listeners, o.closure = d.1 ∧ o.user = d.2.userId := by
  rw [(step_frame h).1.listeners]
  unfold sends at hd
  split at hd
  · split_ifs at hd
    · obtain ⟨o, hmem, hc, hu⟩ := mem_accepted.1 hd
      obtain ⟨o', ho, he⟩ := List.mem_map.1 hmem
      obtain rfl := (Prod.ext_iff.1 he).1
      exact ⟨o', List.mem_append_left _ ho, hc, hu⟩
    · simp at hd
  · obtain ⟨o, ho, hmem⟩ := List.mem_flatMap.1 hd
    obtain ⟨p, hp, rfl⟩ := List.mem_map.1 hmem
    refine ⟨o, List.mem_append_right _ ho, rfl, ?_⟩
    simpa using (List.mem_filter.1 hp).2

structure Wired (s : MyComments) : Prop where
  auth : s.authListeners = (if s.loaded then [.fetchPostForCurrentUser] else []) ++
    (List.range s.refreshes).map .refreshData
  early : s.loaded = false → s.refreshes = 0
  callbacks : ∀ t ∈ others s.hub.queue, t.closure ∈ s.authListeners
  registered : ∀ c ∈ s.closures, c ∈ s.authListeners
  coming : ∀ d ∈ s.pending, d.1 ∈ s.closures
  own : ∀ r, .refreshData r ∉ s.closures → s.newPosts r = []
  shown : s.closures = [] → s.vc.myPost = []

theorem wired_init : Wired {} where
  auth := rfl
  early _ := rfl
  callbacks := by simp [Hub.idle]
  registered := by simp [closures, Hub.idle]
  coming := by simp [pending, Hub.idle]
  own _ _ := rfl
  shown _ := rfl

theorem Wired.mem_authListeners (hw : Wired s) {r : ℕ} :
    .refreshData r ∈ s.authListeners ↔ r < s.refreshes := by
  rw [hw.auth]
  cases s.loaded <;> simp

theorem Wired.auth_nodup (hw : Wired s) :
    s.authListeners.Nodup ∧ .fetchPostForCurrentUser ∉ s.authListeners.tail := by
  have hmap : ((List.range s.refreshes).map Closure.refreshData).Nodup :=
    List.nodup_range.map fun _ _ h => Feeder.rebuild.inj h
  have hnot : Closure.fetchPostForCurrentUser ∉
      (List.range s.refreshes).map Closure.refreshData := by simp
  rw [hw.auth]
  cases s.loaded
  · exact ⟨hmap, fun h => hnot (List.mem_of_mem_tail h)⟩
  · exact ⟨List.nodup_cons.2 ⟨hnot, hmap⟩, hnot⟩

theorem closures_step (h : step s e = some s') :
    s'.closures = s.closures ++ (s.joins e).map (·.closure) := by
  rw [closures, (step_frame h).1.listeners, List.map_append]
  rfl

theorem sends_closures (h : step s e = some s') :
    ∀ d ∈ s.sends e, d.1 ∈ s'.closures := by
  intro d hd
  obtain ⟨o, ho, hc, -⟩ := sends_observer h hd
  exact List.mem_map.2 ⟨o, ho, hc⟩

theorem heard_mem : ∀ t ∈ s.heard e, t ∈ others s.hub.queue := by
  intro t ht
  unfold heard at ht
  split at ht
  · split at ht
    · rename_i hq
      obtain rfl := List.mem_singleton.1 ht
      simp [hq]
    · simp at ht
  · simp at ht

theorem called_mem (h : step s e = some s') : ∀ t ∈ s.called e, t.closure ∈ s'.authListeners := by
  intro t ht
  rw [(step_frame h).1.authListeners]
  cases e with
  | viewDidLoad | refreshData =>
    obtain rfl := List.mem_singleton.1 ht
    simp [asked]
  | signIn | signOut =>
    simp only [called] at ht
    split at ht
    · simp at ht
    · obtain ⟨c, hc, rfl⟩ := List.mem_map.1 ht
      exact List.mem_append_left _ hc
  | uploadPost | remoteEdit | remoteDelete | deleteIconTapped | editIconTapped | deletePost
  | editUserPost | cancel | layout | runMain => simp [called] at ht

theorem auth_step (h : step s e = some s') (hw : Wired s) :
    s'.authListeners = (if s'.loaded then [.fetchPostForCurrentUser] else []) ++
        (List.range s'.refreshes).map .refreshData ∧
      (s'.loaded = false → s'.refreshes = 0) := by
  obtain ⟨hf, hen⟩ := step_frame h
  rw [hf.authListeners, hf.loaded, hf.refreshes, hw.auth]
  cases e with
  | viewDidLoad =>
    have hl : s.loaded = false := hen
    simp [hl, hw.early hl, asked]
  | refreshData =>
    have hl : s.loaded = true := hen
    simp [hl, asked, List.range_succ]
  | signIn | signOut | uploadPost | remoteEdit | remoteDelete | deleteIconTapped | editIconTapped
  | deletePost | editUserPost | cancel | layout | runMain =>
    simpa [asked] using hw.early

theorem wired_step (h : step s e = some s') (hk : Kept s.hub.node) (hb : s.vc.Bound)
    (hw : Wired s) : Wired s' := by
  have hf := (step_frame h).1
  have hauth : ∀ c ∈ s.authListeners, c ∈ s'.authListeners := fun c hc => by
    rw [hf.authListeners]
    exact List.mem_append_left _ hc
  have hcl : ∀ c ∈ s.closures, c ∈ s'.closures := fun c hc => by
    rw [closures_step h]
    exact List.mem_append_left _ hc
  have hm := step_moves h hk hb
  refine ⟨(auth_step h hw).1, (auth_step h hw).2, fun t ht => ?_, fun c hc => ?_, fun d hd => ?_,
    fun r hr => ?_, fun hnil => ?_⟩
  · have ht' : t ∈ others s.hub.queue ++ s.called e := by
      rw [← hf.callbacks]
      exact List.mem_append_right _ ht
    rcases List.mem_append.1 ht' with ht' | ht'
    · exact hauth _ (hw.callbacks t ht')
    · exact called_mem h t ht'
  · rw [closures_step h] at hc
    rcases List.mem_append.1 hc with hc | hc
    · exact hauth _ (hw.registered c hc)
    · obtain ⟨o, ho, rfl⟩ := List.mem_map.1 hc
      obtain ⟨t, ht, he⟩ := List.mem_filterMap.1 ho
      obtain ⟨u, -, rfl⟩ := Option.map_eq_some_iff.1 he
      exact hauth _ (hw.callbacks t (heard_mem t ht))
  · cases hm with
    | send _ hp _ =>
      rw [hp] at hd
      rcases List.mem_append.1 hd with hd | hd
      · exact hcl _ (hw.coming d hd)
      · exact sends_closures h d hd
    | deliver d' _ hp _ _ _ => exact hcl _ (hw.coming d (hp ▸ List.mem_cons_of_mem _ hd))
    | remove _ _ _ _ _ _ hp _ _ _ => exact hcl _ (hw.coming d (hp ▸ hd))
  · have hr' : .refreshData r ∉ s.closures := fun h => hr (hcl _ h)
    have hown := hw.own r hr'
    cases hm with
    | send hboard _ _ => exact (congrFun (congrArg Board.own hboard) r).trans hown
    | deliver d _ hp hboard _ _ =>
      have hd : d.1 ≠ .refreshData r := fun hd =>
        hr' (hd ▸ hw.coming d (hp ▸ List.mem_cons_self))
      have := congrFun (congrArg Board.own hboard) r
      rw [Board.own_deliver, Board.forRebuild_eq_nil (by simpa using hd), List.append_nil] at this
      exact this.trans hown
    | remove _ _ _ _ _ hboard _ _ _ _ => exact (congrFun (congrArg Board.own hboard) r).trans hown
  · rw [closures_step h, List.append_eq_nil_iff] at hnil
    have hshown := hw.shown hnil.1
    cases hm with
    | send hboard _ _ => exact (congrArg Board.visible hboard).trans hshown
    | deliver d _ hp _ _ _ =>
      have := hw.coming d (hp ▸ List.mem_cons_self)
      simp [hnil.1] at this
    | remove _ _ row post hget _ _ _ _ _ => simp [hshown] at hget

/-- The post listeners registered, and those that callbacks on the queue will register. -/
def listening (s : MyComments) : List Observer :=
  s.hub.listeners ++ observers (others s.hub.queue)

@[simp] theorem observers_append (xs ys : List AuthCallback) :
    observers (xs ++ ys) = observers xs ++ observers ys := List.filterMap_append ..

theorem observers_signIn (cs : List Closure) (uid : Uid) :
    observers (cs.map (⟨·, some uid⟩)) = cs.map (⟨·, uid⟩) := by
  unfold observers
  rw [List.filterMap_map, ← List.filterMap_eq_map]
  rfl

theorem observers_signOut (cs : List Closure) : observers (cs.map (⟨·, none⟩)) = [] := by
  simp [observers, List.filterMap_map]

theorem listening_step (h : step s e = some s') :
    s'.listening = s.listening ++ observers (s.called e) := by
  have hf := (step_frame h).1
  unfold listening
  rw [hf.listeners, List.append_assoc, List.append_assoc, joins, ← observers_append,
    hf.callbacks, observers_append]

/-- What every run keeps. -/
structure Sound (s : MyComments) : Prop where
  kept : Kept s.hub.node
  bound : s.vc.Bound
  wired : Wired s

theorem sound_init : Sound {} :=
  ⟨by simp [Kept, Hub.idle], MyCommentsController.bound_init, wired_init⟩

theorem sound_step (h : step s e = some s') (hs : Sound s) : Sound s' :=
  ⟨kept_step h hs.kept, bound_step h hs.bound, wired_step h hs.kept hs.bound hs.wired⟩

theorem run_sound {ok : MyComments → Event → Prop} {evs : List Event}
    (h : Path step ok {} evs s) : Sound s :=
  h.invariant Sound sound_init fun _ _ _ hs _ h => sound_step h hs

end MyComments

end DevPost
