import DevPost.Lib.Drain
import DevPost.Proofs.Profiles

/-! What the profile screens show in the end. Where the account that is signed in has a record,
the last thing a loaded screen is told is that record, or an auth callback on the queue will see
to it; so once the callbacks have run, the title and the profile are those of the record,
whoever wrote it last and whoever was signed in before. -/

namespace DevPost

open Lib FirebaseServices

namespace Profiles

variable {s s' : Profiles} {e : Event} {sink : Sink} {u v : Uid} {dict : Record}

/-- A screen that still listens to the record of an earlier account hears nothing new of it, or
will be told of the user's own record afterwards. -/
def Undisturbed (s : Profiles) : Event → Prop
  | .write uid dict => ∀ v ∈ s.session, uid = v ∨ dict = none ∨ s.users.lookup uid = dict ∨
      ∀ l ∈ s.listeners, l.2 ≠ uid ∨ .auth l.1 ∈ s.queue
  | _ => True

instance (s : Profiles) : (e : Event) → Decidable (Undisturbed s e)
  | .write uid dict => inferInstanceAs (Decidable (∀ v ∈ s.session, uid = v ∨ dict = none ∨
      s.users.lookup uid = dict ∨ ∀ l ∈ s.listeners, l.2 ≠ uid ∨ .auth l.1 ∈ s.queue))
  | .viewDidLoad _ | .signIn _ | .signOut | .handleEditProfile | .handleUpdateProfile _
  | .cancel | .run => .isTrue trivial

/-- A loaded screen listens to the user's record, and is told of it in the end, or an auth
callback will see to it. -/
structure Informed (s : Profiles) : Prop where
  listening : ∀ v ∈ s.session, ∀ sink ∈ s.loaded,
    .auth sink ∈ s.queue ∨ (sink, v) ∈ s.listeners
  told : ∀ v ∈ s.session, ∀ dict ∈ s.users.lookup v, ∀ sink ∈ s.loaded,
    .auth sink ∈ s.queue ∨ s.coming sink = some (v, User.init dict)

theorem informed_launch (users : Table Uid Record) (session : Option Uid) :
    Informed (launch users session) where
  listening _ _ sink hsink := by simp [launch] at hsink
  told _ _ _ _ sink hsink := by simp [launch] at hsink

theorem informed_setRecord {dict : Option Record} (hi : Informed s)
    (hother : ∀ v ∈ s.session, u = v ∨ dict = none ∨ s.users.lookup u = dict ∨
      ∀ l ∈ s.listeners, l.2 ≠ u ∨ .auth l.1 ∈ s.queue) : Informed (s.setRecord u dict) := by
  obtain ⟨-, heq⟩ | ⟨hne, users, ⟨hself, hrest⟩, heq⟩ := setRecord_cases s u dict
  · rw [heq]
    exact hi
  rw [heq]
  refine ⟨fun v hv sink hsink => (hi.listening v hv sink hsink).imp_left
    (List.mem_append_left _), fun v hv d hd sink hsink => ?_⟩
  simp only [coming, List.foldl_append, arrive_values, mem_hearing]
  by_cases huv : v = u
  · subst huv
    refine (hi.listening v hv sink hsink).imp (List.mem_append_left _) fun hm => ?_
    rw [if_pos hm, ← hself, Option.mem_def.1 hd]
    rfl
  rw [hrest v huv] at hd
  refine (hi.told v hv d hd sink hsink).elim (fun h => .inl (List.mem_append_left _ h)) fun h => ?_
  rw [coming] at h
  rcases hother v hv with he | rfl | hsame | hl
  · exact absurd he.symm huv
  · right
    simpa using h
  · exact absurd hsame hne
  · by_cases hm : (sink, u) ∈ s.listeners
    · exact .inl (List.mem_append_left _ ((hl _ hm).resolve_left fun hu => hu rfl))
    · rw [if_neg hm]
      exact .inr h

theorem informed_runAuth {q : List Callback} (hq : s.queue = .auth sink :: q)
    (hi : Informed s) : Informed (runAuth { s with queue := q } sink) := by
  unfold runAuth
  dsimp only
  split
  · rename_i hs
    exact ⟨fun v hv => by simp [hs] at hv, fun v hv => by simp [hs] at hv⟩
  rename_i uid hs
  refine ⟨fun v hv a ha => ?_, fun v hv dict hdict a ha => ?_⟩
  all_goals obtain rfl : uid = v := Option.some.inj (hs.symm.trans hv)
  · by_cases hne : a = sink
    · exact .inr (by simp [hne])
    · exact (hi.listening uid hv a ha).imp
        (fun h => List.mem_append_left _ (auth_tail hq h hne)) (List.mem_append_left _)
  · rw [coming_registered hq, Option.mem_def.1 hdict]
    by_cases hne : a = sink
    · subst hne
      exact .inr (by simp [arrive])
    · rw [arrive_of_ne hne]
      exact (hi.told uid hv dict hdict a ha).imp_left
        fun h => List.mem_append_left _ (auth_tail hq h hne)

theorem coming_runValue {q : List Callback} {dict : Option Record}
    (hq : s.queue = .value sink u dict :: q) (a : Sink) :
    (runValue { s with queue := q } sink u dict).coming a = s.coming a := by
  rw [coming, coming, hq, List.foldl_cons]
  cases dict with
  | none => rfl
  | some dict =>
    by_cases ha : a = sink
    · subst ha
      simp [runValue, arrive]
    · simp [runValue, arrive_of_ne ha, ha]

theorem informed_runValue {q : List Callback} {dict : Option Record}
    (hq : s.queue = .value sink u dict :: q) (hi : Informed s) :
    Informed (runValue { s with queue := q } sink u dict) := by
  have hauth : ∀ a, Callback.auth a ∈ s.queue → .auth a ∈ q := by simp [hq]
  have hframe : ∃ told, runValue { s with queue := q } sink u dict =
      { s with queue := q, told := told } := by
    cases dict with
    | none => exact ⟨s.told, rfl⟩
    | some dict => exact ⟨_, rfl⟩
  have hcoming := coming_runValue hq
  obtain ⟨told, htold⟩ := hframe
  rw [htold] at hcoming ⊢
  refine ⟨fun v hv a ha => (hi.listening v hv a ha).imp_left (hauth a),
    fun v hv d hd a ha => ?_⟩
  rw [hcoming]
  exact (hi.told v hv d hd a ha).imp_left (hauth a)

theorem informed_stateDidChange (hi : Informed s) (user : Option Uid) :
    Informed (s.stateDidChange user) := by
  unfold stateDidChange
  split_ifs with heq
  · subst heq
    simpa using hi
  · have hauth : ∀ sink ∈ s.loaded, Callback.auth sink ∈ s.queue ++ s.loaded.map .auth :=
      fun sink hsink => List.mem_append_right _ (List.mem_map_of_mem hsink)
    exact ⟨fun _ _ sink hsink => .inl (hauth sink hsink),
      fun _ _ _ _ sink hsink => .inl (hauth sink hsink)⟩

theorem informed_viewDidLoad (hi : Informed s) (sink : Sink) :
    Informed { s with loaded := s.loaded ++ [sink], queue := s.queue ++ [.auth sink] } := by
  refine ⟨fun v hv a ha => ?_, fun v hv d hd a ha => ?_⟩
  all_goals rcases List.mem_append.1 ha with ha | ha
  · exact (hi.listening v hv a ha).imp_left (List.mem_append_left _)
  · exact .inl (by simp [List.mem_singleton.1 ha])
  · refine (hi.told v hv d hd a ha).imp (List.mem_append_left _) fun h => ?_
    rwa [coming, List.foldl_append]
  · exact .inl (by simp [List.mem_singleton.1 ha])

theorem informed_step (hi : Informed s) (hok : Undisturbed s e) (h : step s e = some s') :
    Informed s' := by
  cases e with
  | viewDidLoad sink =>
    simp only [step] at h
    split_ifs at h
    obtain rfl := Option.some.inj h
    exact informed_viewDidLoad hi sink
  | signIn uid =>
    obtain rfl := Option.some.inj h
    exact informed_stateDidChange hi _
  | signOut =>
    obtain rfl := Option.some.inj h
    exact informed_stateDidChange hi _
  | write uid dict =>
    simp only [step] at h
    split_ifs at h
    obtain rfl := Option.some.inj h
    exact informed_setRecord hi hok
  | handleEditProfile =>
    simp only [step] at h
    split_ifs at h
    obtain rfl := Option.some.inj h
    exact ⟨hi.listening, hi.told⟩
  | handleUpdateProfile texts =>
    obtain ⟨vc, -, rfl⟩ := Option.map_eq_some_iff.1 h
    have hset : Informed (s.updateUserInfo (texts.getD vc.fields)) := by
      unfold updateUserInfo
      split
      · exact hi
      · rename_i uid hs
        -- the form writes the record of the user itself
        exact informed_setRecord hi fun v hv => .inl (Option.some.inj (hs.symm.trans hv))
    unfold handleUpdateProfile
    dsimp only
    split_ifs
    · exact hi
    · exact ⟨hset.listening, hset.told⟩
  | cancel =>
    obtain rfl := Option.some.inj h
    exact ⟨hi.listening, hi.told⟩
  | run =>
    simp only [step] at h
    split at h
    · cases h
    · rename_i sink q hq
      obtain rfl := Option.some.inj h
      exact informed_runAuth hq hi
    · rename_i sink uid dict q hq
      obtain rfl := Option.some.inj h
      exact informed_runValue hq hi

/-- What running a callback can still cause. -/
def Callback.weight : Callback → ℕ
  | .auth _ => 2
  | .value .. => 1

def weight (s : Profiles) : ℕ := (s.queue.map Callback.weight).sum

theorem weight_eq_zero : s.weight = 0 ↔ s.queue = [] := by
  unfold weight
  cases s.queue with
  | nil => simp
  | cons c q => cases c <;> simp [Callback.weight]

theorem frame_run (h : step s .run = some s') :
    s'.users = s.users ∧ s'.session = s.session ∧ s'.loaded = s.loaded := by
  simp only [step] at h
  split at h
  · cases h
  · obtain rfl := Option.some.inj h
    unfold runAuth
    dsimp only
    split <;> exact ⟨rfl, rfl, rfl⟩
  · obtain rfl := Option.some.inj h
    unfold runValue
    split <;> exact ⟨rfl, rfl, rfl⟩

theorem queue_drains : Drains step (fun _ => True) (· = .run) weight where
  keeps _ _ _ _ _ _ := trivial
  lighter s e s' _ he h := by
    subst he
    simp only [step] at h
    split at h
    · cases h
    · rename_i hq
      obtain rfl := Option.some.inj h
      unfold runAuth
      dsimp only
      split <;> simp [weight, hq, Callback.weight]
      omega
    · rename_i hq
      obtain rfl := Option.some.inj h
      unfold runValue
      split <;> simp [weight, hq, Callback.weight]
  next s _ hne := by
    refine ⟨.run, rfl, ?_⟩
    simp only [step]
    split
    · rename_i hq
      exact absurd (weight_eq_zero.2 hq) hne
    · rfl
    · rfl

/-- An account that is signed in and has a record: the callbacks come to an end, and then every
screen that loaded shows the record. -/
theorem shows_record {users : Table Uid Record} {session : Option Uid} {evs : List Event}
    (h : Path step Undisturbed (launch users session) evs s) (hv : s.session = some v)
    (hdict : s.users.lookup v = some dict) :
    (∃ tasks s', Path step (fun _ e => e = .run) s tasks s' ∧ s'.queue = []) ∧
      ∀ tasks s', Path step (fun _ e => e = .run) s tasks s' → s'.queue = [] →
        ∀ sink ∈ s'.loaded, s'.told sink = some (v, User.init dict) := by
  constructor
  · obtain ⟨tasks, s', hpath, hz⟩ : ∃ tasks s', Path step (fun _ e => e = .run) s tasks s' ∧
        s'.weight = 0 := queue_drains.ends trivial
    exact ⟨tasks, s', hpath, weight_eq_zero.1 hz⟩
  intro tasks s' hpath hquiet sink hsink
  have hinformed : Informed s := h.invariant Informed (informed_launch users session)
    fun _ _ _ hs hok h => informed_step hs hok h
  obtain ⟨hi, hv', hdict'⟩ := hpath.invariant
    (fun s => Informed s ∧ s.session = some v ∧ s.users.lookup v = some dict)
    ⟨hinformed, hv, hdict⟩ fun s e s' ⟨hi, hv, hdict⟩ he h => by
      subst he
      obtain ⟨husers, hsession, -⟩ := frame_run h
      exact ⟨informed_step (e := .run) hi trivial h, hsession ▸ hv, husers ▸ hdict⟩
  simpa [coming, hquiet] using hi.told v hv' dict hdict' sink hsink

/-- The account takes the session over from another one, and saves its profile, from another
device too, with both screens loaded. -/
theorem shows_record_run :
    ∃ s dict, Path step Undisturbed
        (launch (Table.ofList [("a", filledIn "ann@dev.io" "ann" "iOS" "ann/app"),
          ("b", filledIn "bob@dev.io" "bob" "Lean" "bob/app")]) (some "b"))
        [.viewDidLoad .setNavUsername, .viewDidLoad .fetchUserInfo, .run, .run, .run, .run,
          .handleEditProfile, .signIn "a", .run, .run,
          .handleUpdateProfile (some ("anna", "Swift", "ann/app")),
          .write "a" (some (filledIn "ann@dev.io" "anne" "Swift" "ann/app"))] s ∧
      s.users.lookup "a" = some dict ∧ (User.init dict).username = "anne" ∧ s.queue.length = 6 ∧
      (s.told .setNavUsername).map (·.1) = some "b" ∧
      (∃ tasks s', Path step (fun _ e => e = .run) s tasks s' ∧ s'.queue = []) ∧
        ∀ tasks s', Path step (fun _ e => e = .run) s tasks s' → s'.queue = [] →
          ∀ sink ∈ s'.loaded, s'.told sink = some ("a", User.init dict) := by
  refine ⟨_, filledIn "ann@dev.io" "anne" "Swift" "ann/app", .of_exec_get (by decide), by decide,
    by decide, by decide, by decide, ?_⟩
  exact shows_record (.of_exec_get (by decide)) (by decide) (by decide)

end Profiles

end DevPost
