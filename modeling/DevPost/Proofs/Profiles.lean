import DevPost.Spec.Profiles
import Mathlib.Logic.Function.Basic

/-! Whose record the screens show. Listeners of earlier accounts stay live and nothing is
cleared when the account changes, so the invariant is about what a screen will show when
the queue is drained: an auth callback still on the queue will register a listener on the
record of the account that is signed in and deliver it after everything else; where there
is none, the last delivery on the queue counts, or what is shown already. -/

namespace DevPost

open Lib FirebaseServices

namespace Profiles

variable {s s' : Profiles} {e : Event} {sink : Sink} {u v : Uid}

/-- What a screen shows after a callback. -/
def arrive (sink : Sink) (told : Option Told) : Callback → Option Told
  | .value sink' uid (some dict) => if sink' = sink then some (uid, User.init dict) else told
  | _ => told

/-- What a screen will show after the deliveries on the queue. -/
def coming (s : Profiles) (sink : Sink) : Option Told :=
  s.queue.foldl (arrive sink) (s.told sink)

/-- Nothing, or a record of `uid`. -/
def Of (uid : Uid) (told : Option Told) : Prop := ∀ t ∈ told, t.1 = uid

instance (uid : Uid) (told : Option Told) : Decidable (Of uid told) := by
  unfold Of
  infer_instance

/-- Nothing, or the record of `uid`, as it is if there is one. -/
def Own (users : Table Uid Record) (uid : Uid) (told : Option Told) : Prop :=
  ∀ t ∈ told, t.1 = uid ∧ ∀ dict ∈ users.lookup uid, t.2 = User.init dict

/-- The steps that keep the screens to the account that is signed in. -/
def KeepsToUser (s : Profiles) : Event → Prop
  -- no form is left over from another account
  | .signIn uid => ∀ vc ∈ s.form, Of uid vc.user
  -- a screen that listens to another account's record is told nothing new of it, or will be
  -- told its own afterwards
  | .write uid dict => ∀ v ∈ s.session, uid = v ∨ dict = none ∨ s.users.lookup uid = dict ∨
      ∀ l ∈ s.listeners, l.2 ≠ uid ∨ .auth l.1 ∈ s.queue
  | .handleEditProfile => s.queue = [] ∨ ∀ v ∈ s.session, Of v s.userInfo
  -- an account with a record overwrites what is left; one without must find nothing
  | .run =>
    match s.queue with
    | .auth sink :: q => ∀ v ∈ s.session,
        s.users.lookup v ≠ none ∨ .auth sink ∈ q ∨ Of v (s.coming sink)
    | _ => True
  | _ => True

instance (s : Profiles) (e : Event) : Decidable (KeepsToUser s e) := by
  unfold KeepsToUser
  split
  · infer_instance
  · infer_instance
  · infer_instance
  · split <;> infer_instance
  · infer_instance

theorem arrive_auths (sink : Sink) (told : Option Told) (sinks : List Sink) :
    (sinks.map Callback.auth).foldl (arrive sink) told = told := by
  induction sinks with
  | nil => rfl
  | cons a sinks ih => exact ih

/-- Several events with one record leave what was shown, or show that record. -/
theorem arrive_values (sink : Sink) (told : Option Told) (uid : Uid) (dict : Option Record)
    (sinks : List Sink) :
    (sinks.map (Callback.value · uid dict)).foldl (arrive sink) told =
      if sink ∈ sinks then ((dict.map fun d => (uid, User.init d)).or told) else told := by
  induction sinks generalizing told with
  | nil => simp
  | cons a sinks ih =>
    rw [List.map_cons, List.foldl_cons, ih]
    cases dict with
    | none => simp [arrive]
    | some dict =>
      by_cases ha : a = sink
      · subst ha
        simp [arrive]
      · simp [arrive, ha, Ne.symm ha]

theorem arrive_of_ne {a : Sink} (h : a ≠ sink) (told : Option Told) (dict : Option Record) :
    arrive a told (.value sink u dict) = told := by
  cases dict <;> simp [arrive, Ne.symm h]

theorem own_of_lookup {users : Table Uid Record} {told : Option Told} (h : Of v told)
    (hv : users.lookup v = none) : Own users v told := fun t ht =>
  ⟨h t ht, by simp [hv]⟩

theorem Own.of {users : Table Uid Record} {told : Option Told} (h : Own users v told) :
    Of v told := fun t ht => (h t ht).1

theorem Own.lookup_eq {users users' : Table Uid Record} {told : Option Told}
    (h : Own users v told) (hu : users'.lookup v = users.lookup v) : Own users' v told := by
  rw [Own, hu]
  exact h

/-- The value of a listener on the user's own record overwrites what is shown, if there is one. -/
theorem own_arrive {users : Table Uid Record} {told : Option Told}
    (h : users.lookup u = none → Of u told) :
    Own users u (arrive sink told (.value sink u (users.lookup u))) := by
  cases hl : users.lookup u with
  | none => exact own_of_lookup (h hl) hl
  | some dict =>
    intro t ht
    obtain rfl : (u, User.init dict) = t := by simpa [arrive] using ht
    exact ⟨rfl, fun d hd => by rw [hl] at hd; rw [Option.mem_some.1 hd]⟩

/-- The invariant of the runs that keep to the account that is signed in. -/
structure Good (s : Profiles) : Prop where
  unloaded : ∀ sink ∉ s.loaded, s.coming sink = none
  auths : ∀ sink, .auth sink ∈ s.queue → sink ∈ s.loaded
  registered : ∀ l ∈ s.listeners, l.1 ∈ s.loaded
  listening : ∀ v ∈ s.session, ∀ sink ∈ s.loaded,
    .auth sink ∈ s.queue ∨ (sink, v) ∈ s.listeners
  /-- a screen shows the user's record in the end, or an auth callback will see to it -/
  settles : ∀ v ∈ s.session, ∀ sink, .auth sink ∈ s.queue ∨ Own s.users v (s.coming sink)
  form : ∀ v ∈ s.session, ∀ vc ∈ s.form, Of v vc.user
  copied : ∀ c ∈ s.copied, c.1 = c.2

/-- The screens a change of the record of `uid` is sent to. -/
def hearing (s : Profiles) (uid : Uid) : List Sink := (s.listeners.filter (·.2 = uid)).map (·.1)

theorem mem_hearing : sink ∈ s.hearing u ↔ (sink, u) ∈ s.listeners := by
  simp [hearing]

theorem setRecord_cases (s : Profiles) (uid : Uid) (dict : Option Record) :
    (s.users.lookup uid = dict ∧ s.setRecord uid dict = s) ∨
    (s.users.lookup uid ≠ dict ∧ ∃ users,
      (users.lookup uid = dict ∧ ∀ v ≠ uid, users.lookup v = s.users.lookup v) ∧
      s.setRecord uid dict = { s with
        users
        queue := s.queue ++ (s.hearing uid).map (Callback.value · uid dict) }) := by
  unfold setRecord
  split_ifs with h
  · exact .inl ⟨h, rfl⟩
  refine .inr ⟨h, _, ?_, by rw [hearing, List.map_map]; rfl⟩
  cases dict with
  | none => exact ⟨Table.lookup_erase_self .., fun v hv => Table.lookup_erase_of_ne _ hv⟩
  | some dict => exact ⟨Table.lookup_set_self .., fun v hv => Table.lookup_set_of_ne _ _ hv⟩

theorem good_setRecord (h : Good s) {dict : Option Record}
    (hother : ∀ v ∈ s.session, u = v ∨ dict = none ∨ s.users.lookup u = dict ∨
      ∀ l ∈ s.listeners, l.2 ≠ u ∨ .auth l.1 ∈ s.queue) : Good (s.setRecord u dict) := by
  obtain ⟨-, heq⟩ | ⟨hne, users, ⟨hself, hrest⟩, heq⟩ := setRecord_cases s u dict
  · rw [heq]
    exact h
  rw [heq]
  have hcoming : ∀ sink, coming { s with
      users
      queue := s.queue ++ (s.hearing u).map (Callback.value · u dict) } sink =
      if sink ∈ s.hearing u then ((dict.map fun d => (u, User.init d)).or (s.coming sink))
      else s.coming sink := fun sink =>
    List.foldl_append.trans (arrive_values ..)
  have hauth : ∀ sink, .auth sink ∈ s.queue ++ (s.hearing u).map (Callback.value · u dict) ↔
      .auth sink ∈ s.queue := by simp
  constructor
  case unloaded =>
    intro sink hsink
    have hnot : sink ∉ s.hearing u := fun hm => hsink (h.registered _ (mem_hearing.1 hm))
    rw [hcoming, if_neg hnot]
    exact h.unloaded sink hsink
  case auths => exact fun sink hsink => h.auths sink ((hauth sink).1 hsink)
  case registered => exact h.registered
  case listening =>
    intro v hv sink hsink
    exact (h.listening v hv sink hsink).imp_left (hauth sink).2
  case settles =>
    intro v hv sink
    rw [hauth, hcoming]
    obtain hq | hown := h.settles v hv sink
    · exact .inl hq
    by_cases huv : u = v
    · subst huv
      cases dict with
      | none =>
        refine .inr ?_
        rw [Option.map_none, Option.none_or, ite_self]
        exact own_of_lookup hown.of hself
      | some dict =>
        by_cases hl : sink ∈ s.loaded
        · refine (h.listening u hv sink hl).imp_right fun hm => ?_
          rw [if_pos (mem_hearing.2 hm)]
          intro t ht
          obtain rfl : (u, User.init dict) = t := by simpa using ht
          exact ⟨rfl, fun d hd => by rw [hself] at hd; rw [Option.mem_some.1 hd]⟩
        · -- a screen that has not loaded is told nothing
          have hnot : sink ∉ s.hearing u := fun hm => hl (h.registered _ (mem_hearing.1 hm))
          rw [if_neg hnot, h.unloaded sink hl]
          exact .inr fun t ht => absurd ht (by simp)
    · have hown' : Own users v (s.coming sink) := hown.lookup_eq (hrest v (Ne.symm huv))
      split_ifs with hm
      · cases dict with
        | none => exact .inr hown'
        | some dict =>
          have hl := (((hother v hv).resolve_left huv).resolve_left (by simp)).resolve_left hne
          exact .inl ((hl _ (mem_hearing.1 hm)).resolve_left fun h => h rfl)
      · exact .inr hown'
  case form => exact h.form
  case copied => exact h.copied

theorem good_viewDidLoad (h : Good s) (sink : Sink) (hnew : sink ∉ s.loaded) :
    Good { s with loaded := s.loaded ++ [sink], queue := s.queue ++ [.auth sink] } := by
  have hcoming : ∀ a, coming { s with
      loaded := s.loaded ++ [sink]
      queue := s.queue ++ [.auth sink] } a = s.coming a := fun a =>
    List.foldl_append.trans (arrive_auths a _ [sink])
  constructor
  case unloaded =>
    intro a ha
    rw [hcoming]
    exact h.unloaded a fun hm => ha (List.mem_append_left _ hm)
  case auths =>
    intro a ha
    rcases List.mem_append.1 ha with ha | ha
    · exact List.mem_append_left _ (h.auths a ha)
    · obtain rfl : a = sink := by simpa using ha
      simp
  case registered => exact fun l hl => List.mem_append_left _ (h.registered l hl)
  case listening =>
    intro v hv a ha
    rcases List.mem_append.1 ha with ha | ha
    · exact (h.listening v hv a ha).imp_left (List.mem_append_left _)
    · obtain rfl : a = sink := by simpa using ha
      exact .inl (by simp)
  case settles =>
    intro v hv a
    rw [hcoming]
    exact (h.settles v hv a).imp_left (List.mem_append_left _)
  case form => exact h.form
  case copied => exact h.copied

theorem good_stateDidChange (h : Good s) (user : Option Uid)
    (hform : ∀ v ∈ user, ∀ vc ∈ s.form, Of v vc.user) : Good (s.stateDidChange user) := by
  unfold stateDidChange
  by_cases heq : s.session = user
  · subst heq
    simpa using h
  rw [if_neg heq]
  have hcoming : ∀ a, coming { s with
      session := user
      queue := s.queue ++ s.loaded.map .auth } a = s.coming a := fun a =>
    List.foldl_append.trans (arrive_auths a _ s.loaded)
  have hcalled : ∀ a ∈ s.loaded, Callback.auth a ∈ s.queue ++ s.loaded.map .auth := fun a ha =>
    List.mem_append_right _ (List.mem_map_of_mem ha)
  constructor
  case unloaded =>
    intro a ha
    rw [hcoming]
    exact h.unloaded a ha
  case auths =>
    intro a ha
    rcases List.mem_append.1 ha with ha | ha
    · exact h.auths a ha
    · simpa using ha
  case registered => exact h.registered
  case listening => exact fun v _ a ha => .inl (hcalled a ha)
  case settles =>
    intro v _ a
    by_cases ha : a ∈ s.loaded
    · exact .inl (hcalled a ha)
    · rw [hcoming, h.unloaded a ha]
      exact .inr fun t ht => absurd ht (by simp)
  case form => exact hform
  case copied => exact h.copied

theorem good_form (h : Good s) {form : Option EditProfileController}
    (hform : ∀ v ∈ s.session, ∀ vc ∈ form, Of v vc.user) : Good { s with form } :=
  ⟨h.unloaded, h.auths, h.registered, h.listening, h.settles, hform, h.copied⟩

/-- The form is filled from a record of the account it is saved to. -/
theorem good_handleUpdateProfile (h : Good s) {vc : EditProfileController} (hvc : vc ∈ s.form)
    (texts : Option (String × String × String)) : Good (s.handleUpdateProfile vc texts) := by
  unfold handleUpdateProfile
  dsimp only
  split_ifs
  · exact h
  have hset : Good (s.updateUserInfo (texts.getD vc.fields)) := by
    unfold updateUserInfo
    split
    · exact h
    · rename_i uid hs
      refine good_setRecord h fun v hv => .inl ?_
      rw [hs] at hv
      exact Option.mem_some.1 hv
  refine ⟨hset.unloaded, hset.auths, hset.registered, hset.listening, hset.settles, by simp, ?_⟩
  intro c hc
  rcases List.mem_append.1 hc with hc | hc
  · exact h.copied c hc
  · split at hc
    · rename_i u uid hu hs _ _
      obtain rfl : c = (u.1, uid) := by simpa using hc
      exact h.form uid hs vc hvc u hu
    · simp at hc

section RunAuth

variable {q : List Callback} (hq : s.queue = .auth sink :: q)
include hq

theorem auth_of_tail {a : Sink} (ha : .auth a ∈ q) : .auth a ∈ s.queue := by
  rw [hq]
  exact List.mem_cons_of_mem _ ha

theorem auth_tail {a : Sink} (ha : .auth a ∈ s.queue) (hne : a ≠ sink) : .auth a ∈ q := by
  rw [hq] at ha
  exact (List.mem_cons.1 ha).resolve_left (by simp [hne])

/-- An auth callback shows nothing itself. -/
theorem coming_tail (a : Sink) : q.foldl (arrive a) (s.told a) = s.coming a := by
  rw [coming, hq]
  rfl

/-- What the listener it registers will show is the value that is stored now. -/
theorem coming_registered (listeners : List (Sink × Uid)) (c : Callback) (a : Sink) :
    coming { s with listeners, queue := q ++ [c] } a = arrive a (s.coming a) c := by
  rw [coming, List.foldl_append, coming_tail hq]
  rfl

theorem good_runAuth_none (h : Good s) (hs : s.session = none) :
    Good { s with queue := q } := by
  refine ⟨fun a ha => ?_, fun a ha => h.auths a (auth_of_tail hq ha), h.registered, ?_, ?_, h.form,
    h.copied⟩
  · exact (coming_tail hq a).trans (h.unloaded a ha)
  · simp [hs]
  · simp [hs]

theorem good_runAuth_some (h : Good s) (hs : s.session = some u)
    (hok : s.users.lookup u ≠ none ∨ .auth sink ∈ q ∨ Of u (s.coming sink)) :
    Good { s with
      listeners := s.listeners ++ [(sink, u)]
      queue := q ++ [.value sink u (s.users.lookup u)] } := by
  have hauth : ∀ a, .auth a ∈ q ++ [Callback.value sink u (s.users.lookup u)] ↔
      .auth a ∈ q := by simp
  have hsink : sink ∈ s.loaded := h.auths sink (by simp [hq])
  constructor
  case unloaded =>
    intro a ha
    have has : a ≠ sink := fun hm => ha (hm ▸ hsink)
    rw [coming_registered hq, arrive_of_ne has]
    exact h.unloaded a ha
  case auths => exact fun a ha => h.auths a (auth_of_tail hq ((hauth a).1 ha))
  case registered =>
    intro l hl
    rcases List.mem_append.1 hl with hl | hl
    · exact h.registered l hl
    · obtain rfl : l = (sink, u) := by simpa using hl
      exact hsink
  case listening =>
    intro v hv a ha
    obtain rfl : u = v := Option.mem_some.1 (hs ▸ hv)
    rw [hauth]
    by_cases has : a = sink
    · subst has
      exact .inr (by simp)
    · exact (h.listening u hv a ha).imp (auth_tail hq · has) (List.mem_append_left _)
  case settles =>
    intro v hv a
    obtain rfl : u = v := Option.mem_some.1 (hs ▸ hv)
    rw [hauth, coming_registered hq]
    by_cases has : a = sink
    · subst has
      -- where nothing is delivered, what is left must be the account's own
      by_cases hl : s.users.lookup u = none
      · exact (hok.resolve_left (not_not.2 hl)).imp_right fun hof => own_arrive fun _ => hof
      · exact .inr (own_arrive fun h => absurd h hl)
    · rw [arrive_of_ne has]
      exact (h.settles u hv a).imp_left (auth_tail hq · has)
  case form => exact h.form
  case copied => exact h.copied

theorem good_runAuth (h : Good s)
    (hok : ∀ v ∈ s.session,
      s.users.lookup v ≠ none ∨ .auth sink ∈ q ∨ Of v (s.coming sink)) :
    Good (runAuth { s with queue := q } sink) := by
  unfold runAuth
  dsimp only
  split
  · exact good_runAuth_none hq h ‹_›
  · exact good_runAuth_some hq h ‹_› (hok _ ‹_›)

end RunAuth

theorem good_told (h : Good s) {q : List Callback} {told : Sink → Option Told}
    (hcoming : ∀ a, q.foldl (arrive a) (told a) = s.coming a)
    (hauth : ∀ a, Callback.auth a ∈ q ↔ .auth a ∈ s.queue) :
    Good { s with queue := q, told := told } := by
  constructor
  case unloaded => exact fun a ha => (hcoming a).trans (h.unloaded a ha)
  case auths => exact fun a ha => h.auths a ((hauth a).1 ha)
  case registered => exact h.registered
  case listening => exact fun v hv a ha => (h.listening v hv a ha).imp_left (hauth a).2
  case settles =>
    intro v hv a
    rw [hauth, coming, hcoming]
    exact h.settles v hv a
  case form => exact h.form
  case copied => exact h.copied

theorem good_runValue (h : Good s) {q : List Callback} {dict : Option Record}
    (hq : s.queue = .value sink u dict :: q) :
    Good (runValue { s with queue := q } sink u dict) := by
  have hauth : ∀ a, Callback.auth a ∈ q ↔ .auth a ∈ s.queue := by simp [hq]
  have hcoming : ∀ a, s.coming a =
      q.foldl (arrive a) (arrive a (s.told a) (.value sink u dict)) := by simp [coming, hq]
  cases dict with
  | none => exact good_told h (fun a => (hcoming a).symm) hauth
  | some dict =>
    refine good_told h (fun a => ?_) hauth
    rw [hcoming]
    by_cases ha : a = sink
    · subst ha
      simp [arrive]
    · rw [arrive_of_ne ha, Function.update_of_ne ha]

/-- With nothing left to run, the screens show the account's own record. -/
theorem Good.shows (h : Good s) (hq : s.queue = []) (hv : v ∈ s.session) (sink : Sink) :
    Own s.users v (s.told sink) := by
  obtain hauth | hown := h.settles v hv sink
  · simp [hq] at hauth
  · simpa [coming, hq] using hown

theorem good_step (h : Good s) (hok : KeepsToUser s e) (hs : step s e = some s') : Good s' := by
  cases e with
  | viewDidLoad sink =>
    simp only [step] at hs
    split_ifs at hs with hsink
    obtain rfl := Option.some.inj hs
    exact good_viewDidLoad h sink hsink
  | signIn uid =>
    obtain rfl := Option.some.inj hs
    refine good_stateDidChange h (some uid) fun v hv => ?_
    obtain rfl := Option.mem_some.1 hv
    exact hok
  | signOut =>
    obtain rfl := Option.some.inj hs
    exact good_stateDidChange h none (by simp)
  | write uid dict =>
    simp only [step] at hs
    split_ifs at hs
    obtain rfl := Option.some.inj hs
    exact good_setRecord h hok
  | handleEditProfile =>
    simp only [step] at hs
    split_ifs at hs
    obtain rfl := Option.some.inj hs
    refine good_form h fun v hv vc hvc => ?_
    obtain rfl := Option.mem_some.1 hvc
    exact hok.elim (fun hq => (h.shows hq hv _).of) fun hof => hof v hv
  | handleUpdateProfile texts =>
    obtain ⟨vc, hvc, rfl⟩ := Option.map_eq_some_iff.1 hs
    exact good_handleUpdateProfile h hvc texts
  | cancel =>
    obtain rfl := Option.some.inj hs
    exact good_form h (by simp)
  | run =>
    simp only [step] at hs
    split at hs
    · simp at hs
    · rename_i sink q hq
      obtain rfl := Option.some.inj hs
      apply good_runAuth hq h
      simpa only [KeepsToUser, hq] using hok
    · rename_i sink uid dict q hq
      obtain rfl := Option.some.inj hs
      exact good_runValue h hq

/-- Before any screen has loaded. -/
def launch (users : Table Uid Record) (session : Option Uid) : Profiles := { users, session }

theorem good_launch (users : Table Uid Record) (session : Option Uid) :
    Good (launch users session) where
  unloaded := fun _ _ => rfl
  auths := by simp [launch]
  registered := by simp [launch]
  listening := by simp [launch]
  settles := fun _ _ _ => .inr fun t ht => by simp [launch, coming] at ht
  form := by simp [launch]
  copied := by simp [launch]

/-- With no callback pending, what the screens hold is the own record of the account that is
signed in, or nothing, and an unmodified form never went to another account's record. -/
def ShowsOwn (s : Profiles) : Prop :=
  (s.queue = [] → ∀ v ∈ s.session, ∀ sink, Own s.users v (s.told sink)) ∧
    ∀ c ∈ s.copied, c.1 = c.2

theorem shows_own {users : Table Uid Record} {session : Option Uid} {evs : List Event}
    (h : Path step KeepsToUser (launch users session) evs s) : ShowsOwn s := by
  have hgood : Good s := h.invariant Good (good_launch users session)
    fun _ _ _ hi hok hs => good_step hi hok hs
  exact ⟨fun hq _ hv sink => hgood.shows hq hv sink, hgood.copied⟩

/-- The record of an account that signed up and filled in its profile. -/
def filledIn (email username title repo : String) : Record :=
  Table.ofList (createUserValues email username ++ updateUserInfoValues username title repo)

/-- Two accounts in turn, the second of which saves its form as it was filled. -/
theorem shows_own_run :
    ∃ s, Path step KeepsToUser
        (launch (Table.ofList [("a", filledIn "ann@dev.io" "ann" "iOS" "ann/app"),
          ("b", filledIn "bob@dev.io" "bob" "Web" "bob/site")]) none)
        [.viewDidLoad .setNavUsername, .viewDidLoad .fetchUserInfo, .run, .run, .signIn "a", .run,
          .run, .run, .run, .signOut, .run, .run, .signIn "b", .write "a" none, .run, .run, .run,
          .run, .run, .run, .handleEditProfile, .write "b" (some (filledIn "b@dev.io" "bb" "" "")),
          .handleUpdateProfile none, .run, .run, .run, .run] s ∧
      s.session = some "b" ∧ s.queue = [] ∧ s.navUsername = some "bob" ∧ s.copied = [("b", "b")] ∧
      ShowsOwn s :=
  ⟨_, .of_exec_get (by decide), by decide, by decide, by decide, by decide,
    shows_own (.of_exec_get (by decide))⟩

/-- An account without a record is shown the record of the account before it, and saving
the form puts it into the new account's record. -/
theorem shows_other :
    (¬ ∀ (users : Table Uid Record) (evs : List Event) (s : Profiles),
      Path step anyStep (launch users none) evs s → s.queue = [] → ∀ v ∈ s.session,
        ∀ sink, Own s.users v (s.told sink)) ∧
    ¬ ∀ (users : Table Uid Record) (evs : List Event) (s : Profiles),
      Path step anyStep (launch users none) evs s → ∀ c ∈ s.copied, c.1 = c.2 := by
  constructor
  · intro h
    have hown := h (Table.ofList [("a", filledIn "ann@dev.io" "ann" "iOS" "ann/app")])
      [.viewDidLoad .setNavUsername, .run, .signIn "a", .run, .run, .signOut, .run, .signIn "b",
        .run, .run] _ (.of_exec_get (by decide)) (by decide) "b" (by decide) .setNavUsername
    exact absurd (hown _ rfl).1 (by decide)
  · intro h
    have hcopied := h (Table.ofList [("a", filledIn "ann@dev.io" "ann" "iOS" "ann/app")])
      [.viewDidLoad .fetchUserInfo, .run, .signIn "a", .run, .run, .signOut, .run, .signIn "b",
        .run, .handleEditProfile, .handleUpdateProfile none] _ (.of_exec_get (by decide))
      ("a", "b") (by decide)
    exact absurd hcopied (by decide)

end Profiles

end DevPost
