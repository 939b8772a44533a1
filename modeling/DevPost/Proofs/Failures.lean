import DevPost.Sanity.Accounts
import Mathlib.Data.List.Perm.Basic

/-! Operations that fail. `handleError` shows the error and returns from itself only, so
what a completion does next depends on its own guard; only `createUser` has one that
comes before everything else and also calls `handleError`. The effects of an operation are
those of its call, by an invariant, and then those of its completion. -/

namespace DevPost

open Lib FirebaseServices

namespace Accounts

variable {F : Foundation} {s s' : Accounts} {e : Event}

/-- What was shown for the call `n` of Auth. -/
def effectsOf (s : Accounts) (n : ℕ) : List Effect :=
  (s.effects.filter (·.1 = some n)).map (·.2)

/-- What is shown when an operation is called, by its caller too. -/
def Operation.start : Operation → List Effect
  | .createUser .. => [.showStatus "Sign up"]
  | .signIn _ => []
  | .updatePassword .. => []
  | .delete uid => [.presentLogin (some uid)]

/-- No success notice, no dismissal, no login screen over a session. -/
def Harmless : Effect → Prop
  | .showSuccess _ => False
  | .dismiss => False
  | .presentLogin user => user = none
  | _ => True

/-- A failure that the user is told of and that changes nothing else. -/
structure Clean (s s' : Accounts) (n : ℕ) (error : String) : Prop where
  users : s'.users = s.users
  harmless : ∀ x ∈ s'.effectsOf n, Harmless x
  shown : .showError error ∈ s'.effectsOf n

@[simp] theorem effectsOf_shows_self (s : Accounts) (n : ℕ) (es : List Effect) :
    (s.shows (some n) es).effectsOf n = s.effectsOf n ++ es := by
  simp [effectsOf, shows, List.filter_append, List.filter_map, Function.comp_def]

theorem effectsOf_shows_of_ne (s : Accounts) {m : Option ℕ} {n : ℕ} (h : m ≠ some n)
    (es : List Effect) : (s.shows m es).effectsOf n = s.effectsOf n := by
  simp [effectsOf, shows, List.filter_append, List.filter_map, Function.comp_def, h]

/-- The operations that wait are numbered apart, and only their calls have shown anything
for them. -/
structure Started (s : Accounts) : Prop where
  ids : (s.operations.map (·.1)).Nodup
  called : ∀ o ∈ s.operations, o.1 < s.calls
  early : ∀ x ∈ s.effects, ∀ n, x.1 = some n → n < s.calls
  start : ∀ o ∈ s.operations, s.effectsOf o.1 = o.2.start

theorem started_launch (accounts : List Account) (users : Table Uid Record)
    (session : Option Uid) : Started (launch accounts users session) :=
  ⟨by simp [launch], by simp [launch], by simp [launch], by simp [launch]⟩

theorem Started.effectsOf_calls (hs : Started s) : s.effectsOf s.calls = [] := by
  rw [effectsOf, List.map_eq_nil_iff, List.filter_eq_nil_iff]
  intro x hx
  simp only [decide_eq_true_eq]
  exact fun h => (hs.early x hx _ h).ne rfl

theorem Started.congr (hs : Started s) (hops : s'.operations = s.operations)
    (hcalls : s'.calls = s.calls) (heffects : s'.effects = s.effects) : Started s' where
  ids := hops ▸ hs.ids
  called := by rw [hops, hcalls]; exact hs.called
  early := by rw [heffects, hcalls]; exact hs.early
  start o ho := by
    rw [effectsOf, heffects]
    exact hs.start o (hops ▸ ho)

theorem Started.shows (hs : Started s) (es : List Effect) : Started (s.shows none es) where
  ids := hs.ids
  called := hs.called
  early x hx n hn := by
    rcases List.mem_append.1 hx with hx | hx
    · exact hs.early x hx n hn
    · obtain ⟨y, -, rfl⟩ := List.mem_map.1 hx
      cases hn
  start o ho := by
    rw [effectsOf_shows_of_ne s (by simp)]
    exact hs.start o ho

theorem Started.call (hs : Started s) (op : Operation) :
    Started ((s.shows (some s.calls) op.start).call op) where
  ids := by
    show ((s.operations ++ [(s.calls, op)]).map (·.1)).Nodup
    rw [List.map_append, List.nodup_append]
    refine ⟨hs.ids, by simp, fun n hn m hm => ?_⟩
    obtain ⟨o, ho, rfl⟩ := List.mem_map.1 hn
    rw [List.mem_singleton.1 hm]
    exact (hs.called o ho).ne
  called o ho := by
    show o.1 < s.calls + 1
    rcases List.mem_append.1 ho with ho | ho
    · exact (hs.called o ho).trans (Nat.lt_succ_self _)
    · rw [List.mem_singleton.1 ho]
      exact Nat.lt_succ_self _
  early x hx n hn := by
    show n < s.calls + 1
    rcases List.mem_append.1 hx with hx | hx
    · exact (hs.early x hx n hn).trans (Nat.lt_succ_self _)
    · obtain ⟨y, -, rfl⟩ := List.mem_map.1 hx
      cases hn
      exact Nat.lt_succ_self _
  start o ho := by
    show (s.shows (some s.calls) op.start).effectsOf o.1 = o.2.start
    rcases List.mem_append.1 ho with ho | ho
    · rw [effectsOf_shows_of_ne s (by simpa using (hs.called o ho).ne')]
      exact hs.start o ho
    · obtain rfl := List.mem_singleton.1 ho
      apply (effectsOf_shows_self s s.calls op.start).trans
      rw [hs.effectsOf_calls]
      rfl

theorem Started.complete (hs : Started s) {i n : ℕ} {op : Operation}
    (hop : s.operations[i]? = some (n, op)) (user : Option Uid) (error : Option String) :
    Started (s.complete i n op user error) where
  ids := hs.ids.sublist ((List.eraseIdx_sublist _ _).map _)
  called o ho := hs.called o (List.mem_of_mem_eraseIdx ho)
  early x hx m hm := by
    rcases List.mem_append.1 hx with hx | hx
    · exact hs.early x hx m hm
    · obtain ⟨y, -, rfl⟩ := List.mem_map.1 hx
      cases hm
      exact hs.called _ (List.mem_of_getElem? hop)
  start o ho := by
    have hne : n ≠ o.1 := by
      obtain ⟨hi, hget⟩ := List.getElem?_eq_some_iff.1 hop
      have hperm := (List.getElem_cons_eraseIdx_perm hi).map (·.1)
      have hnot := (List.nodup_cons.1 (hperm.nodup_iff.2 hs.ids)).1
      rw [hget] at hnot
      exact fun he => hnot (List.mem_map.2 ⟨o, ho, he.symm⟩)
    have := effectsOf_shows_of_ne ({ s with operations := s.operations.eraseIdx i }.setUsers
      (completion s.users user error op).2) (m := some n) (n := o.1) (by simpa using hne)
      (completion s.users user error op).1
    exact this.trans (hs.start o (List.mem_of_mem_eraseIdx ho))

theorem started_step (h : step F s e = some s') (hs : Started s) : Started s' := by
  cases e with
  | loginTap email password =>
    cases h
    split_ifs
    · exact hs.shows _
    · exact (hs.shows _).congr rfl rfl rfl
  | signUpTap email password username =>
    cases h
    split_ifs
    · exact hs.shows _
    · exact hs.call (.createUser email password username)
  | googleSignIn uid =>
    cases h
    have hin : Started { s with session := some uid } := hs.congr rfl rfl rfl
    exact hin.shows _
  | logOut throws =>
    cases h
    unfold logOutUser
    split_ifs
    · exact hs
    · have hout : Started { s with session := none } := hs.congr rfl rfl rfl
      exact hout.shows _
  | updateUserInfo username title repo =>
    cases h
    unfold updateUserInfo
    split
    · exact hs
    · rename_i uid _
      have hset : Started (s.setUsers (s.users.set uid (updateChildValues s.users uid
          (updateUserInfoValues username title repo)))) := hs.congr rfl rfl rfl
      exact hset.shows _
  | updatePassword newPassword =>
    cases h
    unfold updatePassword
    split
    · exact hs
    · exact (hs.call (.updatePassword _ newPassword)).congr rfl rfl (by simp [shows, call,
        Operation.start])
  | deleteAccount =>
    cases h
    unfold handleDeleteAccount
    split
    · exact hs.shows _
    · exact hs.call (.delete _)
  | remoteUsers uid dict =>
    simp only [step] at h
    split at h
    · cases h; exact hs.congr rfl rfl rfl
    · split_ifs at h
      cases h
      exact hs.congr rfl rfl rfl
  | deliver i =>
    obtain ⟨⟨l, exist⟩, -, rfl⟩ := Option.map_eq_some_iff.1 h
    have hs' : Started { s with snapshots := s.snapshots.eraseIdx i } := hs.congr rfl rfl rfl
    unfold loginSnapshot
    split_ifs
    · exact (hs'.call (.signIn l)).congr rfl rfl (by simp [shows, call, Operation.start])
    · exact hs'.shows _
  | succeed i | fail i | failLate i =>
    obtain ⟨n, op, accounts, session, user, error, hop, rfl, -⟩ := completes_cases (i := i) (by simp) h
    have hs' : Started { s with accounts, session } := hs.congr rfl rfl rfl
    exact hs'.complete hop user error

/-- The backend reports failure to the `i`-th operation, whether or not it accepted it. -/
def Event.Fails (i : ℕ) (error : String) (e : Event) : Prop :=
  e = .fail i error ∨ ∃ uid, e = .failLate i uid error

/-- What a failure shows comes after what was shown at the call, and the users node is what the
completion makes of it. -/
theorem fails_step (hs : Started s) {i n : ℕ} {op : Operation}
    (hop : s.operations[i]? = some (n, op)) {error : String} (he : e.Fails i error)
    (h : step F s e = some s') :
    s'.users = (completion s.users none (some error) op).2 ∧
      s'.effectsOf n = op.start ++ (completion s.users none (some error) op).1 := by
  have hstart := hs.start _ (List.mem_of_getElem? hop)
  obtain rfl | ⟨uid, rfl⟩ := he
  · obtain rfl : s.complete i n op none (some error) = s' := by simpa [step, hop] using h
    exact ⟨rfl, (effectsOf_shows_self _ _ _).trans (congrArg (· ++ _) hstart)⟩
  · simp only [step, hop, Option.bind_some] at h
    obtain ⟨r, -, rfl⟩ := Option.map_eq_some_iff.1 h
    exact ⟨rfl, (effectsOf_shows_self _ _ _).trans (congrArg (· ++ _) hstart)⟩

/-- A failure is clean exactly for `createUser`: a login that fails shows no error, a
password that was not updated is announced as updated, and an account that was not deleted
loses its record, with the login screen up over its session. -/
theorem clean_iff_createUser {ok : Accounts → Event → Prop} (hr : Reached F ok s) {i n : ℕ}
    {op : Operation} (hop : s.operations[i]? = some (n, op)) {error : String}
    (he : e.Fails i error) (h : step F s e = some s') :
    Clean s s' n error ↔ ∃ email password username, op = .createUser email password username := by
  obtain ⟨accounts, users, session, evs, hpath⟩ := hr
  have hs : Started s := hpath.invariant Started (started_launch ..)
    fun _ _ _ hs _ h => started_step h hs
  obtain ⟨husers, heffects⟩ := fails_step hs hop he h
  cases op with
  | createUser email password username =>
    refine iff_of_true ⟨husers, ?_, ?_⟩ ⟨email, password, username, rfl⟩
    · rw [heffects]
      simp [Operation.start, completion, handleError, Harmless]
    · rw [heffects]
      simp [Operation.start, completion, handleError]
  | signIn l =>
    refine iff_of_false (fun hc => ?_) (by simp)
    have := hc.shown
    simp [heffects, Operation.start, completion] at this
  | updatePassword uid newPassword =>
    refine iff_of_false (fun hc => ?_) (by simp)
    have hmem : .showSuccess
        "Password has been updated. Please logout and login again. Thank you!" ∈
        s'.effectsOf n := by
      rw [heffects]
      simp [completion]
    exact hc.harmless _ hmem
  | delete uid =>
    refine iff_of_false (fun hc => ?_) (by simp)
    have hmem : .presentLogin (some uid) ∈ s'.effectsOf n := by
      rw [heffects]
      simp [Operation.start]
    have hover : some uid = none := hc.harmless _ hmem
    cases hover

/-- A sign-up that fails while a deletion is waiting. -/
theorem clean_iff_createUser_run :
    ∃ s s', Reached .ascii anyStep s ∧
      s.operations[0]? = some (0, .createUser "ann@dev.io" "pw" "ann") ∧
      s.operations.length = 2 ∧ step .ascii s (.fail 0 "in use") = some s' ∧
      Clean s s' 0 "in use" := by
  have hr : Reached .ascii anyStep _ :=
    ⟨[⟨"a", "ann@dev.io", "pw"⟩], ∅, some "a",
      [.signUpTap "ann@dev.io" "pw" "ann", .deleteAccount], .of_exec_get (by decide)⟩
  have hop : _ = some (0, Operation.createUser "ann@dev.io" "pw" "ann") := rfl
  exact ⟨_, _, hr, hop, by decide, (Option.some_get (by decide)).symm,
    (clean_iff_createUser (F := .ascii) hr hop (.inl rfl) (Option.some_get (by decide)).symm).2
      ⟨_, _, _, rfl⟩⟩

/-- The account that was not deleted loses its record, and the login screen is up over its
session. -/
theorem failure_erases :
    ¬ ∀ (F : Foundation) (s s' : Accounts) (e : Event) (i n : ℕ) (op : Operation)
        (error : String), Reached F anyStep s → s.operations[i]? = some (n, op) →
        e.Fails i error → step F s e = some s' → Clean s s' n error := by
  intro h
  have hc := h .ascii _ _ (.fail 0 "log in again") 0 0 (.delete "a") "log in again"
    ⟨[⟨"a", "ann@dev.io", "pw"⟩],
      Table.ofList [("a", Table.ofList (createUserValues "ann@dev.io" "ann"))], some "a",
      [.deleteAccount], .of_exec_get (by decide)⟩
    rfl (.inl rfl) (Option.some_get (by decide)).symm
  exact absurd hc.users (by decide)

end Accounts

end DevPost
