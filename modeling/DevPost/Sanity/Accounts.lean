import DevPost.Spec.Accounts

/-! What a step does to the logins. A login is in progress from the value event that
finds its account until `Auth.signIn` completes. Only a login tap and the arrival of a
value event touch the logins; every other step at most raises value events by writing
the users node, and ends operations. -/

namespace DevPost

open Lib FirebaseServices

namespace Accounts

variable {F : Foundation} {s s' : Accounts} {e : Event}

/-- A launch of the app, with any accounts and records and maybe a session kept. -/
def launch (accounts : List Account) (users : Table Uid Record) (session : Option Uid) :
    Accounts := { accounts, users, session }

def Reached (F : Foundation) (ok : Accounts → Event → Prop) (s : Accounts) : Prop :=
  ∃ accounts users session evs, Path (step F) ok (launch accounts users session) evs s

/-- The logins whose existence check succeeded, the value event being on its way. -/
def checked (s : Accounts) : List LoginListener := (s.snapshots.filter (·.2)).map (·.1)

/-- The logins that called `Auth.signIn`. -/
def signingIn (s : Accounts) : List LoginListener :=
  s.operations.filterMap fun
    | (_, .signIn l) => some l
    | _ => none

def inProgress (s : Accounts) : List LoginListener := s.checked ++ s.signingIn

/-- The taps that called `Auth.signIn`, or will. -/
def taken (s : Accounts) : List ℕ := s.signIns ++ s.checked.map (·.tap)

/-- The users node after an event. -/
def written (F : Foundation) (s : Accounts) (e : Event) : Table Uid Record :=
  ((step F s e).map (·.users)).getD s.users

/-- Who is signed in after an event. -/
def signedIn (F : Foundation) (s : Accounts) (e : Event) : Option Uid :=
  ((step F s e).map (·.session)).getD s.session

/-- The logins that an event starts again, by a change of the users node that leaves the
result of their query non-empty. -/
def restarted (F : Foundation) (s : Accounts) (e : Event) : List LoginListener :=
  ((s.raised (s.written F e)).filter (·.2)).map (·.1)

theorem written_eq (h : step F s e = some s') : s.written F e = s'.users := by
  simp [written, h]

theorem signedIn_eq (h : step F s e = some s') : s.signedIn F e = s'.session := by
  simp [signedIn, h]

theorem raised_self (s : Accounts) : s.raised s.users = [] := by
  simp [raised]

/-- What a step does to the logins. -/
inductive Moves (s : Accounts) (e : Event) (s' : Accounts) : Prop
  | tap (email password : String) (event : e = .loginTap email password)
      (eq : s' = s.loginUser email password)
  | deliver (i : ℕ) (p : LoginListener × Bool) (get : s.snapshots[i]? = some p)
      (eq : s' = { s with snapshots := s.snapshots.eraseIdx i }.loginSnapshot p.1 p.2)
  | quiet (snapshots : s'.snapshots = s.snapshots ++ s.raised s'.users)
      (listeners : s'.listeners = s.listeners) (signIns : s'.signIns = s.signIns)
      (taps : s'.taps = s.taps) (signingIn : ∀ l ∈ s'.signingIn, l ∈ s.signingIn)

theorem moves_same (s : Accounts) (e : Event) : Moves s e s :=
  .quiet (by simp [raised_self]) rfl rfl rfl fun _ hl => hl

theorem moves_shows (s : Accounts) (e : Event) (n : Option ℕ) (es : List Effect) :
    Moves s e (s.shows n es) :=
  .quiet (by simp [shows, raised_self]) rfl rfl rfl fun _ hl => hl

theorem signingIn_call (s : Accounts) {op : Operation} (hop : ∀ l, op ≠ .signIn l) :
    (s.call op).signingIn = s.signingIn := by
  cases op with
  | signIn l => exact absurd rfl (hop l)
  | createUser | updatePassword | delete => simp [signingIn, call, List.filterMap_append]

theorem moves_call (s : Accounts) (e : Event) {op : Operation} (hop : ∀ l, op ≠ .signIn l) :
    Moves s e (s.call op) :=
  .quiet (by simp [call, raised_self]) rfl rfl rfl fun _ hl => signingIn_call s hop ▸ hl

theorem moves_shows_call (s : Accounts) (e : Event) (n : Option ℕ) (es : List Effect)
    {op : Operation} (hop : ∀ l, op ≠ .signIn l) : Moves s e ((s.shows n es).call op) :=
  .quiet (by simp [shows, call, raised_self]) rfl rfl rfl fun _ hl =>
    signingIn_call (s.shows n es) hop ▸ hl

/-- An event that the `i`-th operation completes with. -/
def Event.Completes (i : ℕ) (e : Event) : Prop :=
  (∃ uid, e = .succeed i uid) ∨ (∃ error, e = .fail i error) ∨
    ∃ uid error, e = .failLate i uid error

/-- An operation completes once, with what the backend has made of the accounts and the session;
a sign-up completes with the account it adds. -/
theorem completes_cases {i : ℕ} (he : e.Completes i) (h : step F s e = some s') :
    ∃ n op accounts session user error, s.operations[i]? = some (n, op) ∧
      s' = { s with accounts, session }.complete i n op user error ∧
      ∀ email password username uid, op = .createUser email password username →
        user = some uid → e = .succeed i uid := by
  obtain ⟨uid, rfl⟩ | ⟨error, rfl⟩ | ⟨uid, error, rfl⟩ := he
  · obtain ⟨⟨n, op⟩, hop, h⟩ := Option.bind_eq_some_iff.1 h
    obtain ⟨r, hr, rfl⟩ := Option.map_eq_some_iff.1 h
    refine ⟨n, op, r.1, r.2.1, r.2.2, none, hop, rfl, ?_⟩
    rintro email password username uid' rfl huser
    simp only [accept] at hr
    split_ifs at hr
    cases hr
    rw [Option.some.inj huser]
  · obtain ⟨⟨n, op⟩, hop, rfl⟩ := Option.map_eq_some_iff.1 h
    exact ⟨n, op, s.accounts, s.session, none, some error, hop, rfl, by simp⟩
  · obtain ⟨⟨n, op⟩, hop, h⟩ := Option.bind_eq_some_iff.1 h
    obtain ⟨r, -, rfl⟩ := Option.map_eq_some_iff.1 h
    exact ⟨n, op, _, _, none, some error, hop, rfl, by simp⟩

@[simp] theorem completes_succeed (i : ℕ) (uid : Uid) : (Event.succeed i uid).Completes i :=
  .inl ⟨uid, rfl⟩

@[simp] theorem completes_fail (i : ℕ) (error : String) : (Event.fail i error).Completes i :=
  .inr (.inl ⟨error, rfl⟩)

@[simp] theorem completes_failLate (i : ℕ) (uid : Uid) (error : String) :
    (Event.failLate i uid error).Completes i := .inr (.inr ⟨uid, error, rfl⟩)

theorem moves_complete (s : Accounts) (e : Event) (accounts : List Account)
    (session : Option Uid) (i n : ℕ) (op : Operation) (user : Option Uid)
    (error : Option String) :
    Moves s e ({ s with accounts, session }.complete i n op user error) := by
  refine .quiet rfl rfl rfl rfl fun l hl => ?_
  obtain ⟨o, ho, hsome⟩ := List.mem_filterMap.1 hl
  exact List.mem_filterMap.2 ⟨o, List.mem_of_mem_eraseIdx ho, hsome⟩

theorem step_moves (h : step F s e = some s') : Moves s e s' := by
  cases e with
  | loginTap email password =>
    cases h
    split_ifs
    · exact moves_shows ..
    · exact .tap email password rfl rfl
  | signUpTap email password username =>
    cases h
    split_ifs
    · exact moves_shows ..
    · exact moves_shows_call s _ _ _ (by simp)
  | googleSignIn uid =>
    cases h
    exact .quiet (by simp [shows, raised_self]) rfl rfl rfl fun _ hl => hl
  | logOut throws =>
    cases h
    unfold logOutUser
    split_ifs
    · exact moves_same ..
    · exact .quiet (by simp [shows, raised_self]) rfl rfl rfl fun _ hl => hl
  | updateUserInfo username title repo =>
    cases h
    unfold updateUserInfo
    split
    · exact moves_same ..
    · exact .quiet rfl rfl rfl rfl fun _ hl => hl
  | updatePassword newPassword =>
    cases h
    unfold updatePassword
    split
    · exact moves_same ..
    · exact moves_call s _ (by simp)
  | deleteAccount =>
    cases h
    unfold handleDeleteAccount
    split
    · exact moves_shows ..
    · exact moves_shows_call s _ _ _ (by simp)
  | remoteUsers uid dict =>
    simp only [step] at h
    split at h
    · cases h; exact .quiet rfl rfl rfl rfl fun _ hl => hl
    · split_ifs at h
      cases h
      exact .quiet rfl rfl rfl rfl fun _ hl => hl
  | deliver i =>
    obtain ⟨p, hp, rfl⟩ := Option.map_eq_some_iff.1 h
    exact .deliver i p hp rfl
  | succeed i | fail i | failLate i =>
    obtain ⟨n, op, accounts, session, user, error, -, rfl, -⟩ := completes_cases (i := i) (by simp) h
    exact moves_complete ..

/-- The session an event opens. -/
def opens (F : Foundation) (s : Accounts) : Event → Option Uid
  | .googleSignIn uid => some uid
  | .succeed i uid => s.operations[i]?.bind fun op => (s.accept F uid op.2).bind fun r => r.2.2
  | _ => none

/-- The account that a sign-up adds. -/
def signsUp (s : Accounts) : Event → Option Uid
  | .succeed i uid | .failLate i uid _ =>
    match s.operations[i]? with
    | some (_, .createUser ..) => some uid
    | _ => none
  | _ => none

/-- What a step does to the session and the accounts: it opens a session, or closes the one
there is, or leaves it; and it adds no account but the one that signs up. -/
structure Holders (F : Foundation) (s : Accounts) (e : Event) (s' : Accounts) : Prop where
  session : s'.session = s.session ∨ s'.session = none ∨
    s.opens F e ≠ none ∧ s'.session = s.opens F e
  accounts : ∀ a' ∈ s'.accounts,
    (∃ a ∈ s.accounts, a.uid = a'.uid ∧ a.email = a'.email) ∨ s.signsUp e = some a'.uid

theorem holders_same (hsession : s'.session = s.session ∨ s'.session = none)
    (haccounts : s'.accounts = s.accounts) : Holders F s e s' where
  session := hsession.imp_right .inl
  accounts a' ha' := .inl ⟨a', haccounts ▸ ha', rfl, rfl⟩

/-- What the backend does when it accepts: a session is opened for the user it completes with. -/
theorem accept_cases {uid : Uid} {op : Operation} {r : List Account × Option Uid × Option Uid}
    (hr : s.accept F uid op = some r) :
    (∀ a' ∈ r.1, (∃ a ∈ s.accounts, a.uid = a'.uid ∧ a.email = a'.email) ∨
        a'.uid = uid ∧ ∃ email password username, op = .createUser email password username) ∧
      (r.2.1 = r.2.2 ∧ r.2.2 ≠ none ∨ r.2.2 = none ∧ (r.2.1 = s.session ∨ r.2.1 = none)) := by
  have hsame : ∀ a' ∈ s.accounts, ∃ a ∈ s.accounts, a.uid = a'.uid ∧ a.email = a'.email :=
    fun a' ha' => ⟨a', ha', rfl, rfl⟩
  cases op with
  | createUser email password username =>
    simp only [accept] at hr
    split_ifs at hr
    cases hr
    refine ⟨fun a' ha' => ?_, .inl ⟨rfl, by simp⟩⟩
    rcases List.mem_append.1 ha' with ha' | ha'
    · exact .inl (hsame a' ha')
    · exact .inr ⟨congrArg Account.uid (List.mem_singleton.1 ha'), email, password, username, rfl⟩
  | signIn l =>
    obtain ⟨a, -, hr⟩ := Option.bind_eq_some_iff.1 hr
    split_ifs at hr
    cases hr
    exact ⟨fun a' ha' => .inl (hsame a' ha'), .inl ⟨rfl, by simp⟩⟩
  | updatePassword u password =>
    cases hr
    refine ⟨fun a' ha' => ?_, .inr ⟨rfl, .inl rfl⟩⟩
    obtain ⟨a, ha, rfl⟩ := List.mem_map.1 ha'
    exact .inl ⟨a, ha, by split_ifs <;> rfl, by split_ifs <;> rfl⟩
  | delete u =>
    cases hr
    refine ⟨fun a' ha' => .inl (hsame a' (List.mem_of_mem_filter ha')), .inr ⟨rfl, ?_⟩⟩
    by_cases hu : s.session = some u
    · exact .inr (if_pos hu)
    · exact .inl (if_neg hu)

theorem holders_succeed {i n : ℕ} {uid : Uid} {op : Operation}
    {r : List Account × Option Uid × Option Uid} (hop : s.operations[i]? = some (n, op))
    (hr : s.accept F uid op = some r) :
    Holders F s (.succeed i uid)
      ({ s with accounts := r.1, session := r.2.1 }.complete i n op r.2.2 none) := by
  have hopens : s.opens F (.succeed i uid) = r.2.2 := by simp [opens, hop, hr]
  obtain ⟨haccounts, hsession⟩ := accept_cases hr
  constructor
  · rcases hsession with ⟨hsession, hne⟩ | ⟨-, hsession⟩
    · exact .inr (.inr (hopens.symm ▸ ⟨hne, hsession⟩))
    · exact hsession.imp_right .inl
  · intro a' ha'
    rcases haccounts a' ha' with hold | ⟨rfl, email, password, username, rfl⟩
    · exact .inl hold
    · exact .inr (by simp [signsUp, hop])

/-- The user of a call that ends in an error is not handed over. -/
theorem holders_failLate {i n : ℕ} {uid : Uid} {error : String} {op : Operation}
    {r : List Account × Option Uid × Option Uid} (hop : s.operations[i]? = some (n, op))
    (hr : s.accept F uid op = some r) :
    Holders F s (.failLate i uid error)
      ({ s with
        accounts := r.1
        session := if r.2.2 = none then r.2.1 else s.session }.complete i n op none
          (some error)) := by
  obtain ⟨haccounts, hsession⟩ := accept_cases hr
  constructor
  · change (if r.2.2 = none then r.2.1 else s.session) = s.session ∨
      (if r.2.2 = none then r.2.1 else s.session) = none ∨ _
    split_ifs with hnone
    · rcases hsession with ⟨-, hne⟩ | ⟨-, hsession⟩
      · exact absurd hnone hne
      · exact hsession.imp_right .inl
    · exact .inl rfl
  · intro a' ha'
    rcases haccounts a' ha' with hold | ⟨rfl, email, password, username, rfl⟩
    · exact .inl hold
    · exact .inr (by simp [signsUp, hop])

theorem step_holders (h : step F s e = some s') : Holders F s e s' := by
  cases e with
  | loginTap | signUpTap =>
    cases h
    split_ifs <;> exact holders_same (.inl rfl) rfl
  | googleSignIn uid =>
    cases h
    exact ⟨.inr (.inr ⟨by simp [opens], rfl⟩), fun a' ha' => .inl ⟨a', ha', rfl, rfl⟩⟩
  | logOut throws =>
    cases h
    unfold logOutUser
    split_ifs
    · exact holders_same (.inl rfl) rfl
    · exact holders_same (.inr rfl) rfl
  | updateUserInfo =>
    cases h
    unfold updateUserInfo
    split <;> exact holders_same (.inl rfl) rfl
  | updatePassword =>
    cases h
    unfold updatePassword
    split <;> exact holders_same (.inl rfl) rfl
  | deleteAccount =>
    cases h
    unfold handleDeleteAccount
    split <;> exact holders_same (.inl rfl) rfl
  | remoteUsers uid dict =>
    simp only [step] at h
    split at h
    · cases h; exact holders_same (.inl rfl) rfl
    · split_ifs at h
      cases h
      exact holders_same (.inl rfl) rfl
  | deliver i =>
    obtain ⟨p, -, rfl⟩ := Option.map_eq_some_iff.1 h
    unfold loginSnapshot
    split_ifs <;> exact holders_same (.inl rfl) rfl
  | succeed i uid =>
    obtain ⟨⟨n, op⟩, hop, h⟩ := Option.bind_eq_some_iff.1 h
    obtain ⟨r, hr, rfl⟩ := Option.map_eq_some_iff.1 h
    exact holders_succeed hop hr
  | fail i error =>
    obtain ⟨op, -, rfl⟩ := Option.map_eq_some_iff.1 h
    exact holders_same (.inl rfl) rfl
  | failLate i uid error =>
    obtain ⟨⟨n, op⟩, hop, h⟩ := Option.bind_eq_some_iff.1 h
    obtain ⟨r, hr, rfl⟩ := Option.map_eq_some_iff.1 h
    exact holders_failLate hop hr

/-- What an event may ask of Auth. -/
def Asks (s : Accounts) (e : Event) : Operation → Prop
  | .createUser email password username => e = .signUpTap email password username
  | .signIn l => ∃ i exist, e = .deliver i ∧ s.snapshots[i]? = some (l, exist)
  | .updatePassword uid _ => s.session = some uid
  | .delete uid => e = .deleteAccount ∧ s.session = some uid

theorem operations_step (h : step F s e = some s') {o : ℕ × Operation} (ho : o ∈ s'.operations) :
    o ∈ s.operations ∨ s.Asks e o.2 := by
  have hcall : ∀ (t : Accounts) (op : Operation), t.operations = s.operations → s.Asks e op →
      o ∈ (t.call op).operations → o ∈ s.operations ∨ s.Asks e o.2 := by
    intro t op ht hop ho
    rcases List.mem_append.1 ho with ho | ho
    · exact .inl (ht ▸ ho)
    · rw [List.mem_singleton.1 ho]
      exact .inr hop
  cases e with
  | loginTap =>
    cases h
    split_ifs at ho <;> exact .inl ho
  | signUpTap email password username =>
    cases h
    split_ifs at ho
    · exact .inl ho
    · exact hcall (s.shows _ _) (.createUser email password username) rfl rfl ho
  | googleSignIn =>
    cases h
    exact .inl ho
  | logOut =>
    cases h
    unfold logOutUser at ho
    split_ifs at ho <;> exact .inl ho
  | updateUserInfo =>
    cases h
    unfold updateUserInfo at ho
    split at ho <;> exact .inl ho
  | updatePassword newPassword =>
    cases h
    unfold updatePassword at ho
    split at ho
    · exact .inl ho
    · rename_i uid hs
      exact hcall s (.updatePassword uid newPassword) rfl hs ho
  | deleteAccount =>
    cases h
    unfold handleDeleteAccount at ho
    split at ho
    · exact .inl ho
    · rename_i uid hs
      exact hcall (s.shows _ _) (.delete uid) rfl ⟨rfl, hs⟩ ho
  | remoteUsers uid dict =>
    simp only [step] at h
    split at h
    · cases h
      exact .inl ho
    · split_ifs at h
      cases h
      exact .inl ho
  | deliver i =>
    obtain ⟨⟨l, exist⟩, hp, rfl⟩ := Option.map_eq_some_iff.1 h
    cases exist with
    | false => exact .inl ho
    | true =>
      refine hcall { s with snapshots := s.snapshots.eraseIdx i } (.signIn l) rfl ?_ ho
      exact ⟨i, true, rfl, hp⟩
  | succeed i | fail i | failLate i =>
    obtain ⟨n, op, accounts, session, user, error, -, rfl, -⟩ := completes_cases (i := i) (by simp) h
    exact .inl (List.mem_of_mem_eraseIdx ho)

theorem listeners_step (h : step F s e = some s') :
    (∀ l ∈ s'.listeners, l ∈ s.listeners ∨ e = .loginTap l.email l.password) ∧
      ∀ p ∈ s'.snapshots, p ∈ s.snapshots ∨ p.1 ∈ s'.listeners := by
  cases step_moves h with
  | tap email password he heq =>
    subst he heq
    constructor
    · intro l hl
      refine (List.mem_append.1 hl).imp_right fun hl => ?_
      rw [List.mem_singleton.1 hl]
    · intro p hp
      refine (List.mem_append.1 hp).imp_right fun hp => ?_
      rw [List.mem_singleton.1 hp]
      exact List.mem_append_right _ (List.mem_singleton.2 rfl)
  | deliver i p _ heq =>
    obtain ⟨l, exist⟩ := p
    subst heq
    cases exist <;> exact ⟨fun _ => .inl, fun _ hp => .inl (List.mem_of_mem_eraseIdx hp)⟩
  | quiet hsnapshots hlisteners =>
    refine ⟨fun l hl => .inl (hlisteners ▸ hl), fun p hp => ?_⟩
    rw [hsnapshots] at hp
    refine (List.mem_append.1 hp).imp_right fun hp => ?_
    obtain ⟨l, hl, heq⟩ := List.mem_filterMap.1 hp
    split_ifs at heq
    rw [← Option.some.inj heq, hlisteners]
    exact hl

end Accounts

end DevPost
