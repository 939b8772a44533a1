import DevPost.Lib.Drain
import DevPost.Sanity.Accounts

/-! What the answers of the backend do. A completion writes the record that its call was made
for and no other, so a record changes only by the hand of its account, and one that was deleted
stays away. The listeners of `loginUser` are never removed, but they answer writes only: once
nobody acts, the events and the completions come to an end. -/

namespace DevPost

open Lib FirebaseServices

namespace Accounts

variable {F : Foundation} {s s' s₀ s₁ : Accounts} {e : Event} {u : Uid} {evs : List Event}

/-- The record that an event writes or removes is the one of `u`. -/
def Touches (u : Uid) (s : Accounts) : Event → Prop
  | .updateUserInfo .. => s.session = some u
  | .remoteUsers uid _ => uid = u
  | .succeed i uid =>
    match s.operations[i]? with
    | some (_, .createUser ..) => uid = u
    | some (_, .delete uid') => uid' = u
    | _ => False
  | .fail i _ | .failLate i _ _ =>
    match s.operations[i]? with
    | some (_, .delete uid) => uid = u
    | _ => False
  | _ => False

/-- A completion touches the record of the account that its operation deletes or signs up. -/
theorem touches_completes {i n : ℕ} {op : Operation} (he : e.Completes i)
    (hop : s.operations[i]? = some (n, op)) : Touches u s e ↔ op = .delete u ∨
      e = .succeed i u ∧ ∃ email password username, op = .createUser email password username := by
  obtain ⟨uid, rfl⟩ | ⟨error, rfl⟩ | ⟨uid, error, rfl⟩ := he <;> cases op <;>
    simp [Touches, hop]

theorem lookup_completion (users : Table Uid Record) (user : Option Uid) (error : Option String)
    (op : Operation)
    (hcreate : ∀ email password username, op = .createUser email password username →
      user ≠ some u) (hdelete : op ≠ .delete u) :
    (completion users user error op).2.lookup u = users.lookup u := by
  cases op with
  | createUser email password username =>
    cases user with
    | none => rfl
    | some uid =>
      have hne : u ≠ uid := fun he => hcreate _ _ _ rfl (he ▸ rfl)
      exact Table.lookup_set_of_ne _ _ hne
  | signIn l => cases user <;> rfl
  | updatePassword => rfl
  | delete uid =>
    have hne : u ≠ uid := fun he => hdelete (he ▸ rfl)
    exact Table.lookup_erase_of_ne _ hne

theorem lookup_step (h : step F s e = some s') (hu : ¬ Touches u s e) :
    s'.users.lookup u = s.users.lookup u := by
  cases e with
  | loginTap | signUpTap =>
    cases h
    split_ifs <;> rfl
  | googleSignIn =>
    cases h
    rfl
  | logOut =>
    cases h
    unfold logOutUser
    split_ifs <;> rfl
  | updateUserInfo username title repo =>
    cases h
    unfold updateUserInfo
    split
    · rfl
    · rename_i uid hs
      have hne : u ≠ uid := fun he => hu (he ▸ hs)
      exact Table.lookup_set_of_ne _ _ hne
  | updatePassword =>
    cases h
    unfold updatePassword
    split <;> rfl
  | deleteAccount =>
    cases h
    unfold handleDeleteAccount
    split <;> rfl
  | remoteUsers uid dict =>
    have hne : u ≠ uid := fun he => hu he.symm
    simp only [step] at h
    split at h
    · cases h
      exact Table.lookup_erase_of_ne _ hne
    · split_ifs at h
      cases h
      exact Table.lookup_set_of_ne _ _ hne
  | deliver i =>
    obtain ⟨p, -, rfl⟩ := Option.map_eq_some_iff.1 h
    unfold loginSnapshot
    split_ifs <;> rfl
  | succeed i | fail i | failLate i =>
    obtain ⟨n, op, accounts, session, user, error, hop, rfl, hcreate⟩ :=
      completes_cases (i := i) (by simp) h
    rw [touches_completes (i := i) (by simp) hop, not_or] at hu
    refine lookup_completion s.users user error op ?_ hu.1
    exact fun email password username he huser =>
      hu.2 ⟨hcreate _ _ _ _ he huser, email, password, username, he⟩

theorem session_createUser {i n : ℕ} {uid : Uid} {email password username : String}
    (hop : s.operations[i]? = some (n, .createUser email password username))
    (h : step F s (.succeed i uid) = some s') : s'.session = some uid := by
  simp only [step, hop, Option.bind_some] at h
  obtain ⟨r, hr, rfl⟩ := Option.map_eq_some_iff.1 h
  simp only [accept] at hr
  split_ifs at hr
  cases hr
  rfl

theorem touches_cases (h : step F s e = some s') (hnone : ∀ o ∈ s.operations, o.2 ≠ .delete u)
    (ht : Touches u s e) :
    s.session = some u ∨ s'.session = some u ∨ ∃ dict, e = .remoteUsers u dict := by
  cases e with
  | updateUserInfo => exact .inl ht
  | remoteUsers uid dict =>
    obtain rfl : uid = u := ht
    exact .inr (.inr ⟨dict, rfl⟩)
  | succeed i | fail i | failLate i =>
    obtain ⟨n, op, -, -, -, -, hop, -⟩ := completes_cases (i := i) (by simp) h
    rw [touches_completes (i := i) (by simp) hop] at ht
    rcases ht with rfl | ⟨he, email, password, username, rfl⟩
    · exact absurd rfl (hnone _ (List.mem_of_getElem? hop))
    · exact .inr (.inl (session_createUser hop (he ▸ h)))
  | loginTap | signUpTap | googleSignIn | logOut | updatePassword | deleteAccount | deliver =>
    exact ht.elim

/-- A step leaves the record, and no deletion of it waits, or it is in a session of the account or
another device's. -/
theorem unchanged_step (h : step F s e = some s') (hnone : ∀ o ∈ s.operations, o.2 ≠ .delete u) :
    (s'.users.lookup u = s.users.lookup u ∧ ∀ o ∈ s'.operations, o.2 ≠ .delete u) ∨
      s.session = some u ∨ s'.session = some u ∨ ∃ dict, e = .remoteUsers u dict := by
  by_cases hsession : s.session = some u
  · exact .inr (.inl hsession)
  by_cases ht : Touches u s e
  · exact .inr (touches_cases h hnone ht)
  · refine .inl ⟨lookup_step h ht, fun o ho hdelete => ?_⟩
    rcases operations_step h ho with ho | hask
    · exact hnone o ho hdelete
    · rw [hdelete] at hask
      exact hsession hask.2

section Changed

variable {accounts : List Account} {users : Table Uid Record} {session : Option Uid}

/-- Whose hand a step is that changes the record of `u`. -/
inductive Hand (F : Foundation) (accounts : List Account) (users : Table Uid Record)
    (session : Option Uid) (evs : List Event) (u : Uid) (s : Accounts) (e : Event)
    (s' : Accounts) : Prop
  | profile (username title repo : String) (event : e = .updateUserInfo username title repo)
      (signedIn : s.session = some u)
  | signUp (i n : ℕ) (email password username : String) (event : e = .succeed i u)
      (waiting : s.operations[i]? = some (n, .createUser email password username))
      (signedIn : s'.session = some u)
  | deletion (i n : ℕ) (event : e.Completes i) (waiting : s.operations[i]? = some (n, .delete u))
      (asked : OnceStep (step F) anyStep (launch accounts users session) evs
        fun t a => a = .deleteAccount ∧ t.session = some u)
  | remote (dict : Option Record) (event : e = .remoteUsers u dict)

/-- A deletion that waits was asked for in a session of its account. -/
theorem deletions_run (h : Path (step F) anyStep (launch accounts users session) evs s) :
    ∀ o ∈ s.operations, o.2 = .delete u →
      OnceStep (step F) anyStep (launch accounts users session) evs
        fun t a => a = .deleteAccount ∧ t.session = some u := by
  induction h with
  | nil => simp [launch]
  | @snoc evs s s' e hpath _ hs ih =>
    intro o ho hdelete
    rcases operations_step hs ho with ho | hask
    · exact (ih o ho hdelete).snoc e
    · rw [hdelete] at hask
      exact .now hpath hask

/-- In every run, the step that changes a record is one of its account: a profile that is saved
in its session, the sign-up that opens one, or the end of a deletion that was asked for in one.
Else it is a write of another device. -/
theorem record_changed (h : Path (step F) anyStep (launch accounts users session) evs s)
    (hs : step F s e = some s') (hne : s'.users.lookup u ≠ s.users.lookup u) :
    Hand F accounts users session evs u s e s' := by
  have ht : Touches u s e := not_not.1 fun ht => hne (lookup_step hs ht)
  cases e with
  | updateUserInfo username title repo => exact .profile username title repo rfl ht
  | remoteUsers uid dict =>
    obtain rfl : uid = u := ht
    exact .remote dict rfl
  | succeed i | fail i | failLate i =>
    obtain ⟨n, op, -, -, -, -, hop, -⟩ := completes_cases (i := i) (by simp) hs
    rw [touches_completes (i := i) (by simp) hop] at ht
    rcases ht with rfl | ⟨he, email, password, username, rfl⟩
    · exact .deletion i n (by simp) hop (deletions_run h _ (List.mem_of_getElem? hop) rfl)
    · exact .signUp i n email password username he hop (session_createUser hop (he ▸ hs))
  | loginTap | signUpTap | googleSignIn | logOut | updatePassword | deleteAccount | deliver =>
    exact ht.elim

/-- A deletion is refused when another account has signed in. -/
theorem record_changed_run :
    let accounts : List Account := [⟨"a", "ann@dev.io", "secret"⟩]
    let users : Table Uid Record :=
      Table.ofList [("a", Table.ofList (createUserValues "ann@dev.io" "ann"))]
    let evs : List Event :=
      [.loginTap "ann@dev.io" "secret", .deliver 0, .succeed 0 "", .deleteAccount, .logOut false,
        .googleSignIn "g"]
    ∃ s s', Path (step .ascii) anyStep (launch accounts users none) evs s ∧
      step .ascii s (.fail 0 "log in again") = some s' ∧ s.session = some "g" ∧
      s'.users.lookup "a" ≠ s.users.lookup "a" ∧
      Hand .ascii accounts users none evs "a" s (.fail 0 "log in again") s' := by
  intro accounts users evs
  have h : Path (step .ascii) anyStep (launch accounts users none) evs _ :=
    .of_exec_get (by decide)
  exact ⟨_, _, h, (Option.some_get (by decide)).symm, by decide, by decide,
    record_changed h (Option.some_get (by decide)).symm (by decide)⟩

end Changed

section Deleted

def Operation.signsUp : Operation → Bool
  | .createUser .. => true
  | _ => false

/-- Nobody brings an account back: its uid goes to no new account, no other device writes its
record, and no profile is saved in a session that is left of it. -/
def Unused (u : Uid) (s : Accounts) : Event → Prop
  | .updateUserInfo .. => s.session ≠ some u
  | .remoteUsers uid dict => uid = u → dict = none
  | .succeed i uid | .failLate i uid _ => ∀ o ∈ s.operations[i]?, o.2.signsUp → uid ≠ u
  | _ => True

instance (u : Uid) (s : Accounts) : (e : Event) → Decidable (Unused u s e)
  | .updateUserInfo .. => inferInstanceAs (Decidable (s.session ≠ some u))
  | .remoteUsers uid dict => inferInstanceAs (Decidable (uid = u → dict = none))
  | .succeed i uid | .failLate i uid _ =>
    inferInstanceAs (Decidable (∀ o ∈ s.operations[i]?, o.2.signsUp → uid ≠ u))
  | .loginTap .. | .signUpTap .. | .googleSignIn _ | .logOut _ | .updatePassword _
  | .deleteAccount | .deliver _ | .fail .. => .isTrue trivial

/-- The record is gone, and Auth does not know the account. -/
structure Gone (u : Uid) (s : Accounts) : Prop where
  record : s.users.lookup u = none
  account : ∀ a ∈ s.accounts, a.uid ≠ u

/-- The backend accepts the `i`-th operation. -/
def Event.Accepts (i : ℕ) (e : Event) : Prop :=
  ∃ uid, e = .succeed i uid ∨ ∃ error, e = .failLate i uid error

theorem gone_deleted {i n : ℕ} (hop : s.operations[i]? = some (n, .delete u)) (he : e.Accepts i)
    (h : step F s e = some s') : Gone u s' := by
  have haccounts : ∀ a ∈ s.accounts.filter (·.uid ≠ u), a.uid ≠ u := fun a ha => by
    simpa using (List.mem_filter.1 ha).2
  obtain ⟨uid, rfl | ⟨error, rfl⟩⟩ := he
  · simp only [step, hop, Option.bind_some] at h
    obtain ⟨r, hr, rfl⟩ := Option.map_eq_some_iff.1 h
    cases hr
    exact ⟨Table.lookup_erase_self .., haccounts⟩
  · simp only [step, hop, Option.bind_some] at h
    obtain ⟨r, hr, rfl⟩ := Option.map_eq_some_iff.1 h
    cases hr
    exact ⟨Table.lookup_erase_self .., haccounts⟩

theorem Unused.signsUp_ne (hok : Unused u s e) : s.signsUp e ≠ some u := by
  intro hu
  cases e with
  | succeed | failLate =>
    simp only [signsUp] at hu
    split at hu
    · rename_i hop
      exact hok _ hop rfl (Option.some.inj hu)
    · cases hu
  | loginTap | signUpTap | googleSignIn | logOut | updateUserInfo | updatePassword | deleteAccount
  | remoteUsers | deliver | fail => cases hu

/-- What is written to the record of a deleted account is another deletion. -/
theorem Gone.record_step (hg : Gone u s) (h : step F s e = some s') (hok : Unused u s e) :
    s'.users.lookup u = none := by
  by_cases ht : Touches u s e
  swap
  · exact (lookup_step h ht).trans hg.record
  cases e with
  | updateUserInfo => exact absurd ht hok
  | remoteUsers uid dict =>
    obtain rfl : uid = u := ht
    obtain rfl : dict = none := hok rfl
    cases h
    exact Table.lookup_erase_self ..
  | succeed i | fail i | failLate i =>
    obtain ⟨n, op, accounts, session, user, error, hop, rfl, -⟩ :=
      completes_cases (i := i) (by simp) h
    rw [touches_completes (i := i) (by simp) hop] at ht
    rcases ht with rfl | ⟨he, email, password, username, rfl⟩
    · exact Table.lookup_erase_self ..
    · rw [he] at hok
      exact absurd rfl (hok _ hop rfl)
  | loginTap | signUpTap | googleSignIn | logOut | updatePassword | deleteAccount | deliver =>
    exact ht.elim

theorem gone_step (h : step F s e = some s') (hok : Unused u s e) (hg : Gone u s) :
    Gone u s' := by
  refine ⟨hg.record_step h hok, fun a' ha' => ?_⟩
  rcases (step_holders h).accounts a' ha' with ⟨a, ha, huid, -⟩ | hsigned
  · exact huid ▸ hg.account a ha
  · rintro rfl
    exact hok.signsUp_ne hsigned

/-- An account whose deletion the backend has accepted stays deleted, in whatever order the taps,
the listeners left behind, the pending sign-ins and further deletions take their course: it has
no record and Auth does not know it, whoever is signed in. -/
theorem deleted_stays {i n : ℕ} (hop : s₀.operations[i]? = some (n, .delete u))
    (he : e.Accepts i) (hdelete : step F s₀ e = some s₁)
    (h : Path (step F) (Unused u) s₁ evs s) : Gone u s :=
  h.invariant (Gone u) (gone_deleted hop he hdelete) fun _ _ _ hs hok h => gone_step h hok hs

/-- The account is deleted while a second login to it waits for Auth. -/
theorem deleted_stays_run :
    ∃ s₀ s₁ s, Path (step .ascii) anyStep
        (launch [⟨"a", "ann@dev.io", "secret"⟩]
          (Table.ofList [("a", Table.ofList (createUserValues "ann@dev.io" "ann"))]) none)
        [.loginTap "ann@dev.io" "secret", .deliver 0, .succeed 0 "", .deleteAccount,
          .loginTap "ann@dev.io" "secret", .deliver 0] s₀ ∧
      step .ascii s₀ (.succeed 0 "") = some s₁ ∧
      Path (step .ascii) (Unused "a") s₁
        [.updateUserInfo "anna" "iOS" "ann/app", .deliver 0, .deliver 0, .fail 0 "no user",
          .googleSignIn "a", .signUpTap "ann@dev.io" "secret" "ann", .succeed 0 "b"] s ∧
      Gone "a" s := by
  obtain ⟨s₀, hpre, hop, s₁, hdelete, s, h⟩ : ∃ s₀, Path (step .ascii) anyStep
        (launch [⟨"a", "ann@dev.io", "secret"⟩]
          (Table.ofList [("a", Table.ofList (createUserValues "ann@dev.io" "ann"))]) none)
        [.loginTap "ann@dev.io" "secret", .deliver 0, .succeed 0 "", .deleteAccount,
          .loginTap "ann@dev.io" "secret", .deliver 0] s₀ ∧
      s₀.operations[0]? = some (1, .delete "a") ∧
      ∃ s₁, step .ascii s₀ (.succeed 0 "") = some s₁ ∧
        ∃ s, Path (step .ascii) (Unused "a") s₁
          [.updateUserInfo "anna" "iOS" "ann/app", .deliver 0, .deliver 0, .fail 0 "no user",
            .googleSignIn "a", .signUpTap "ann@dev.io" "secret" "ann", .succeed 0 "b"] s :=
    ⟨_, .of_exec_get (by decide), by decide, _, (Option.some_get (by decide)).symm, _,
      .of_exec_get (by decide)⟩
  exact ⟨s₀, s₁, s, hpre, hdelete, h, deleted_stays hop ⟨"", .inl rfl⟩ hdelete h⟩

end Deleted

section Answers

/-- The backend answers: a value event arrives, or an operation completes. -/
def Event.answers : Event → Prop
  | .deliver _ | .succeed .. | .fail .. | .failLate .. => True
  | _ => False

/-- A completion that writes can raise an event for each of `n` listeners. -/
def Operation.weight (n : ℕ) : Operation → ℕ
  | .createUser .. | .delete _ => 2 * n + 1
  | .signIn _ | .updatePassword .. => 1

/-- An event can cause a sign-in. -/
def weight (s : Accounts) : ℕ :=
  2 * s.snapshots.length + (s.operations.map fun o => o.2.weight s.listeners.length).sum

/-- Nothing waits for an answer. -/
def Settled (s : Accounts) : Prop := s.snapshots = [] ∧ s.operations = []

theorem Operation.weight_pos (n : ℕ) (op : Operation) : 0 < op.weight n := by
  cases op <;> simp [weight]

theorem weight_eq_zero : s.weight = 0 ↔ s.Settled := by
  unfold weight Settled
  cases s.operations with
  | nil =>
    rw [← List.length_eq_zero_iff, List.map_nil, List.sum_nil]
    simp only [and_true]
    omega
  | cons o os =>
    have hpos := o.2.weight_pos s.listeners.length
    simp only [List.map_cons, List.sum_cons, reduceCtorEq, and_false, iff_false]
    omega

theorem length_raised (s : Accounts) (users : Table Uid Record) :
    (s.raised users).length ≤ s.listeners.length := List.length_filterMap_le _ _

/-- A completion takes its operation away and raises fewer events than it weighed. -/
theorem weight_complete {t : Accounts} {i n : ℕ} {op : Operation} {user : Option Uid}
    {error : Option String} (hop : s.operations[i]? = some (n, op))
    (hlisteners : t.listeners = s.listeners) (hsnapshots : t.snapshots = s.snapshots)
    (hoperations : t.operations = s.operations) :
    (t.complete i n op user error).weight < s.weight := by
  obtain ⟨hi, hget⟩ := List.getElem?_eq_some_iff.1 hop
  have hsum := ((List.getElem_cons_eraseIdx_perm hi).map
    fun o => o.2.weight s.listeners.length).sum_eq
  rw [List.map_cons, List.sum_cons, hget] at hsum
  change op.weight s.listeners.length + _ = _ at hsum
  set users := (completion t.users user error op).2
  have hraised : 2 * (t.raised users).length < op.weight s.listeners.length := by
    have hlen := t.length_raised users
    rw [hlisteners] at hlen
    have hsame : users = t.users → (t.raised users).length = 0 := fun h => by
      rw [h, raised_self]
      rfl
    cases op with
    | createUser | delete =>
      simp only [Operation.weight]
      omega
    | signIn l =>
      rw [hsame (by cases user <;> rfl)]
      exact Nat.one_pos
    | updatePassword =>
      rw [hsame rfl]
      exact Nat.one_pos
  have hweight : (t.complete i n op user error).weight =
      2 * (s.snapshots ++ t.raised users).length +
        ((s.operations.eraseIdx i).map fun o => o.2.weight s.listeners.length).sum := by
    rw [← hsnapshots, ← hlisteners, ← hoperations]
    rfl
  rw [List.length_append] at hweight
  rw [hweight, weight]
  omega

theorem answers_drain : Drains (step F) (fun _ => True) Event.answers weight where
  keeps _ _ _ _ _ _ := trivial
  lighter s e s' _ he h := by
    cases e with
    | deliver i =>
      obtain ⟨⟨l, exist⟩, hp, rfl⟩ := Option.map_eq_some_iff.1 h
      obtain ⟨hi, -⟩ := List.getElem?_eq_some_iff.1 hp
      have hlen := List.length_eraseIdx_of_lt hi
      cases exist <;> simp [loginSnapshot, weight, shows, call, Operation.weight, hlen] <;> omega
    | succeed i | fail i | failLate i =>
      obtain ⟨n, op, accounts, session, user, error, hop, rfl, -⟩ := completes_cases (i := i) (by simp) h
      exact weight_complete hop rfl rfl rfl
    | loginTap | signUpTap | googleSignIn | logOut | updateUserInfo | updatePassword
    | deleteAccount | remoteUsers => exact he.elim
  next s _ hne := by
    cases hs : s.snapshots with
    | cons p ps => exact ⟨.deliver 0, trivial, by simp [step, hs]⟩
    | nil =>
      cases ho : s.operations with
      | cons o os => exact ⟨.fail 0 "", trivial, by simp [step, ho]⟩
      | nil => exact absurd (weight_eq_zero.2 ⟨hs, ho⟩) hne

/-- The listeners of the logins do not keep each other busy: from every state the answers of the
backend come to an end, whatever they are and in whatever order they come, and then no value
event is on its way and no call of Auth is open. -/
theorem answers_end (s : Accounts) :
    (∃ n, ∀ answers s', Path (step F) (fun _ e => e.answers) s answers s' →
        answers.length ≤ n ∧ ((∀ e : Event, e.answers → step F s' e = none) → s'.Settled)) ∧
      ∃ answers s', Path (step F) (fun _ e => e.answers) s answers s' ∧ s'.Settled := by
  have hd := answers_drain (F := F)
  refine ⟨⟨s.weight, fun answers s' hpath => ⟨?_, fun hstuck => ?_⟩⟩, ?_⟩
  · have hlen := (hd.run hpath trivial).2
    omega
  · exact weight_eq_zero.1 (hd.weight_eq_zero hpath trivial hstuck)
  · obtain ⟨answers, s', hpath, hz⟩ : ∃ answers s',
        Path (step F) (fun _ e => e.answers) s answers s' ∧ s'.weight = 0 := hd.ends trivial
    exact ⟨answers, s', hpath, weight_eq_zero.1 hz⟩

end Answers

end Accounts

end DevPost
