import DevPost.Sanity.Accounts

/-! The existence check of `loginUser` against the accounts Auth knows. The check looks
for the email as it was typed at sign-up among the users records. `createUser` writes no record
when it is answered with an error, and `deleteUser` removes the record also when Auth keeps the
account. So the two agree on an account as long as neither has failed for it, and only on one
spelling of its email. -/

namespace DevPost

open Lib FirebaseServices

namespace Accounts

variable {F : Foundation} {s s' : Accounts} {failed : List Uid} {e : Event}

/-- The accounts whose sign-up was answered with an error, or a deletion of which has failed
since they signed up, after an event. -/
def failures (s : Accounts) (failed : List Uid) : Event → List Uid
  | .succeed i uid =>
    match s.operations[i]? with
    | some (_, .createUser ..) => failed.filter (· ≠ uid)
    | _ => failed
  | .fail i _ =>
    match s.operations[i]? with
    | some (_, .delete uid) => uid :: failed
    | _ => failed
  | .failLate i uid _ =>
    match s.operations[i]? with
    | some (_, .createUser ..) => uid :: failed
    | _ => failed
  | _ => failed

/-- The machine with its failed sign-ups and deletions on record. -/
def recorded (F : Foundation) (s : Accounts × List Uid) (e : Event) :
    Option (Accounts × List Uid) :=
  (step F s.1 e).map (·, s.1.failures s.2 e)

/-- Only the calls of `FirebaseServices` write the users node. -/
def ByServices (_ : Accounts × List Uid) : Event → Prop
  | .remoteUsers .. => False
  | _ => True

instance (s : Accounts × List Uid) (e : Event) : Decidable (ByServices s e) := by
  unfold ByServices
  split <;> infer_instance

/-- The accounts with their emails as they were typed at sign-up. -/
def holders (s : Accounts) : List (Uid × String) := s.accounts.map fun a => (a.uid, a.email)

/-- The record an account is found by. -/
def Finds (users : Table Uid Record) (uid : Uid) (email : String) : Prop :=
  ∃ r, users.lookup uid = some r ∧ r.lookup "email" = some (.string email)

theorem query_ne_nil {users : Table Uid Record} {email : String} :
    query users email ≠ [] ↔ ∃ uid, Finds users uid email := by
  simp only [query, ne_eq, List.filter_eq_nil_iff, not_forall, decide_eq_true_eq, not_not, Finds,
    Table.lookup_eq_some]
  constructor
  · rintro ⟨⟨uid, r⟩, hmem, hmail⟩
    exact ⟨uid, r, hmem, hmail⟩
  · rintro ⟨uid, r, hmem, hmail⟩
    exact ⟨(uid, r), hmem, hmail⟩

/-- The users node and the accounts agree, but for the accounts in `failed`. -/
structure Synced (F : Foundation) (holders : List (Uid × String)) (users : Table Uid Record)
    (failed : List Uid) : Prop where
  found : ∀ uid email, (uid, email) ∈ holders → uid ∉ failed → Finds users uid email
  owned : ∀ uid email, Finds users uid email → (uid, email) ∈ holders ∧ uid ∉ failed
  uids : ∀ h ∈ holders, ∀ h' ∈ holders, h.1 = h'.1 → h = h'
  emails : ∀ h ∈ holders, ∀ h' ∈ holders, F.lowercased h.2 = F.lowercased h'.2 → h = h'
  filled : ∀ h ∈ holders, h.2 ≠ ""

section Synced

variable {holders : List (Uid × String)} {users : Table Uid Record}

theorem finds_set_of_ne {uid uid' : Uid} (r : Record) (email : String) (h : uid' ≠ uid) :
    Finds (users.set uid r) uid' email ↔ Finds users uid' email := by
  simp [Finds, Table.lookup_set_of_ne users r h]

theorem finds_set_self (uid : Uid) (r : Record) (email : String) :
    Finds (users.set uid r) uid email ↔ r.lookup "email" = some (.string email) := by
  simp [Finds]

theorem finds_erase (uid uid' : Uid) (email : String) :
    Finds (users.erase uid) uid' email ↔ uid' ≠ uid ∧ Finds users uid' email := by
  by_cases h : uid' = uid
  · simp [Finds, h]
  · simp [Finds, Table.lookup_erase_of_ne users h, h]

theorem email_createUser (email username : String) :
    (Table.ofList (createUserValues email username) : Record).lookup "email" =
      some (.string email) := by
  rw [createUserValues, Table.ofList, lookup_merge_strings]
  rfl

theorem finds_updateUserInfo (uid uid' : Uid) (username title repo email : String) :
    Finds (users.set uid (updateChildValues users uid
      (updateUserInfoValues username title repo))) uid' email ↔ Finds users uid' email := by
  by_cases h : uid' = uid
  · subst h
    rw [finds_set_self, updateChildValues, updateUserInfoValues, lookup_merge_strings]
    have hkey : ([("username", username), ("title", title), ("repo", repo)].reverse.lookup
        "email").map Value.string = none := rfl
    rw [hkey, Option.none_or, Finds]
    cases users.lookup uid' <;> simp
  · exact finds_set_of_ne _ _ h

theorem unique_snoc {β : Type*} {f : Uid × String → β} {a : Uid × String}
    (h : ∀ x ∈ holders, ∀ y ∈ holders, f x = f y → x = y) (ha : ∀ x ∈ holders, f x ≠ f a) :
    ∀ x ∈ holders ++ [a], ∀ y ∈ holders ++ [a], f x = f y → x = y := by
  intro x hx y hy he
  rcases List.mem_append.1 hx with hx | hx <;> rcases List.mem_append.1 hy with hy | hy
  · exact h x hx y hy he
  · cases List.mem_singleton.1 hy
    exact absurd he (ha x hx)
  · cases List.mem_singleton.1 hx
    exact absurd he.symm (ha y hy)
  · rw [List.mem_singleton.1 hx, List.mem_singleton.1 hy]

theorem Synced.signUp (hs : Synced F holders users failed) {uid : Uid} {email : String}
    (username : String) (hfilled : email ≠ "") (huid : ∀ h ∈ holders, h.1 ≠ uid)
    (hmail : ∀ h ∈ holders, F.lowercased h.2 ≠ F.lowercased email) :
    Synced F (holders ++ [(uid, email)])
      (users.set uid (Table.ofList (createUserValues email username)))
      (failed.filter (· ≠ uid)) where
  found u m hm hf := by
    rcases List.mem_append.1 hm with hm | hm
    · have hne : u ≠ uid := huid _ hm
      refine (finds_set_of_ne _ _ hne).2 (hs.found u m hm fun hu => hf ?_)
      exact List.mem_filter.2 ⟨hu, by simpa using hne⟩
    · cases List.mem_singleton.1 hm
      exact (finds_set_self ..).2 (email_createUser ..)
  owned u m hfinds := by
    by_cases hu : u = uid
    · subst hu
      rw [finds_set_self, email_createUser] at hfinds
      cases hfinds
      simp
    · obtain ⟨hm, hf⟩ := hs.owned u m ((finds_set_of_ne _ _ hu).1 hfinds)
      exact ⟨List.mem_append_left _ hm, fun h => hf (List.mem_of_mem_filter h)⟩
  uids := unique_snoc hs.uids huid
  emails := unique_snoc hs.emails hmail
  filled h hh := by
    rcases List.mem_append.1 hh with hh | hh
    · exact hs.filled h hh
    · cases List.mem_singleton.1 hh
      exact hfilled

/-- A sign-up that Auth accepts and answers with an error. -/
theorem Synced.signUpFails (hs : Synced F holders users failed) {uid : Uid} {email : String}
    (hfilled : email ≠ "") (huid : ∀ h ∈ holders, h.1 ≠ uid)
    (hmail : ∀ h ∈ holders, F.lowercased h.2 ≠ F.lowercased email) :
    Synced F (holders ++ [(uid, email)]) users (uid :: failed) where
  found u m hm hf := by
    rw [List.mem_cons, not_or] at hf
    rcases List.mem_append.1 hm with hm | hm
    · exact hs.found u m hm hf.2
    · cases List.mem_singleton.1 hm
      exact absurd rfl hf.1
  owned u m hfinds := by
    obtain ⟨hm, hf⟩ := hs.owned u m hfinds
    have hne : u ≠ uid := huid _ hm
    exact ⟨List.mem_append_left _ hm, by simp [hne, hf]⟩
  uids := unique_snoc hs.uids huid
  emails := unique_snoc hs.emails hmail
  filled h hh := by
    rcases List.mem_append.1 hh with hh | hh
    · exact hs.filled h hh
    · cases List.mem_singleton.1 hh
      exact hfilled

theorem Synced.updateUserInfo (hs : Synced F holders users failed) (uid : Uid)
    (username title repo : String) :
    Synced F holders (users.set uid (updateChildValues users uid
      (updateUserInfoValues username title repo))) failed where
  found u m hm hf := (finds_updateUserInfo ..).2 (hs.found u m hm hf)
  owned u m hfinds := hs.owned u m ((finds_updateUserInfo ..).1 hfinds)
  uids := hs.uids
  emails := hs.emails
  filled := hs.filled

theorem Synced.deleted (hs : Synced F holders users failed) (uid : Uid) :
    Synced F (holders.filter (·.1 ≠ uid)) (users.erase uid) failed where
  found u m hm hf := by
    obtain ⟨hm, hne⟩ := List.mem_filter.1 hm
    exact (finds_erase ..).2 ⟨by simpa using hne, hs.found u m hm hf⟩
  owned u m hfinds := by
    obtain ⟨hne, hfinds⟩ := (finds_erase ..).1 hfinds
    obtain ⟨hm, hf⟩ := hs.owned u m hfinds
    exact ⟨List.mem_filter.2 ⟨hm, by simpa using hne⟩, hf⟩
  uids h hh h' hh' := hs.uids h (List.mem_of_mem_filter hh) h' (List.mem_of_mem_filter hh')
  emails h hh h' hh' := hs.emails h (List.mem_of_mem_filter hh) h' (List.mem_of_mem_filter hh')
  filled h hh := hs.filled h (List.mem_of_mem_filter hh)

/-- A deletion that fails removes the record all the same. -/
theorem Synced.deleteFails (hs : Synced F holders users failed) (uid : Uid) :
    Synced F holders (users.erase uid) (uid :: failed) where
  found u m hm hf := by
    rw [List.mem_cons, not_or] at hf
    exact (finds_erase ..).2 ⟨hf.1, hs.found u m hm hf.2⟩
  owned u m hfinds := by
    obtain ⟨hne, hfinds⟩ := (finds_erase ..).1 hfinds
    obtain ⟨hm, hf⟩ := hs.owned u m hfinds
    exact ⟨hm, by simp [hne, hf]⟩
  uids := hs.uids
  emails := hs.emails
  filled := hs.filled

end Synced

/-- What every run keeps: the agreement, and that no sign-up on its way has an empty email. -/
structure InStep (F : Foundation) (s : Accounts × List Uid) : Prop where
  synced : Synced F s.1.holders s.1.users s.2
  signUps : ∀ n email password username,
    (n, .createUser email password username) ∈ s.1.operations → email ≠ ""

theorem inStep_launch (F : Foundation) (session : Option Uid) :
    InStep F (launch [] ∅ session, []) := by
  refine ⟨⟨?_, ?_, ?_, ?_, ?_⟩, ?_⟩ <;> simp [holders, launch, Finds]

theorem InStep.congr (hs : InStep F (s, failed)) (hholders : s'.holders = s.holders)
    (husers : s'.users = s.users) (hops : ∀ o ∈ s'.operations, o ∈ s.operations) :
    InStep F (s', failed) :=
  ⟨by simpa only [hholders, husers] using hs.synced,
    fun n email password username ho => hs.signUps n email password username (hops _ ho)⟩

theorem InStep.call (hs : InStep F (s, failed)) {op : Operation}
    (hop : ∀ email password username, op ≠ .createUser email password username) :
    InStep F (s.call op, failed) := by
  refine ⟨hs.synced, fun n email password username ho => ?_⟩
  rcases List.mem_append.1 ho with ho | ho
  · exact hs.signUps n email password username ho
  · cases List.mem_singleton.1 ho
    exact absurd rfl (hop email password username)

theorem unused_createUser {uid : Uid} {email : String}
    (hfree : s.account F email = none ∧ uid ≠ "" ∧ ∀ a ∈ s.accounts, a.uid ≠ uid) :
    (∀ h ∈ s.holders, h.1 ≠ uid) ∧ ∀ h ∈ s.holders, F.lowercased h.2 ≠ F.lowercased email := by
  constructor
  · intro h hh
    obtain ⟨a, ha, rfl⟩ := List.mem_map.1 hh
    exact hfree.2.2 a ha
  · intro h hh
    obtain ⟨a, ha, rfl⟩ := List.mem_map.1 hh
    simpa using List.find?_eq_none.1 hfree.1 a ha

theorem holders_updatePassword (accounts : List Account) (u : Uid) (password : String) :
    (accounts.map fun a => if a.uid = u then { a with password } else a).map
      (fun a => (a.uid, a.email)) = accounts.map fun a => (a.uid, a.email) := by
  rw [List.map_map]
  exact List.map_congr_left fun a _ => by simp only [Function.comp_apply]; split_ifs <;> rfl

theorem holders_delete (accounts : List Account) (u : Uid) :
    (accounts.filter (·.uid ≠ u)).map (fun a => (a.uid, a.email)) =
      (accounts.map fun a => (a.uid, a.email)).filter (·.1 ≠ u) := by
  rw [List.filter_map]
  rfl

/-- An accepted sign-in, change of the password or deletion, however it is answered. -/
theorem inStep_accepted {i n : ℕ} {uid : Uid} {op : Operation}
    {r : List Account × Option Uid × Option Uid} (hr : s.accept F uid op = some r)
    (hop : ∀ email password username, op ≠ .createUser email password username)
    (session user : Option Uid) (error : Option String) (hs : InStep F (s, failed)) :
    InStep F ({ s with accounts := r.1, session }.complete i n op user error, failed) := by
  refine ⟨?_, fun m email password username ho =>
    hs.signUps m email password username (List.mem_of_mem_eraseIdx ho)⟩
  cases op with
  | createUser email password username => exact absurd rfl (hop email password username)
  | signIn l =>
    obtain ⟨a, -, hr⟩ := Option.bind_eq_some_iff.1 hr
    split_ifs at hr
    cases hr
    cases user <;> exact hs.synced
  | updatePassword u password =>
    cases hr
    have hsame := holders_updatePassword s.accounts u password
    simpa [holders, complete, completion, setUsers, shows, hsame] using hs.synced
  | delete u =>
    cases hr
    simp only [holders, complete, setUsers, shows, completion, holders_delete]
    exact hs.synced.deleted u

theorem inStep_succeed {i n : ℕ} {uid : Uid} {op : Operation}
    {r : List Account × Option Uid × Option Uid} (hop : s.operations[i]? = some (n, op))
    (hr : s.accept F uid op = some r) (hs : InStep F (s, failed)) :
    InStep F ({ s with accounts := r.1, session := r.2.1 }.complete i n op r.2.2 none,
      s.failures failed (.succeed i uid)) := by
  cases op with
  | createUser email password username =>
    refine ⟨?_, fun m email password username ho =>
      hs.signUps m email password username (List.mem_of_mem_eraseIdx ho)⟩
    have hmail := hs.signUps n email password username (List.mem_of_getElem? hop)
    simp only [accept] at hr
    split_ifs at hr with hfree
    cases hr
    obtain ⟨hfresh, hunused⟩ := unused_createUser hfree
    have := hs.synced.signUp username hmail hfresh hunused
    simpa [holders, failures, hop, complete, completion, setUsers, shows] using this
  | signIn | updatePassword | delete =>
    have hsame : s.failures failed (.succeed i uid) = failed := by simp only [failures, hop]
    rw [hsame]
    exact inStep_accepted hr (by simp) _ _ _ hs

theorem inStep_failLate {i n : ℕ} {uid : Uid} {error : String} {op : Operation}
    {r : List Account × Option Uid × Option Uid} {session : Option Uid}
    (hop : s.operations[i]? = some (n, op)) (hr : s.accept F uid op = some r)
    (hs : InStep F (s, failed)) :
    InStep F ({ s with accounts := r.1, session }.complete i n op none (some error),
      s.failures failed (.failLate i uid error)) := by
  cases op with
  | createUser email password username =>
    refine ⟨?_, fun m email password username ho =>
      hs.signUps m email password username (List.mem_of_mem_eraseIdx ho)⟩
    have hmail := hs.signUps n email password username (List.mem_of_getElem? hop)
    simp only [accept] at hr
    split_ifs at hr with hfree
    cases hr
    obtain ⟨hfresh, hunused⟩ := unused_createUser hfree
    have := hs.synced.signUpFails hmail hfresh hunused
    simpa [holders, failures, hop, complete, completion, setUsers, shows] using this
  | signIn | updatePassword | delete =>
    have hsame : s.failures failed (.failLate i uid error) = failed := by
      simp only [failures, hop]
    rw [hsame]
    exact inStep_accepted hr (by simp) _ _ _ hs

theorem inStep_step (h : step F s e = some s') (hok : ByServices (s, failed) e)
    (hs : InStep F (s, failed)) : InStep F (s', s.failures failed e) := by
  cases e with
  | loginTap email password =>
    cases h
    split_ifs
    · exact hs.congr rfl rfl fun _ ho => ho
    · exact hs.congr rfl rfl fun _ ho => ho
  | signUpTap email password username =>
    cases h
    split_ifs with hempty
    · exact hs.congr rfl rfl fun _ ho => ho
    · refine ⟨hs.synced, fun n m p u ho => ?_⟩
      rcases List.mem_append.1 ho with ho | ho
      · exact hs.signUps n m p u ho
      · cases List.mem_singleton.1 ho
        exact fun he => hempty (.inl he)
  | googleSignIn uid => cases h; exact hs.congr rfl rfl fun _ ho => ho
  | logOut throws =>
    cases h
    unfold logOutUser
    split_ifs
    · exact hs
    · exact hs.congr rfl rfl fun _ ho => ho
  | updateUserInfo username title repo =>
    cases h
    unfold Accounts.updateUserInfo
    split
    · exact hs
    · exact ⟨hs.synced.updateUserInfo .., hs.signUps⟩
  | updatePassword newPassword =>
    cases h
    unfold updatePassword
    split
    · exact hs
    · exact hs.call (by simp)
  | deleteAccount =>
    cases h
    unfold handleDeleteAccount
    split
    · exact hs.congr rfl rfl fun _ ho => ho
    · rename_i uid _
      have hshown : InStep F (s.shows (some s.calls) [.presentLogin (some uid)], failed) :=
        hs.congr rfl rfl fun _ ho => ho
      exact hshown.call (by simp)
  | remoteUsers => exact hok.elim
  | deliver i =>
    obtain ⟨⟨l, exist⟩, -, rfl⟩ := Option.map_eq_some_iff.1 h
    have hrest : InStep F ({ s with snapshots := s.snapshots.eraseIdx i }, failed) :=
      hs.congr rfl rfl fun _ ho => ho
    unfold loginSnapshot
    split_ifs
    · have hcalled : InStep F (call { s with snapshots := s.snapshots.eraseIdx i } (.signIn l),
          failed) := hrest.call (by simp)
      exact hcalled.congr rfl rfl fun _ ho => ho
    · exact hrest.congr rfl rfl fun _ ho => ho
  | succeed i uid =>
    obtain ⟨⟨n, op⟩, hop, h⟩ := Option.bind_eq_some_iff.1 h
    obtain ⟨r, hr, rfl⟩ := Option.map_eq_some_iff.1 h
    exact inStep_succeed hop hr hs
  | fail i error =>
    obtain ⟨⟨n, op⟩, hop, rfl⟩ := Option.map_eq_some_iff.1 h
    refine ⟨?_, fun m email password username ho =>
      hs.signUps m email password username (List.mem_of_mem_eraseIdx ho)⟩
    cases op with
    | delete u =>
      simpa [holders, failures, hop, complete, completion, setUsers, shows] using
        hs.synced.deleteFails u
    | createUser | signIn | updatePassword =>
      simpa [holders, failures, hop, complete, completion, setUsers, shows] using hs.synced
  | failLate i uid error =>
    obtain ⟨⟨n, op⟩, hop, h⟩ := Option.bind_eq_some_iff.1 h
    obtain ⟨r, hr, rfl⟩ := Option.map_eq_some_iff.1 h
    exact inStep_failLate hop hr hs

/-- Auth accepts the email and the password, for the account `a`. -/
structure Accepts (F : Foundation) (s : Accounts) (email password : String) (a : Account) :
    Prop where
  typed : email ≠ "" ∧ password ≠ ""
  account : s.account F email = some a
  same : a.password = password

/-- A login tap, its existence check and `Auth.signIn`, with nothing in between. -/
def LogsIn (F : Foundation) (s : Accounts) (email password : String) (uid : Uid) : Prop :=
  ∃ s₁ s₂ s₃, step F s (.loginTap email password) = some s₁ ∧
    step F s₁ (.deliver s.snapshots.length) = some s₂ ∧
    step F s₂ (.succeed s.operations.length "") = some s₃ ∧ s₃.session = some uid

/-- A login tap that is told the user does not exist. -/
def Refuses (F : Foundation) (s : Accounts) (email password : String) : Prop :=
  ∃ s₁ s₂, step F s (.loginTap email password) = some s₁ ∧
    step F s₁ (.deliver s.snapshots.length) = some s₂ ∧
    s₂.effects = s₁.effects ++
      [(none, .showError "User does not exist\n Please signup with username and email")]

theorem succeed_signIn (ops : List (ℕ × Operation)) {n : ℕ} {l : LoginListener} {a : Account}
    (hops : s.operations = ops ++ [(n, .signIn l)]) (ha : s.account F l.email = some a)
    (hpassword : a.password = l.password) :
    ∃ s', step F s (.succeed ops.length "") = some s' ∧ s'.session = some a.uid := by
  have hget : s.operations[ops.length]? = some (n, .signIn l) := by simp [hops]
  exact ⟨{ s with session := some a.uid }.complete ops.length n (.signIn l) (some a.uid) none,
    by simp [step, hget, accept, ha, hpassword], rfl⟩

/-- Whether a login passes the check depends on the query alone. -/
theorem login_iff {email password : String} {a : Account} (hacc : Accepts F s email password a) :
    (s.LogsIn F email password a.uid ↔ query s.users email ≠ []) ∧
      (s.Refuses F email password ↔ query s.users email = []) := by
  have htyped : ¬ (email = "" ∨ password = "") := not_or.2 hacc.typed
  have htap : step F s (.loginTap email password) = some (s.loginUser email password) := by
    simp only [step, if_neg htyped]
  have hdeliver : step F (s.loginUser email password) (.deliver s.snapshots.length) =
      some ({ s.loginUser email password with snapshots := s.snapshots }.loginSnapshot
        ⟨s.taps, email, password⟩ (decide (query s.users email ≠ []))) := by
    simp [step, loginUser, shows, List.eraseIdx_append_of_length_le]
  have herror : ∀ exist, ({ s.loginUser email password with snapshots := s.snapshots
      }.loginSnapshot ⟨s.taps, email, password⟩ exist).effects =
      (s.loginUser email password).effects ++ (if exist then [] else [(none,
        .showError "User does not exist\n Please signup with username and email")]) := by
    intro exist
    cases exist <;> simp [loginSnapshot, shows, call]
  constructor
  · constructor
    · rintro ⟨s₁, s₂, s₃, h₁, h₂, h₃, -⟩ hq
      obtain rfl := Option.some.inj (htap.symm.trans h₁)
      obtain rfl := Option.some.inj (hdeliver.symm.trans h₂)
      -- without `Auth.signIn` there is no operation to succeed
      simp [step, hq, loginSnapshot, loginUser, shows] at h₃
    · intro hq
      rw [decide_eq_true hq] at hdeliver
      obtain ⟨s₃, h₃, hsession⟩ := succeed_signIn (F := F) (a := a) s.operations
        (s := { s.loginUser email password with snapshots := s.snapshots }.loginSnapshot
          ⟨s.taps, email, password⟩ true) rfl hacc.account hacc.same
      exact ⟨_, _, s₃, htap, hdeliver, h₃, hsession⟩
  · constructor
    · rintro ⟨s₁, s₂, h₁, h₂, heffects⟩
      obtain rfl := Option.some.inj (htap.symm.trans h₁)
      obtain rfl := Option.some.inj (hdeliver.symm.trans h₂)
      rw [herror, List.append_cancel_left_eq] at heffects
      split_ifs at heffects with hq
      simpa using hq
    · intro hq
      refine ⟨_, _, htap, hdeliver, ?_⟩
      rw [herror, if_neg (by simpa using hq)]

/-- In every run of the calls of `FirebaseServices`, with any outcomes, and for every email
and password that Auth accepts: the login passes its existence check and signs in if the
email is spelled as at sign-up, the sign-up was answered without an error and no deletion of
the account has failed since, and it is told that the user does not exist otherwise. -/
theorem login_finds {session : Option Uid} {evs : List Event}
    (h : Path (recorded F) ByServices (launch [] ∅ session, []) evs (s, failed))
    {email password : String} {a : Account} (hacc : Accepts F s email password a) :
    (s.LogsIn F email password a.uid ↔ email = a.email ∧ a.uid ∉ failed) ∧
      (s.Refuses F email password ↔ ¬ (email = a.email ∧ a.uid ∉ failed)) := by
  have hs : InStep F (s, failed) := by
    refine h.invariant (InStep F) (inStep_launch F session) fun t e t' ht hok hstep => ?_
    obtain ⟨t₁, h₁, rfl⟩ := Option.map_eq_some_iff.1 hstep
    exact inStep_step h₁ hok ht
  have ha : (a.uid, a.email) ∈ s.holders :=
    List.mem_map_of_mem (List.mem_of_find?_eq_some hacc.account)
  have hsame : F.lowercased a.email = F.lowercased email := by
    simpa using List.find?_some hacc.account
  have hquery : query s.users email ≠ [] ↔ email = a.email ∧ a.uid ∉ failed := by
    rw [query_ne_nil]
    constructor
    · rintro ⟨uid, hfinds⟩
      obtain ⟨hm, hf⟩ := hs.synced.owned uid email hfinds
      cases hs.synced.emails _ hm _ ha hsame.symm
      exact ⟨rfl, hf⟩
    · rintro ⟨rfl, hf⟩
      exact ⟨a.uid, hs.synced.found _ _ ha hf⟩
  obtain ⟨hlogs, hrefuses⟩ := login_iff hacc
  exact ⟨hlogs.trans hquery, hrefuses.trans ((not_iff_not.2 hquery).symm.trans not_not).symm⟩

/-- Three sign-ups, of which one was to be deleted and one was answered with an error, and a
login of the third. -/
theorem login_finds_run :
    ∃ s, Path (recorded .ascii) ByServices (launch [] ∅ none, [])
        [.signUpTap "ann@dev.io" "pw" "ann", .succeed 0 "a", .deleteAccount,
          .fail 0 "log in again", .logOut false, .signUpTap "cy@dev.io" "pw" "cy",
          .failLate 0 "c" "network error", .signUpTap "Bob@dev.io" "pw" "bob", .succeed 0 "b",
          .updateUserInfo "bob" "dev" "git", .logOut false] (s, ["c", "a"]) ∧
      s.LogsIn .ascii "Bob@dev.io" "pw" "b" ∧ s.Refuses .ascii "cy@dev.io" "pw" := by
  have h : Path (recorded .ascii) ByServices (launch [] ∅ none, [])
      [.signUpTap "ann@dev.io" "pw" "ann", .succeed 0 "a", .deleteAccount,
        .fail 0 "log in again", .logOut false, .signUpTap "cy@dev.io" "pw" "cy",
        .failLate 0 "c" "network error", .signUpTap "Bob@dev.io" "pw" "bob", .succeed 0 "b",
        .updateUserInfo "bob" "dev" "git", .logOut false] _ := .of_exec_get (by decide)
  exact ⟨_, h, (login_finds (F := .ascii) h (a := ⟨"b", "Bob@dev.io", "pw"⟩)
      ⟨by decide, by decide, by decide⟩).1.2 (by decide),
    (login_finds (F := .ascii) h (a := ⟨"c", "cy@dev.io", "pw"⟩)
      ⟨by decide, by decide, by decide⟩).2.2 (by decide)⟩

/-- A deletion that fails leaves an account that is told it does not exist. -/
theorem login_refused :
    ¬ ∀ (F : Foundation) (session : Option Uid) (evs : List Event) (s : Accounts)
        (failed : List Uid) (email password : String) (a : Account),
        Path (recorded F) ByServices (launch [] ∅ session, []) evs (s, failed) →
        Accepts F s email password a → s.LogsIn F email password a.uid := by
  intro h
  have hlogs := h .ascii none [.signUpTap "ann@dev.io" "pw" "ann", .succeed 0 "a",
    .deleteAccount, .fail 0 "log in again", .logOut false] _ _ "ann@dev.io" "pw"
    ⟨"a", "ann@dev.io", "pw"⟩ (.of_exec_get (by decide)) ⟨by decide, by decide, by decide⟩
  obtain ⟨s₁, s₂, s₃, h₁, h₂, h₃, -⟩ := hlogs
  cases h₁
  cases h₂
  cases h₃

end Accounts

end DevPost
