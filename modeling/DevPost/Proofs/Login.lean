import DevPost.Sanity.Accounts
import Mathlib.Data.List.Perm.Basic

/-! Login taps and sessions. The existence check of `loginUser` is a live query, so a tap
signs in again with every later change of the result that exists. Where no write does
that, a tap signs in at most once; and where logins do not overlap with a logout or with
a login to another account, a session ends or changes only by the user's own action. -/

namespace DevPost

open Lib FirebaseServices

namespace Accounts

variable {F : Foundation} {s s' : Accounts} {e : Event}

/-- A login tap, a sign-up that is accepted, or a Google sign-in. -/
def Action (s : Accounts) : Event → Prop
  | .loginTap _ _ => True
  | .googleSignIn _ => True
  | e => s.signsUp e ≠ none

instance (s : Accounts) (e : Event) : Decidable (Action s e) := by
  unfold Action
  split <;> infer_instance

/-- What is promised of login taps and sessions, over the runs that `ok` allows. -/
structure LoginLaw (F : Foundation) (ok : Accounts → Event → Prop) : Prop where
  /-- a tap signs in at most once -/
  once : ∀ s, Reached F ok s → ∀ tap, s.signIns.count tap ≤ 1
  /-- a logout lasts until the next action -/
  loggedOut : ∀ s₀ s₁ s evs, Reached F ok s₀ → ok s₀ (.logOut false) →
    step F s₀ (.logOut false) = some s₁ →
    Path (step F) (fun s e => ok s e ∧ ¬ Action s e) s₁ evs s → s.session = none
  /-- a session that was opened is not replaced without an action -/
  sameAccount : ∀ s₀ s₁ s e evs uid, Reached F ok s₀ → ok s₀ e → step F s₀ e = some s₁ →
    s₀.session ≠ some uid → s₁.session = some uid →
    Path (step F) (fun s e => ok s e ∧ ¬ Action s e) s₁ evs s →
    s.session = none ∨ s.session = some uid
  /-- nor is one that was kept from before the launch -/
  kept : ∀ accounts users session s evs,
    Path (step F) (fun s e => ok s e ∧ ¬ Action s e) (launch accounts users session) evs s →
    s.session = none ∨ s.session = session

/-- Every account with the email of the login is `uid`. -/
def LoginListener.For (F : Foundation) (s : Accounts) (uid : Uid) (l : LoginListener) : Prop :=
  ∀ a ∈ s.accounts, F.lowercased a.email = F.lowercased l.email → a.uid = uid

instance (s : Accounts) (uid : Uid) (l : LoginListener) : Decidable (l.For F s uid) := by
  unfold LoginListener.For
  infer_instance

/-- A write of the users node starts a login only if its tap has not signed in before, and
while its account is signed in; nobody logs out while a login is in progress; and a session
is opened only when the other logins in progress are for the same account. -/
def Apart (F : Foundation) (s : Accounts) (e : Event) : Prop :=
  (∀ l ∈ s.restarted F e, l.tap ∉ s.taken ∧ ∃ uid ∈ s.signedIn F e, l.For F s uid) ∧
    (e = .logOut false → s.inProgress = []) ∧
    ∀ uid ∈ s.opens F e, ∀ l ∈ s.inProgress, l.For F s uid

instance (s : Accounts) (e : Event) : Decidable (Apart F s e) := instDecidableAnd

theorem checked_quiet (h : step F s e = some s')
    (hsnapshots : s'.snapshots = s.snapshots ++ s.raised s'.users) :
    s'.checked = s.checked ++ s.restarted F e := by
  rw [checked, hsnapshots, List.filter_append, List.map_append, restarted, written_eq h]
  rfl

theorem restarted_sublist (s : Accounts) (e : Event) :
    (s.restarted F e).Sublist s.listeners := by
  have hraised : ((s.raised (s.written F e)).map (·.1)).Sublist s.listeners := by
    unfold raised
    induction s.listeners with
    | nil => exact .refl _
    | cons l ls ih =>
      rw [List.filterMap_cons]
      split_ifs
      · exact ih.cons l
      · exact ih.cons_cons l
  exact (List.filter_sublist.map _).trans hraised

theorem checked_erase {i : ℕ} {p : LoginListener × Bool} (hget : s.snapshots[i]? = some p) :
    s.checked.Perm ((if p.2 then [p.1] else []) ++
      ((s.snapshots.eraseIdx i).filter (·.2)).map (·.1)) := by
  obtain ⟨hi, rfl⟩ := List.getElem?_eq_some_iff.1 hget
  have hperm := (List.getElem_cons_eraseIdx_perm hi).symm
  refine ((hperm.filter (·.2)).map (·.1)).trans (.of_eq ?_)
  rw [List.filter_cons]
  split_ifs <;> simp

section Once

/-- Every tap that signed in or is about to did so once. -/
structure Once (s : Accounts) : Prop where
  nodup : s.taken.Nodup
  early : ∀ t ∈ s.taken, t < s.taps
  taps : (s.listeners.map (·.tap)).Nodup
  registered : ∀ l ∈ s.listeners, l.tap < s.taps

theorem Once.tap (hs : Once s) (email password : String) : Once (s.loginUser email password) := by
  have htaken : (s.loginUser email password).taken =
      s.taken ++ if query s.users email ≠ [] then [s.taps] else [] := by
    simp only [taken, checked, loginUser, shows, List.filter_append, List.map_append,
      List.append_assoc]
    split_ifs with hq <;> simp [hq]
  have hlisteners : (s.loginUser email password).listeners.map (·.tap) =
      s.listeners.map (·.tap) ++ [s.taps] := by simp [loginUser, shows]
  constructor
  case nodup =>
    rw [htaken]
    refine List.nodup_append.2 ⟨hs.nodup, by split_ifs <;> simp, fun t ht t' ht' => ?_⟩
    split_ifs at ht'
    · rw [List.mem_singleton.1 ht']
      exact (hs.early t ht).ne
    · simp at ht'
  case early =>
    intro t ht
    rw [htaken] at ht
    show t < s.taps + 1
    rcases List.mem_append.1 ht with ht | ht
    · exact (hs.early t ht).trans (Nat.lt_succ_self _)
    · split_ifs at ht
      · rw [List.mem_singleton.1 ht]
        exact Nat.lt_succ_self _
      · simp at ht
  case taps =>
    rw [hlisteners]
    refine List.nodup_append.2 ⟨hs.taps, by simp, fun t ht t' ht' => ?_⟩
    obtain ⟨l, hl, rfl⟩ := List.mem_map.1 ht
    rw [List.mem_singleton.1 ht']
    exact (hs.registered l hl).ne
  case registered =>
    intro l hl
    show l.tap < s.taps + 1
    rcases List.mem_append.1 hl with hl | hl
    · exact (hs.registered l hl).trans (Nat.lt_succ_self _)
    · rw [List.mem_singleton.1 hl]
      exact Nat.lt_succ_self _

theorem once_step (h : step F s e = some s') (hok : Apart F s e) (hs : Once s) : Once s' := by
  cases step_moves h with
  | tap email password _ heq => exact heq ▸ hs.tap email password
  | deliver i p hget heq =>
    obtain ⟨l, exist⟩ := p
    subst heq
    have herase := ((checked_erase hget).map (·.tap)).append_left s.signIns
    cases exist with
    | false =>
      have hperm := herase.symm
      exact ⟨hperm.nodup_iff.2 hs.nodup, fun t ht => hs.early t (hperm.mem_iff.1 ht), hs.taps,
        hs.registered⟩
    | true =>
      have hperm : (loginSnapshot { s with snapshots := s.snapshots.eraseIdx i } l
          true).taken.Perm s.taken := by
        refine .trans (.of_eq ?_) herase.symm
        simp [taken, checked, loginSnapshot, call]
      exact ⟨hperm.nodup_iff.2 hs.nodup, fun t ht => hs.early t (hperm.mem_iff.1 ht), hs.taps,
        hs.registered⟩
  | quiet hsnapshots hlisteners hsignIns htaps _ =>
    have htaken : s'.taken = s.taken ++ (s.restarted F e).map (·.tap) := by
      rw [taken, checked_quiet h hsnapshots, hsignIns, List.map_append, ← List.append_assoc]
      rfl
    have hsub := restarted_sublist (F := F) s e
    have hregistered : ∀ l ∈ s'.listeners, l.tap < s'.taps := by
      rw [hlisteners, htaps]
      exact hs.registered
    refine ⟨?_, fun t ht => ?_, hlisteners ▸ hs.taps, hregistered⟩
    · rw [htaken]
      refine List.nodup_append.2 ⟨hs.nodup, hs.taps.sublist (hsub.map _), fun t ht t' ht' => ?_⟩
      obtain ⟨l, hl, rfl⟩ := List.mem_map.1 ht'
      exact fun he => (hok.1 l hl).1 (he ▸ ht)
    · rw [htaken] at ht
      rw [htaps]
      rcases List.mem_append.1 ht with ht | ht
      · exact hs.early t ht
      · obtain ⟨l, hl, rfl⟩ := List.mem_map.1 ht
        exact hs.registered l (hsub.subset hl)

end Once

theorem inProgress_step (h : step F s e = some s')
    (htap : ∀ email password, e ≠ .loginTap email password) :
    ∀ l ∈ s'.inProgress, l ∈ s.inProgress ∨ l ∈ s.restarted F e := by
  intro l hl
  cases step_moves h with
  | tap email password he _ => exact absurd he (htap email password)
  | deliver i p hget heq =>
    refine .inl ?_
    obtain ⟨l', exist⟩ := p
    subst heq
    have hmem := (checked_erase hget).mem_iff (a := l)
    rw [inProgress, List.mem_append] at hl ⊢
    cases exist with
    | false => exact hl.imp_left fun hl => hmem.2 (List.mem_append_right _ hl)
    | true =>
      rcases hl with hl | hl
      · exact .inl (hmem.2 (List.mem_append_right _ hl))
      · have hsigning : l ∈ s.signingIn ++ [l'] := by
          simpa [signingIn, loginSnapshot, call, List.filterMap_append] using hl
        rcases List.mem_append.1 hsigning with hl | hl
        · exact .inr hl
        · exact .inl (hmem.2 (List.mem_append_left _ hl))
  | quiet hsnapshots _ _ _ hsigning =>
    rw [inProgress, checked_quiet h hsnapshots, List.mem_append, List.mem_append] at hl
    rw [inProgress, List.mem_append]
    rcases hl with (hl | hl) | hl
    · exact .inl (.inl hl)
    · exact .inr hl
    · exact .inl (.inr (hsigning l hl))

/-- Without an action, a session is opened by a login in progress, for an account with its
email. -/
theorem opens_login {uid : Uid} (hopens : s.opens F e = some uid) (hact : ¬ Action s e) :
    ∃ l ∈ s.inProgress, ∃ a ∈ s.accounts,
      F.lowercased a.email = F.lowercased l.email ∧ a.uid = uid := by
  cases e with
  | googleSignIn u => exact absurd trivial hact
  | succeed i u =>
    obtain ⟨⟨n, op⟩, hop, hr⟩ := Option.bind_eq_some_iff.1 hopens
    obtain ⟨r, hr, huser⟩ := Option.bind_eq_some_iff.1 hr
    cases op with
    | createUser => exact absurd (by simp [Action, signsUp, hop]) hact
    | signIn l =>
      obtain ⟨a, ha, hr⟩ := Option.bind_eq_some_iff.1 hr
      split_ifs at hr
      cases hr
      refine ⟨l, List.mem_append_right _ ?_, a, List.mem_of_find?_eq_some ha,
        by simpa using List.find?_some ha, Option.some.inj huser⟩
      exact List.mem_filterMap.2 ⟨(n, .signIn l), List.mem_of_getElem? hop, rfl⟩
    | updatePassword | delete =>
      cases hr
      cases huser
  | loginTap | signUpTap | logOut | updateUserInfo | updatePassword | deleteAccount | remoteUsers
  | deliver | fail | failLate => cases hopens

theorem signsUp_eq_none (hact : ¬ Action s e) : s.signsUp e = none := by
  cases e with
  | succeed | failLate => exact not_not.1 hact
  | loginTap | signUpTap | googleSignIn | logOut | updateUserInfo | updatePassword | deleteAccount
  | remoteUsers | deliver | fail => rfl

theorem signsUp_eq {u uid : Uid} (hsigned : s.signsUp e = some u)
    (hopens : s.opens F e = some uid) : u = uid := by
  cases e with
  | succeed i u' =>
    simp only [signsUp] at hsigned
    split at hsigned
    · rename_i hop
      simp only [opens, hop, Option.bind_some, accept] at hopens
      split_ifs at hopens
      · exact Option.some.inj (hsigned.symm.trans hopens)
      · cases hopens
    · cases hsigned
  | googleSignIn => cases hsigned
  | loginTap | signUpTap | logOut | updateUserInfo | updatePassword | deleteAccount | remoteUsers
  | deliver | fail | failLate => cases hopens

theorem not_tap (hact : ¬ Action s e) (email password : String) : e ≠ .loginTap email password := by
  rintro rfl
  exact hact trivial

/-- Nobody is signed in, and no login is in progress. -/
structure LoggedOut (s : Accounts) : Prop where
  session : s.session = none
  inProgress : s.inProgress = []

/-- While nobody is signed in, no write starts a login. -/
theorem LoggedOut.next (h : step F s e = some s') (hok : Apart F s e)
    (htap : ∀ email password, e ≠ .loginTap email password) (hs : s.inProgress = [])
    (hsession : s'.session = none) : LoggedOut s' := by
  refine ⟨hsession, List.eq_nil_iff_forall_not_mem.2 fun l hl => ?_⟩
  rcases inProgress_step h htap l hl with hl | hl
  · simp [hs] at hl
  · obtain ⟨-, uid, huid, -⟩ := hok.1 l hl
    rw [signedIn_eq h, hsession] at huid
    cases huid

theorem loggedOut_step (h : step F s e = some s') (hok : Apart F s e) (hact : ¬ Action s e)
    (hs : LoggedOut s) : LoggedOut s' := by
  refine .next h hok (not_tap hact) hs.inProgress ?_
  rcases (step_holders h).session with hsession | hsession | ⟨hopens, hsession⟩
  · rw [hsession, hs.session]
  · exact hsession
  · obtain ⟨uid, hopens⟩ := Option.ne_none_iff_exists'.1 hopens
    obtain ⟨l, hl, -⟩ := opens_login hopens hact
    simp [hs.inProgress] at hl

/-- Nobody but `uid` is signed in, or can be by the logins in progress. -/
structure Held (F : Foundation) (uid : Uid) (s : Accounts) : Prop where
  session : s.session = none ∨ s.session = some uid
  inProgress : ∀ l ∈ s.inProgress, l.For F s uid

theorem Held.next {uid : Uid} (h : step F s e = some s') (hok : Apart F s e)
    (htap : ∀ email password, e ≠ .loginTap email password)
    (hs : ∀ l ∈ s.inProgress, l.For F s uid) (hsigned : ∀ u, s.signsUp e = some u → u = uid)
    (hsession : s'.session = none ∨ s'.session = some uid) : Held F uid s' := by
  refine ⟨hsession, fun l hl a' ha' hmail => ?_⟩
  rcases (step_holders h).accounts a' ha' with ⟨a, ha, huid, hemail⟩ | hnew
  · have hfor : l.For F s uid := by
      rcases inProgress_step h htap l hl with hl | hl
      · exact hs l hl
      · obtain ⟨-, u, hu, hfor⟩ := hok.1 l hl
        rw [signedIn_eq h] at hu
        rcases hsession with hsession | hsession
        · rw [hsession] at hu
          cases hu
        · obtain rfl : uid = u := Option.mem_some.1 (hsession ▸ hu)
          exact hfor
    exact huid ▸ hfor a ha (hemail ▸ hmail)
  · exact hsigned _ hnew

theorem held_step {uid : Uid} (h : step F s e = some s') (hok : Apart F s e)
    (hact : ¬ Action s e) (hs : Held F uid s) : Held F uid s' := by
  have hopens : ∀ u, s.opens F e = some u → u = uid := by
    intro u hu
    obtain ⟨l, hl, a, ha, hmail, rfl⟩ := opens_login hu hact
    exact hs.inProgress l hl a ha hmail
  refine .next h hok (not_tap hact) hs.inProgress (by simp [signsUp_eq_none hact]) ?_
  rcases (step_holders h).session with hsession | hsession | ⟨hne, hsession⟩
  · rw [hsession]
    exact hs.session
  · exact .inl hsession
  · obtain ⟨u, hu⟩ := Option.ne_none_iff_exists'.1 hne
    exact .inr (by rw [hsession, hu, hopens u hu])

/-- The step that opens a session leaves the other logins in progress to that account. -/
theorem held_open {uid : Uid} (h : step F s e = some s') (hok : Apart F s e)
    (hbefore : s.session ≠ some uid) (hafter : s'.session = some uid) : Held F uid s' := by
  have hopens : s.opens F e = some uid := by
    rcases (step_holders h).session with hsession | hsession | ⟨-, hsession⟩
    · exact absurd (hsession.symm.trans hafter) hbefore
    · simp [hafter] at hsession
    · rw [← hsession, hafter]
  have htap : ∀ email password, e ≠ .loginTap email password := by
    rintro email password rfl
    cases hopens
  exact .next h hok htap (hok.2.2 uid hopens) (fun u hu => signsUp_eq hu hopens) (.inr hafter)

theorem held_launch (accounts : List Account) (users : Table Uid Record) (uid : Uid) :
    Held F uid (launch accounts users (some uid)) :=
  ⟨.inr rfl, by simp [launch, inProgress, checked, signingIn]⟩

/-- Where logins are kept apart, a tap signs in at most once, a logout lasts, and a session
is replaced only by an action. -/
theorem login_law (F : Foundation) : LoginLaw F (Apart F) where
  once := by
    rintro s ⟨accounts, users, session, evs, h⟩ tap
    have hinit : Once (launch accounts users session) := by
      constructor <;> simp [taken, checked, launch]
    have hs : Once s := h.invariant Once hinit fun _ _ _ hs hok h => once_step h hok hs
    exact List.nodup_iff_count_le_one.1 (List.nodup_append.1 hs.nodup).1 tap
  loggedOut := by
    intro s₀ s₁ s evs _ hok h hpath
    have hs₁ : LoggedOut s₁ := .next h hok (by simp) (hok.2.1 rfl) (by cases h; rfl)
    have hs : LoggedOut s := hpath.invariant LoggedOut hs₁
      fun _ _ _ hs ⟨hok, hact⟩ h => loggedOut_step h hok hact hs
    exact hs.session
  sameAccount := by
    intro s₀ s₁ s e evs uid _ hok h hbefore hafter hpath
    have hs : Held F uid s := hpath.invariant (Held F uid) (held_open h hok hbefore hafter)
      fun _ _ _ hs ⟨hok, hact⟩ h => held_step h hok hact hs
    exact hs.session
  kept := by
    intro accounts users session s evs hpath
    cases session with
    | none =>
      have hs : LoggedOut s := hpath.invariant LoggedOut ⟨rfl, rfl⟩
        fun _ _ _ hs ⟨hok, hact⟩ h => loggedOut_step h hok hact hs
      exact .inl hs.session
    | some uid =>
      have hs : Held F uid s := hpath.invariant (Held F uid) (held_launch accounts users uid)
        fun _ _ _ hs ⟨hok, hact⟩ h => held_step h hok hact hs
      exact hs.session

/-- A login without an account, which the sign-up completes, and a login to another account
after a logout. -/
theorem login_law_run :
    ∃ s, Path (step .ascii) (Apart .ascii)
        (launch [⟨"a", "ann@dev.io", "pw"⟩]
          (Table.ofList [("a", Table.ofList (createUserValues "ann@dev.io" "ann"))] :
            Table Uid Record) none)
        [.loginTap "bob@dev.io" "pw", .deliver 0, .signUpTap "bob@dev.io" "pw" "bob",
          .succeed 0 "b", .deliver 0, .succeed 0 "", .logOut false,
          .loginTap "ann@dev.io" "pw", .deliver 0, .succeed 0 ""] s ∧
      s.session = some "a" ∧ s.signIns = [0, 1] ∧ ∀ tap, s.signIns.count tap ≤ 1 :=
  ⟨_, .of_exec_get (by decide), by decide, by decide,
    (login_law .ascii).once _ ⟨_, _, _, _, .of_exec_get (by decide)⟩⟩

/-- A profile update after the login makes the same tap sign in again. -/
theorem login_twice : ¬ ∀ F, LoginLaw F anyStep := by
  intro h
  have hcount := (h .ascii).once _ ⟨[⟨"a", "ann@dev.io", "pw"⟩],
    (Table.ofList [("a", Table.ofList (createUserValues "ann@dev.io" "ann"))] : Table Uid Record),
    none, [.loginTap "ann@dev.io" "pw", .deliver 0, .succeed 0 "",
      .updateUserInfo "ann" "dev" "git", .deliver 0], .of_exec_get (by decide)⟩ 0
  exact absurd hcount (by decide)

end Accounts

end DevPost
