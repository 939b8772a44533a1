import DevPost.Proofs.Provenance
import DevPost.Sanity.Accounts
import DevPost.Spec.Phone

/-! Who can write. A session is opened by a password that Auth compares, by a new account or by
Google, and the listeners that `loginUser` leaves behind only ever repeat what was typed. So
what the screens of a phone write, edit and delete is under an account that was entered on it. -/

namespace DevPost

open Lib FirebaseServices

namespace Accounts

variable {F : Foundation} {s s' : Accounts} {e : Event} {u : Uid}
  {E E' : String × String → Prop}

/-- The email and the password that a tap submits. -/
def Event.credentials : Event → Option (String × String)
  | .loginTap email password => some (email, password)
  | .signUpTap email password _ => some (email, password)
  | _ => none

/-- The email and the password that an operation gives to Auth. -/
def Operation.credentials : Operation → Option (String × String)
  | .createUser email password _ => some (email, password)
  | .signIn l => some (l.email, l.password)
  | _ => none

/-- The account has this email, up to letter case, and this password. -/
def Holds (F : Foundation) (u : Uid) (c : String × String) (s : Accounts) : Prop :=
  ∃ a ∈ s.accounts, a.uid = u ∧ F.lowercased a.email = F.lowercased c.1 ∧ a.password = c.2

instance (u : Uid) (c : String × String) (s : Accounts) : Decidable (Holds F u c s) := by
  unfold Holds
  infer_instance

/-- Whatever waits for an answer works with what was typed. -/
structure Typed (E : String × String → Prop) (s : Accounts) : Prop where
  listeners : ∀ l ∈ s.listeners, E (l.email, l.password)
  snapshots : ∀ p ∈ s.snapshots, E (p.1.email, p.1.password)
  operations : ∀ o ∈ s.operations, ∀ c ∈ o.2.credentials, E c

theorem Typed.mono (h : Typed E s) (himp : ∀ c, E c → E' c) : Typed E' s where
  listeners l hl := himp _ (h.listeners l hl)
  snapshots p hp := himp _ (h.snapshots p hp)
  operations o ho c hc := himp c (h.operations o ho c hc)

theorem typed_launch (accounts : List Account) (users : Table Uid Record)
    (session : Option Uid) : Typed E { accounts, users, session } :=
  ⟨by simp, by simp, by simp⟩

theorem typed_step (h : step F s e = some s') (ht : Typed E s)
    (he : ∀ c ∈ e.credentials, E c) : Typed E s' := by
  obtain ⟨hlisteners, hsnapshots⟩ := listeners_step h
  have hl : ∀ l ∈ s'.listeners, E (l.email, l.password) := fun l hl =>
    (hlisteners l hl).elim (ht.listeners l) fun htap => he _ (htap ▸ rfl)
  refine ⟨hl, fun p hp => (hsnapshots p hp).elim (ht.snapshots p) (hl p.1), ?_⟩
  rintro ⟨n, op⟩ ho c hc
  rcases operations_step h ho with ho | hask
  · exact ht.operations _ ho c hc
  cases op with
  | createUser email password username =>
    have htap : e = .signUpTap email password username := hask
    exact he c (htap ▸ hc)
  | signIn l =>
    obtain ⟨i, exist, -, hget⟩ := hask
    rw [← Option.some.inj hc]
    exact ht.snapshots _ (List.mem_of_getElem? hget)
  | updatePassword | delete => cases hc

/-- A session is opened by Google, or with the password of its account. -/
theorem opens_typed (h : step F s e = some s') (ht : Typed E s) (hu : s.opens F e = some u) :
    e = .googleSignIn u ∨ ∃ c, E c ∧ (Holds F u c s ∨ Holds F u c s') := by
  cases e with
  | googleSignIn uid => exact .inl (congrArg _ (Option.some.inj hu))
  | succeed i uid =>
    obtain ⟨⟨n, op⟩, hop, h⟩ := Option.bind_eq_some_iff.1 h
    obtain ⟨r, hr, rfl⟩ := Option.map_eq_some_iff.1 h
    have hru : r.2.2 = some u := by simpa [opens, hop, hr] using hu
    have hE := ht.operations _ (List.mem_of_getElem? hop)
    cases op with
    | createUser email password username =>
      simp only [accept] at hr
      split_ifs at hr
      cases hr
      obtain rfl := Option.some.inj hru
      exact .inr ⟨_, hE _ rfl, .inr ⟨_, List.mem_append_right _ (List.mem_singleton.2 rfl), rfl,
        rfl, rfl⟩⟩
    | signIn l =>
      obtain ⟨a, ha, hr⟩ := Option.bind_eq_some_iff.1 hr
      split_ifs at hr with hpassword
      cases hr
      have hemail := List.find?_some ha
      exact .inr ⟨_, hE _ rfl, .inl ⟨a, List.mem_of_find?_eq_some ha, Option.some.inj hru,
        of_decide_eq_true hemail, hpassword⟩⟩
    | updatePassword | delete =>
      cases hr
      cases hru
  | loginTap | signUpTap | logOut | updateUserInfo | updatePassword | deleteAccount | remoteUsers
  | deliver | fail | failLate => cases hu

end Accounts

namespace Device

variable {F : Foundation} {d d' : Device} {e : Event}

theorem mineEvent_cases {me : MyComments.Event} (h : d.mineEvent e = some me) :
    e = .mine me ∨ ∃ c : Database.Call, c.mine = some me := by
  cases e with
  | mine me' => exact .inl (congrArg _ (Option.some.inj h))
  | feed | didSelectItemAt | runThreads | handleSubmit | handleSubmitComment | call =>
    simp only [mineEvent] at h
    obtain ⟨c, -, hc⟩ := Option.bind_eq_some_iff.1 h
    exact .inr ⟨c, hc⟩

theorem session_step (h : step F d e = some d') (hin : ∀ uid, e ≠ .mine (.signIn uid))
    (hout : e ≠ .mine .signOut) : d'.mine.session = d.mine.session := by
  have hmine := (step_parts h).2.2.1
  cases hme : d.mineEvent e with
  | none =>
    rw [hme] at hmine
    rw [← Option.some.inj hmine]
  | some me =>
    rw [hme, follow_some] at hmine
    rw [(MyComments.step_frame hmine).1.session]
    cases me with
    | signIn uid =>
      rcases mineEvent_cases hme with rfl | ⟨c, hc⟩
      · exact absurd rfl (hin uid)
      · cases c <;> cases hc
    | signOut =>
      rcases mineEvent_cases hme with rfl | ⟨c, hc⟩
      · exact absurd rfl hout
      · cases c <;> cases hc
    | viewDidLoad | uploadPost | remoteEdit | remoteDelete | refreshData | deleteIconTapped
    | editIconTapped | deletePost | editUserPost | cancel | layout | runMain => rfl

end Device

namespace Phone

variable {F : Foundation} {p p' : Phone} {e : Event} {u : Uid} {evs : List Event}
  {accounts : List Account} {users : Table Uid Record} {session : Option Uid}
  {E E' : String × String → Prop} {A A' : Uid → Prop}

theorem accounts_step (h : step F p e = some p') :
    (∃ ae, e = .account ae ∧ p.accounts.step F ae = some p'.accounts) ∨
      (∃ de, e = .screen de) ∧ p'.accounts = p.accounts := by
  unfold step at h
  split_ifs at h
  cases e with
  | account ae =>
    obtain ⟨accounts, ha, h⟩ := Option.bind_eq_some_iff.1 h
    obtain ⟨device, -, rfl⟩ := Option.map_eq_some_iff.1 h
    exact .inl ⟨ae, rfl, ha⟩
  | screen de =>
    obtain ⟨device, -, rfl⟩ := Option.map_eq_some_iff.1 h
    exact .inr ⟨⟨de, rfl⟩, rfl⟩

theorem mine_step (h : step F p e = some p') (hs : p.device.mine.session = p.accounts.session) :
    (∃ o, follow MyComments.step p.device.mine o = some p'.device.mine) ∧
      p'.device.mine.session = p'.accounts.session := by
  unfold step at h
  split_ifs at h with hok
  cases e with
  | account ae =>
    obtain ⟨accounts, -, h⟩ := Option.bind_eq_some_iff.1 h
    obtain ⟨device, hd, rfl⟩ := Option.map_eq_some_iff.1 h
    unfold authEvent at hd
    split_ifs at hd with hsame
    · obtain rfl := Option.some.inj hd
      exact ⟨⟨none, rfl⟩, hs.trans hsame⟩
    · have hmine := (Device.step_parts hd).2.2.1
      refine ⟨⟨_, hmine⟩, ?_⟩
      simp only [Device.mineEvent, follow_some] at hmine
      rw [(MyComments.step_frame hmine).1.session]
      cases accounts.session <;> rfl
  | screen de =>
    obtain ⟨device, hd, rfl⟩ := Option.map_eq_some_iff.1 h
    refine ⟨⟨_, (Device.step_parts hd).2.2.1⟩, ?_⟩
    rw [← hs]
    apply Device.session_step hd
    · rintro uid rfl
      cases hok
    · rintro rfl
      cases hok

/-- The email and the password were typed. -/
def Entered (evs : List Event) (c : String × String) : Prop :=
  ∃ e, .account e ∈ evs ∧ e.credentials = some c

/-- Auth kept the account, or it came from Google, or its email and password, as they were at
some time, had been typed before. -/
def Authenticated (F : Foundation) (accounts : List Account) (users : Table Uid Record)
    (session : Option Uid) (evs : List Event) (u : Uid) : Prop :=
  session = some u ∨ .account (.googleSignIn u) ∈ evs ∨
    OnceAfter (step F) anyStep (launch accounts users session) evs fun xs p =>
      ∃ c, Entered xs c ∧ p.accounts.Holds F u c

theorem Entered.snoc {c : String × String} (h : Entered evs c) (e : Event) :
    Entered (evs ++ [e]) c := h.imp fun _ he => ⟨List.mem_append_left _ he.1, he.2⟩

theorem Authenticated.snoc (h : Authenticated F accounts users session evs u) (e : Event) :
    Authenticated F accounts users session (evs ++ [e]) u := by
  rcases h with h | h | h
  · exact .inl h
  · exact .inr (.inl (List.mem_append_left _ h))
  · exact .inr (.inr (h.snoc e))

/-- Whatever waits for an answer works with what was entered, and the screens know and act for
accounts that were authenticated. -/
structure Genuine (E : String × String → Prop) (A : Uid → Prop) (p : Phone) : Prop where
  typed : p.accounts.Typed E
  same : p.device.mine.session = p.accounts.session
  sound : MyComments.Sound p.device.mine
  traced : MyComments.Traced (fun _ => True) A p.device.mine

theorem Genuine.opened (h : Genuine E A p) : ∀ v ∈ p.accounts.session, A v :=
  h.same ▸ h.traced.session

theorem genuine_launch (hA : ∀ v ∈ session, A v) :
    Genuine E A (launch accounts users session) := by
  have hstep : ∃ e, MyComments.step {} e = some (MyComments.stateDidChange {} session) := by
    cases session with
    | none => exact ⟨.signOut, rfl⟩
    | some uid => exact ⟨.signIn uid, rfl⟩
  obtain ⟨e, he⟩ := hstep
  exact ⟨Accounts.typed_launch .., rfl, MyComments.sound_step he MyComments.sound_init,
    MyComments.traced_step he MyComments.sound_init MyComments.traced_init
      (fun _ _ => trivial) hA⟩

/-- A step opens a session for an account of Google, or with a password that was entered. -/
theorem genuine_step (h : step F p e = some p') (hg : Genuine E A p) (hE : ∀ c, E c → E' c)
    (hA : ∀ v, A v → A' v) (hentered : ∀ ae, e = .account ae → ∀ c ∈ ae.credentials, E' c)
    (hgoogle : ∀ v, e = .account (.googleSignIn v) → A' v)
    (hheld : ∀ v c, E c → p.accounts.Holds F v c → A' v)
    (hheld' : ∀ v c, E' c → p'.accounts.Holds F v c → A' v) : Genuine E' A' p' := by
  have haccounts := accounts_step h
  obtain ⟨⟨o, hmine⟩, hsame⟩ := mine_step h hg.same
  have htyped : p'.accounts.Typed E' := by
    rcases haccounts with ⟨ae, he, ha⟩ | ⟨-, ha⟩
    · exact Accounts.typed_step ha (hg.typed.mono hE) (hentered ae he)
    · exact ha ▸ hg.typed.mono hE
  have hsession : ∀ v ∈ p'.accounts.session, A' v := by
    intro v hv
    rcases haccounts with ⟨ae, he, ha⟩ | ⟨-, ha⟩
    · rcases (Accounts.step_holders ha).session with hsess | hnone | ⟨-, hopens⟩
      · exact hA v (hg.opened v (hsess ▸ hv))
      · rw [hnone] at hv
        cases hv
      · rcases Accounts.opens_typed ha hg.typed (hopens ▸ hv) with rfl | ⟨c, hc, hu | hu⟩
        · exact hgoogle v he
        · exact hheld v c hc hu
        · exact hheld' v c (hE c hc) hu
    · exact hA v (hg.opened v (ha ▸ hv))
  have htraced : MyComments.Traced (fun _ => True) A' p.device.mine :=
    hg.traced.mono (fun _ => id) hA
  cases o with
  | none =>
    rw [follow_none] at hmine
    exact ⟨htyped, hsame, Option.some.inj hmine ▸ hg.sound, Option.some.inj hmine ▸ htraced⟩
  | some me =>
    exact ⟨htyped, hsame, MyComments.sound_step hmine hg.sound,
      MyComments.traced_step hmine hg.sound htraced (fun _ _ => trivial)
        fun v hv => hsession v (hsame ▸ hv)⟩

theorem genuine_run (h : Path (step F) anyStep (launch accounts users session) evs p) :
    Genuine (Entered evs) (Authenticated F accounts users session evs) p := by
  induction h with
  | nil => exact genuine_launch fun _ hv => .inl hv
  | @snoc evs p p' e hpath hok hs ih =>
    refine genuine_step hs ih (fun _ hc => hc.snoc e) (fun _ hv => hv.snoc e) ?_ ?_ ?_ ?_
    · rintro ae rfl c hc
      exact ⟨ae, by simp, hc⟩
    · rintro v rfl
      exact .inr (.inl (by simp))
    · exact fun v c hc hholds => .inr (.inr ((OnceAfter.now hpath ⟨c, hc, hholds⟩).snoc e))
    · exact fun v c hc hholds => .inr (.inr (.now (hpath.snoc hok hs) ⟨c, hc, hholds⟩))

/-- Nobody acts on a phone under an account without its password. Whoever is signed in, every
uid that a form writes, and the author of every post that My Comments edits or deletes is an
account that Auth kept, that came from Google, or whose email and password, as they were at
some time, had been typed on the phone before. -/
theorem writes_authenticated
    (h : Path (step F) anyStep (launch accounts users session) evs p) :
    (∀ v ∈ p.accounts.session, Authenticated F accounts users session evs v) ∧
      (∀ e c, (∀ c', e ≠ .call c') → p.device.call e = some c →
        c.Signed (Authenticated F accounts users session evs) fun _ => True) ∧
      ∀ w ∈ p.device.mine.sent, Authenticated F accounts users session evs w.post.userId := by
  have hg := genuine_run h
  refine ⟨hg.opened, fun e c hown hc => ?_, fun w hw => (hg.traced.sent w hw).2⟩
  exact (Device.signed_call hown hc).mono (fun v hv => hg.traced.session v hv) fun _ _ => trivial

/-- The account of a login changes its password, edits its post and signs out. -/
theorem writes_authenticated_run :
    let accounts : List Account := [⟨"a", "ann@dev.io", "secret"⟩]
    let users : Table Uid Record :=
      Table.ofList [("a", Table.ofList (createUserValues "ann@dev.io" "ann"))]
    let evs : List Event :=
      [.screen (.mine .viewDidLoad), .account (.loginTap "ann@dev.io" "secret"),
        .account (.deliver 0), .account (.succeed 0 ""), .screen (.mine (.runMain [])),
        .screen (.mine (.runMain [])), .account (.updatePassword "hidden"),
        .account (.succeed 0 ""),
        .screen (.handleSubmit "Swift" "text" "Jun 1, 2020 at 9:00 AM" (some "ann") "p1"),
        .screen (.mine (.runMain [])), .screen (.mine (.runMain [(0, 0)])),
        .screen (.mine (.editIconTapped 0)),
        .screen (.mine (.editUserPost "Swift 5" "text" "Jun 3, 2020 at 9:00 AM"))]
    ∃ p, Path (step .ascii) anyStep (launch accounts users none) evs p ∧
      p.device.mine.sent.map (·.post.userId) = ["a"] ∧
      (∀ v ∈ p.accounts.session, Authenticated .ascii accounts users none evs v) ∧
      (∀ e c, (∀ c', e ≠ .call c') → p.device.call e = some c →
        c.Signed (Authenticated .ascii accounts users none evs) fun _ => True) ∧
      ∀ w ∈ p.device.mine.sent, Authenticated .ascii accounts users none evs w.post.userId := by
  intro accounts users evs
  refine ⟨_, .of_exec_get (by decide), by decide, ?_⟩
  exact writes_authenticated (.of_exec_get (by decide))

end Phone

end DevPost
