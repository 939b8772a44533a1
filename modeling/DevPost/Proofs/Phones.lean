import DevPost.Proofs.Authentication
import DevPost.Proofs.Completions
import DevPost.Spec.Phones

/-! Whose data may change. When phones are all there is that calls the backend, what the users
node, the posts and the comments hold was written on some phone by an account whose password had
been typed there, whatever the phones do and in whatever order. -/

namespace DevPost

open Lib FirebaseServices

namespace Phone

variable {F : Foundation} {p p' : Phone} {e : Event} {c : Database.Call} {db : Database}
  {u : Uid} {dict : Option Record} {E E' : String × String → Prop} {A A' : Uid → Prop}

theorem Genuine.mono (h : Genuine E A p) (hE : ∀ c, E c → E' c) (hA : ∀ v, A v → A' v) :
    Genuine E' A' p :=
  ⟨h.typed.mono hE, h.same, h.sound, h.traced.mono (fun _ => id) hA⟩

/-- What another phone makes of the accounts leaves the screens and the session. -/
theorem Genuine.sync (h : Genuine E A p) (b : Accounts) : Genuine E A (p.sync b) := by
  refine ⟨⟨h.typed.listeners, fun x hx => ?_, h.typed.operations⟩, h.same, h.sound, h.traced⟩
  rcases List.mem_append.1 hx with hx | hx
  · exact h.typed.snapshots x hx
  · obtain ⟨l, hl, heq⟩ := List.mem_filterMap.1 hx
    split_ifs at heq
    rw [← Option.some.inj heq]
    exact h.typed.listeners l hl

theorem accounts_screen {de : Device.Event} (h : step F p (.screen de) = some p') :
    p'.accounts = p.accounts := by
  rcases accounts_step h with ⟨ae, he, -⟩ | ⟨-, heq⟩
  · cases he
  · exact heq

/-- The record of an account, and no deletion of it waits. -/
structure Intact (u : Uid) (dict : Option Record) (p : Phone) : Prop where
  record : p.accounts.users.lookup u = dict
  none : ∀ o ∈ p.accounts.operations, o.2 ≠ .delete u

theorem intact_step (h : step F p e = some p') (hown : e.own) (hp : Intact u dict p) :
    Intact u dict p' ∨ p.accounts.session = some u ∨ p'.accounts.session = some u := by
  rcases accounts_step h with ⟨ae, rfl, ha⟩ | ⟨-, heq⟩
  swap
  · exact .inl ⟨heq ▸ hp.record, heq ▸ hp.none⟩
  · rcases Accounts.unchanged_step ha hp.none with ⟨hlookup, hnone⟩ | hs | hs | ⟨dict', he⟩
    · exact .inl ⟨hlookup.trans hp.record, hnone⟩
    · exact .inr (.inl hs)
    · exact .inr (.inr hs)
    · rw [he] at hown
      cases hown

theorem copies_step (h : step F p e = some p') (hs : p.device.Copies db) :
    ∃ db', follow Database.step db (p.call e) = some db' ∧ p'.device.Copies db' := by
  unfold step at h
  split_ifs at h
  cases e with
  | screen de =>
    obtain ⟨device, hd, rfl⟩ := Option.map_eq_some_iff.1 h
    exact Device.copies_step hd hs
  | account ae =>
    obtain ⟨accounts, -, h⟩ := Option.bind_eq_some_iff.1 h
    obtain ⟨device, hd, rfl⟩ := Option.map_eq_some_iff.1 h
    unfold authEvent at hd
    split_ifs at hd
    · exact ⟨db, rfl, Option.some.inj hd ▸ hs⟩
    · cases hsession : accounts.session <;> rw [hsession] at hd <;>
        exact Device.copies_step hd hs

theorem copies_launch {accounts : List Account} {users : Table Uid Record}
    {session : Option Uid} : (launch accounts users session).device.Copies {} :=
  ⟨⟨rfl, rfl⟩, ⟨rfl, rfl⟩, fun _ => rfl, by simp⟩

theorem Genuine.signed (hg : Genuine E A p) (hown : e.own) (h : p.call e = some c) :
    c.Signed A fun _ => True := by
  cases e with
  | account => cases h
  | screen de =>
    have hde : ∀ c, de ≠ .call c := by
      rintro c rfl
      cases hown
    exact (Device.signed_call hde h).mono hg.traced.session fun _ _ => trivial

theorem call_echo {e' : Event} (h : (peer F).echo p e = some e') (q : Phone) :
    q.call e' = p.call e := by
  obtain ⟨c, hc, rfl⟩ := Option.map_eq_some_iff.1 h
  exact hc.symm

end Phone

namespace Phones

variable {F : Foundation} {ι : Type*} [DecidableEq ι] [Fintype ι] {s s' : ι → Phone}
  {a : ι × Phone.Event} {evs : List (ι × Phone.Event)} {accounts : List Account}
  {users : Table Uid Record} {sessions : ι → Option Uid} {i : ι} {u : Uid}

/-- The phones are all there is: nobody else calls the backend. -/
def Closed (_ : ι → Phone) (a : ι × Phone.Event) : Prop := a.2.own

instance (s : ι → Phone) (a : ι × Phone.Event) : Decidable (Closed s a) :=
  inferInstanceAs (Decidable (a.2.own = true))

/-- The phones take an event together, and then the others find what the first one left. -/
theorem step_cases (h : step F s a = some s') :
    ∃ t, (Phone.peer F).all s a = some t ∧ s' a.1 = t a.1 ∧
      ∀ j, j ≠ a.1 → s' j = (t j).sync (t a.1).accounts := by
  obtain ⟨t, ht, rfl⟩ := Option.map_eq_some_iff.1 h
  exact ⟨t, ht, if_pos rfl, fun j hj => if_neg hj⟩

theorem other_cases {t : ι → Phone} {j : ι} (h : (Phone.peer F).all s a = some t)
    (hj : j ≠ a.1) :
    t j = s j ∨ ∃ c, Phone.step F (s j) (.screen (.call c)) = some (t j) := by
  have hstep := Peer.all_eq_some.1 h j
  rw [Peer.heard, if_neg hj] at hstep
  cases hecho : (Phone.peer F).echo (s a.1) a.2 with
  | none =>
    rw [hecho] at hstep
    exact .inl (Option.some.inj hstep).symm
  | some e' =>
    rw [hecho] at hstep
    obtain ⟨c, -, rfl⟩ := Option.map_eq_some_iff.1 hecho
    exact .inr ⟨c, hstep⟩

theorem other_accounts {t : ι → Phone} {j : ι} (h : (Phone.peer F).all s a = some t)
    (hj : j ≠ a.1) : (t j).accounts = (s j).accounts := by
  rcases other_cases h hj with heq | ⟨c, hc⟩
  · rw [heq]
  · exact Phone.accounts_screen hc

/-- The email and the password were typed on the phone. -/
def Entered (evs : List (ι × Phone.Event)) (i : ι) (c : String × String) : Prop :=
  ∃ e, (i, .account e) ∈ evs ∧ e.credentials = some c

/-- Auth kept the account on the phone, or it came from Google there, or its email and password,
as they were at some time, had been typed there before. -/
def AuthenticatedOn (F : Foundation) (accounts : List Account) (users : Table Uid Record)
    (sessions : ι → Option Uid) (evs : List (ι × Phone.Event)) (i : ι) (u : Uid) : Prop :=
  sessions i = some u ∨ (i, .account (.googleSignIn u)) ∈ evs ∨
    OnceAfter (step F) Closed (launch accounts users sessions) evs fun xs s =>
      ∃ c, Entered xs i c ∧ (s i).accounts.Holds F u c

/-- The account was authenticated on some phone. -/
def Authenticated (F : Foundation) (accounts : List Account) (users : Table Uid Record)
    (sessions : ι → Option Uid) (evs : List (ι × Phone.Event)) (u : Uid) : Prop :=
  ∃ i, AuthenticatedOn F accounts users sessions evs i u

omit [DecidableEq ι] [Fintype ι] in
theorem Entered.snoc {c : String × String} (h : Entered evs i c) (a : ι × Phone.Event) :
    Entered (evs ++ [a]) i c := h.imp fun _ he => ⟨List.mem_append_left _ he.1, he.2⟩

theorem AuthenticatedOn.snoc (h : AuthenticatedOn F accounts users sessions evs i u)
    (a : ι × Phone.Event) : AuthenticatedOn F accounts users sessions (evs ++ [a]) i u := by
  rcases h with h | h | h
  · exact .inl h
  · exact .inr (.inl (List.mem_append_left _ h))
  · exact .inr (.inr (h.snoc a))

theorem Authenticated.snoc (h : Authenticated F accounts users sessions evs u)
    (a : ι × Phone.Event) : Authenticated F accounts users sessions (evs ++ [a]) u :=
  h.imp fun _ hi => hi.snoc a

theorem genuine_run (h : Path (step F) Closed (launch accounts users sessions) evs s) (i : ι) :
    (s i).Genuine (Entered evs i) (AuthenticatedOn F accounts users sessions evs i) := by
  induction h with
  | nil => exact Phone.genuine_launch fun _ hv => .inl hv
  | @snoc evs s s' a hpath hok hs ih =>
    obtain ⟨t, hall, hactor, hothers⟩ := step_cases hs
    have hheld : ∀ v c, Entered evs i c → (s i).accounts.Holds F v c →
        AuthenticatedOn F accounts users sessions (evs ++ [a]) i v := fun v c hc hholds =>
      .inr (.inr ((OnceAfter.now hpath ⟨c, hc, hholds⟩).snoc a))
    have hheld' : ∀ v c, Entered (evs ++ [a]) i c → (s' i).accounts.Holds F v c →
        AuthenticatedOn F accounts users sessions (evs ++ [a]) i v := fun v c hc hholds =>
      .inr (.inr (.now (hpath.snoc hok hs) ⟨c, hc, hholds⟩))
    by_cases hi : i = a.1
    · subst hi
      rw [hactor] at hheld' ⊢
      refine Phone.genuine_step (Peer.all_actor hall) ih (fun _ hc => hc.snoc a)
        (fun _ hv => hv.snoc a) ?_ ?_ hheld hheld'
      · exact fun ae hae c hc => ⟨ae, by simp [← hae], hc⟩
      · exact fun v hv => .inr (.inl (by simp [← hv]))
    · have hother : (t i).Genuine (Entered evs i)
          (AuthenticatedOn F accounts users sessions (evs ++ [a]) i) := by
        rcases other_cases hall hi with heq | ⟨c, hc⟩
        · exact heq ▸ ih.mono (fun _ => id) fun _ hv => hv.snoc a
        · refine Phone.genuine_step hc ih (fun _ => id) (fun _ hv => hv.snoc a)
            (fun _ he => by cases he) (fun _ he => by cases he) hheld fun v c hc hholds => ?_
          rw [other_accounts hall hi] at hholds
          exact hheld v c hc hholds
      rw [hothers i hi]
      exact (hother.mono (fun _ hc => hc.snoc a) fun _ => id).sync _

/-- Every phone finds the record as it was at the launch, or its account was authenticated. -/
theorem intact_run (h : Path (step F) Closed (launch accounts users sessions) evs s) (u : Uid) :
    (∀ i, (s i).Intact u (users.lookup u)) ∨ Authenticated F accounts users sessions evs u := by
  induction h with
  | nil => exact .inl fun i => ⟨rfl, by simp [launch, Phone.launch]⟩
  | @snoc evs s s' a hpath hok hs ih =>
    rcases ih with hintact | hu
    swap
    · exact .inr (hu.snoc a)
    obtain ⟨t, hall, hactor, hothers⟩ := step_cases hs
    rcases Phone.intact_step (Peer.all_actor hall) hok (hintact a.1) with hleft | hu | hu
    · refine .inl fun j => ?_
      by_cases hj : j = a.1
      · rw [hj, hactor]
        exact hleft
      · rw [hothers j hj]
        refine ⟨hleft.record, fun o ho => (hintact j).none o ?_⟩
        rw [← other_accounts hall hj]
        exact ho
    · exact .inr (Authenticated.snoc ⟨a.1, (genuine_run hpath a.1).opened u hu⟩ a)
    · rw [← hactor] at hu
      exact .inr ⟨a.1, (genuine_run (hpath.snoc hok hs) a.1).opened u hu⟩

/-- The screens have the tables of one database, in which whatever has a uid is of an account that
was authenticated. -/
theorem authored_run (h : Path (step F) Closed (launch accounts users sessions) evs s) :
    ∃ db, (∀ i, (s i).device.Copies db) ∧
      db.Authored (Authenticated F accounts users sessions evs) fun _ => True := by
  induction h with
  | nil => exact ⟨{}, fun i => Phone.copies_launch, by simp, by simp⟩
  | @snoc evs s s' a hpath hok hs ih =>
    obtain ⟨db, hcopies, hdb⟩ := ih
    obtain ⟨t, hall, hactor, hothers⟩ := step_cases hs
    obtain ⟨db', hcall, hcopies'⟩ := Peer.simulates_step (fun _ _ _ _ => Phone.copies_step)
      (fun _ _ => Option.map_eq_none_iff.1) (fun _ _ _ he q => Phone.call_echo he q) hall hcopies
    refine ⟨db', fun i => ?_, ?_⟩
    · by_cases hi : i = a.1
      · rw [hi, hactor]
        exact hcopies' a.1
      · rw [hothers i hi]
        exact hcopies' i
    · have hdb : db.Authored (Authenticated F accounts users sessions (evs ++ [a])) fun _ => True :=
        hdb.mono (fun _ hu => hu.snoc a) fun _ => id
      cases hc : (s a.1).call a.2 with
      | none =>
        rw [hc] at hcall
        exact Option.some.inj hcall ▸ hdb
      | some c =>
        rw [hc] at hcall
        refine Database.authored_step hcall ?_ hdb
        exact ((genuine_run hpath a.1).signed hok hc).mono
          (fun u hu => Authenticated.snoc ⟨a.1, hu⟩ a) fun _ => id

/-- Nobody changes data under an account without its password. In a run of the phones a users
record that a phone finds changed since the launch, a stored post that has a uid and a stored
comment are of an account that was authenticated on some phone; who is signed in on a phone, and
whose posts its My Comments edits or deletes, was authenticated on that phone. -/
theorem changes_authenticated (h : Path (step F) Closed (launch accounts users sessions) evs s)
    (i : ι) :
    ((∀ u, (s i).accounts.users.lookup u ≠ users.lookup u →
          Authenticated F accounts users sessions evs u) ∧
        (∀ p ∈ (s i).device.feed.stored, p.userId ≠ "" →
          Authenticated F accounts users sessions evs p.userId) ∧
        ∀ x ∈ (s i).device.threads.stored,
          Authenticated F accounts users sessions evs x.userId) ∧
      (∀ u ∈ (s i).accounts.session, AuthenticatedOn F accounts users sessions evs i u) ∧
      ∀ w ∈ (s i).device.mine.sent,
        AuthenticatedOn F accounts users sessions evs i w.post.userId := by
  have hg := genuine_run h i
  obtain ⟨db, hcopies, hdb⟩ := authored_run h
  refine ⟨⟨fun u hne => ?_, fun p hp hne => ?_, fun x hx => ?_⟩, hg.opened, fun w hw => ?_⟩
  · exact (intact_run h u).resolve_left fun hintact => hne (hintact i).record
  · obtain ⟨x, hx, rfl⟩ := List.mem_map.1 hp
    exact hdb.posts x ((hcopies i).feed.1 ▸ hx) hne
  · obtain ⟨y, hy, rfl⟩ := List.mem_map.1 ((hcopies i).stored.mem_iff.1 hx)
    exact (hdb.comments y hy).1
  · exact (hg.traced.sent w hw).2

/-- One phone logs in and posts, the other signs up and comments, and the profile that the first
one saves is what the second one finds. -/
theorem changes_authenticated_run :
    let accounts : List Account := [⟨"a", "ann@dev.io", "secret"⟩]
    let users : Table Uid Record :=
      Table.ofList [("a", Table.ofList (createUserValues "ann@dev.io" "ann"))]
    let evs : List (Fin 2 × Phone.Event) :=
      [(0, .account (.loginTap "ann@dev.io" "secret")),
        (1, .account (.signUpTap "bob@dev.io" "hidden" "bob")), (0, .account (.deliver 0)),
        (1, .account (.succeed 0 "b")), (0, .account (.succeed 0 "")),
        (1, .screen (.feed .viewDidLoad)),
        (0, .screen (.handleSubmit "Swift" "text" "Jun 1, 2020 at 9:00 AM" (some "ann") "p1")),
        (1, .screen (.feed .runMain)), (1, .screen (.feed .runMain)),
        (1, .screen (.didSelectItemAt 0)),
        (1, .screen (.handleSubmitComment 0 "nice" (some "bob") "c1" "Jun 1, 2020 at 9:30 AM")),
        (0, .account (.updateUserInfo "anna" "iOS" "ann/app"))]
    ∃ s, Path (step .ascii) Closed (launch accounts users fun _ => none) evs s ∧
      (s 1).accounts.users.lookup "a" ≠ users.lookup "a" ∧
      (s 1).device.feed.stored.map (·.userId) = ["a"] ∧
      (s 0).device.threads.stored.map (·.userId) = ["b"] ∧
      ((∀ u, (s 1).accounts.users.lookup u ≠ users.lookup u →
            Authenticated .ascii accounts users (fun _ => none) evs u) ∧
          (∀ p ∈ (s 1).device.feed.stored, p.userId ≠ "" →
            Authenticated .ascii accounts users (fun _ => none) evs p.userId) ∧
          ∀ x ∈ (s 1).device.threads.stored,
            Authenticated .ascii accounts users (fun _ => none) evs x.userId) ∧
        (∀ u ∈ (s 1).accounts.session,
          AuthenticatedOn .ascii accounts users (fun _ => none) evs 1 u) ∧
        ∀ w ∈ (s 1).device.mine.sent,
          AuthenticatedOn .ascii accounts users (fun _ => none) evs 1 w.post.userId := by
  intro accounts users evs
  refine ⟨_, .of_exec_get (by decide), by decide, by decide, by decide, ?_⟩
  exact changes_authenticated (.of_exec_get (by decide)) 1

end Phones

end DevPost
