import DevPost.Spec.CommentForm

/-! What becomes of a comment form. It is closed once, by Cancel, by a swipe or by the write of
its one comment, which is signed with the session and goes to the post of the form. The username
is one that the form was told while it was open; it may be that of an account that has left. -/

namespace DevPost

open Lib FirebaseServices

namespace CommentForm

variable {s s' : CommentForm} {e : Event} {evs : List Event} {Q Q' : Uid → Prop}
  {R R' : Uid → Record → Prop}

/-- The submission of the form as the database has it, with what the form knows. -/
def submission (s : CommentForm) (comment commentId date : String) : Database.Submission :=
  .handleSubmitComment s.session s.user s.post comment commentId date

/-- A submission does nothing, or refuses an empty comment, or sends one and closes the form. -/
theorem submit_cases {comment commentId date : String}
    (h : step s (.handleSubmitComment comment commentId date) = some s') :
    s.isOpen = true ∧ (s' = s ∨ s' = s.shows [.showError "Please enter a comment"] ∨
      ∃ c db, comment ≠ "" ∧ (s.submission comment commentId date).call = some c ∧
        s.db.step c = some db ∧
        s' = { s.setDatabase db with sent := s.sent ++ [c] }.dismissView) := by
  simp only [step] at h
  split_ifs at h with hopen
  refine ⟨hopen, ?_⟩
  unfold postComment at h
  split at h
  · rename_i userId user post hs hu hp
    unfold send at h
    split_ifs at h with hempty
    · exact .inr (.inl (Option.some.inj h).symm)
    · obtain ⟨db, hdb, rfl⟩ := Option.map_eq_some_iff.1 h
      refine .inr (.inr ⟨_, db, hempty, ?_, hdb, rfl⟩)
      simp [submission, Database.Submission.call, hs, hu, hp]
  · exact .inl (Option.some.inj h).symm

section Told

/-- The username of an account's record. -/
def Username (Q : Uid → Prop) (R : Uid → Record → Prop) (name : String) : Prop :=
  ∃ u dict, Q u ∧ R u dict ∧ name = (User.init dict).username

/-- A comment with text, on the post, from an account and under a username. -/
def Signed (Q : Uid → Prop) (R : Uid → Record → Prop) (post : Option Posts)
    (c : Database.Call) : Prop :=
  ∃ p ∈ post, ∃ userId name comment commentId date, Q userId ∧ Username Q R name ∧
    comment ≠ "" ∧ c = .postComment name userId comment p.postId commentId date

theorem Username.mono {name : String} (h : Username Q R name) (hQ : ∀ u, Q u → Q' u)
    (hR : ∀ u dict, R u dict → R' u dict) : Username Q' R' name := by
  obtain ⟨u, dict, hu, hdict, rfl⟩ := h
  exact ⟨u, dict, hQ u hu, hR u dict hdict, rfl⟩

/-- What the form knows it has from accounts with the property `Q`, and their records. -/
structure Told (Q : Uid → Prop) (R : Uid → Record → Prop) (s : CommentForm) : Prop where
  session : ∀ u ∈ s.session, Q u
  listeners : ∀ u ∈ s.listeners, Q u
  queue : ∀ u dict, .value u (some dict) ∈ s.queue → Q u ∧ R u dict
  user : ∀ name ∈ s.user, Username Q R name
  sent : ∀ c ∈ s.sent, Signed Q R s.post c

theorem Told.mono (h : Told Q R s) (hQ : ∀ u, Q u → Q' u)
    (hR : ∀ u dict, R u dict → R' u dict) : Told Q' R' s where
  session u hu := hQ u (h.session u hu)
  listeners u hu := hQ u (h.listeners u hu)
  queue u dict hc := (h.queue u dict hc).imp (hQ u) (hR u dict)
  user name hn := (h.user name hn).mono hQ hR
  sent c hc := by
    obtain ⟨p, hp, userId, name, comment, commentId, date, hu, hn, hne, rfl⟩ := h.sent c hc
    exact ⟨p, hp, userId, name, comment, commentId, date, hQ _ hu, hn.mono hQ hR, hne, rfl⟩

theorem Told.setDatabase (ht : Told Q R s) (db : Database)
    (hR : ∀ u dict, db.users.lookup u = some dict → R u dict) : Told Q R (s.setDatabase db) where
  session := ht.session
  listeners := ht.listeners
  user := ht.user
  sent := ht.sent
  queue u dict hc := by
    rcases List.mem_append.1 hc with hc | hc
    · exact ht.queue u dict hc
    · obtain ⟨v, hv, hraised⟩ := List.mem_filterMap.1 hc
      split_ifs at hraised
      obtain ⟨rfl, hdict⟩ : v = u ∧ db.users.lookup v = some dict := by simpa using hraised
      exact ⟨ht.listeners v hv, hR v dict hdict⟩

theorem told_callback (h : step s .run = some s') (ht : Told Q R s)
    (hR : ∀ u dict, s'.db.users.lookup u = some dict → R u dict) : Told Q R s' := by
  simp only [step] at h
  split at h
  · cases h
  · rename_i q hq
    obtain rfl := Option.some.inj h
    have hrest : ∀ u dict, .value u (some dict) ∈ q → Q u ∧ R u dict := fun u dict hc =>
      ht.queue u dict (hq ▸ List.mem_cons_of_mem _ hc)
    unfold runAuth at hR ⊢
    dsimp only at hR ⊢
    split at hR
    · exact ⟨ht.session, ht.listeners, hrest, ht.user, ht.sent⟩
    · rename_i uid hs
      have huid : Q uid := ht.session uid hs
      refine ⟨ht.session, fun u hu => ?_, fun u dict hc => ?_, ht.user, ht.sent⟩
      · rcases List.mem_append.1 hu with hu | hu
        · exact ht.listeners u hu
        · exact List.mem_singleton.1 hu ▸ huid
      · rcases List.mem_append.1 hc with hc | hc
        · exact hrest u dict hc
        · obtain ⟨rfl, hdict⟩ : u = uid ∧ some dict = s.db.users.lookup uid := by
            simpa using List.mem_singleton.1 hc
          exact ⟨huid, hR u dict hdict.symm⟩
  · rename_i uid dict q hq
    obtain rfl := Option.some.inj h
    have hrest : ∀ u dict, .value u (some dict) ∈ q → Q u ∧ R u dict := fun u dict hc =>
      ht.queue u dict (hq ▸ List.mem_cons_of_mem _ hc)
    cases dict with
    | none => exact ⟨ht.session, ht.listeners, hrest, ht.user, ht.sent⟩
    | some dict =>
      refine ⟨ht.session, ht.listeners, hrest, ?_, ht.sent⟩
      rintro name hname
      obtain ⟨hu, hdict⟩ := ht.queue uid dict (hq ▸ List.mem_cons_self)
      exact ⟨uid, dict, hu, hdict, (Option.some.inj hname).symm⟩

theorem told_step (h : step s e = some s') (ht : Told Q R s) (hQ : ∀ u ∈ s'.session, Q u)
    (hR : ∀ u dict, s'.db.users.lookup u = some dict → R u dict) : Told Q R s' := by
  cases e with
  | signIn | signOut =>
    obtain rfl := Option.some.inj h
    refine ⟨hQ, ht.listeners, fun u dict hc => ?_, ht.user, ht.sent⟩
    rcases List.mem_append.1 hc with hc | hc
    · exact ht.queue u dict hc
    · split_ifs at hc <;> simp at hc
  | call c =>
    obtain ⟨db, -, rfl⟩ := Option.map_eq_some_iff.1 h
    exact ht.setDatabase db hR
  | run => exact told_callback h ht hR
  | handleSubmitComment comment commentId date =>
    rcases (submit_cases h).2 with rfl | rfl | ⟨c, db, hne, hc, -, rfl⟩
    · exact ht
    · exact ⟨ht.session, ht.listeners, ht.queue, ht.user, ht.sent⟩
    · have hset := ht.setDatabase db hR
      refine ⟨hset.session, hset.listeners, hset.queue, hset.user, fun c' hc' => ?_⟩
      rcases List.mem_append.1 hc' with hc' | hc'
      · exact ht.sent c' hc'
      · obtain ⟨userId, hs, hc⟩ := Option.bind_eq_some_iff.1 hc
        obtain ⟨user, hu, hc⟩ := Option.bind_eq_some_iff.1 hc
        obtain ⟨p, hp, rfl⟩ := Option.map_eq_some_iff.1 hc
        rw [List.mem_singleton.1 hc']
        exact ⟨p, hp, userId, user, comment, commentId, date, ht.session _ hs, ht.user _ hu, hne,
          rfl⟩
  | handleDismiss | swipeDown =>
    simp only [step] at h
    split_ifs at h
    obtain rfl := Option.some.inj h
    exact ⟨ht.session, ht.listeners, ht.queue, ht.user, ht.sent⟩

end Told

section Run

variable {db : Database} {session : Option Uid} {post : Option Posts}

/-- The form is closed once, by a comment, by Cancel or by a swipe; it has shown an error for each
empty comment, and nothing else before it dismissed itself, which it does unless it is swiped
down; and what it sent is in the database. -/
structure Reports (db : Database) (post : Option Posts) (evs : List Event) (s : CommentForm) :
    Prop where
  post : s.post = post
  closed : s.sent.length + evs.count .handleDismiss + evs.count .swipeDown =
    if s.isOpen then 0 else 1
  effects : ∃ k, s.effects = List.replicate k (.showError "Please enter a comment") ++
    if s.isOpen ∨ .swipeDown ∈ evs then [] else [.dismiss]
  stored : ∃ calls, Path Database.step anyStep db calls s.db ∧ s.sent.Sublist calls

theorem reports_viewDidLoad (db : Database) (session : Option Uid) (post : Option Posts) :
    Reports db post [] (viewDidLoad db session post) :=
  ⟨rfl, rfl, ⟨0, rfl⟩, [], .nil, .slnil⟩

theorem Reports.same (hr : Reports db post evs s) (hdismiss : e ≠ .handleDismiss)
    (hswipe : e ≠ .swipeDown)
    (hpost : s'.post = s.post) (hopen : s'.isOpen = s.isOpen) (hsent : s'.sent = s.sent)
    (heffects : s'.effects = s.effects)
    (hdb : s'.db = s.db ∨ ∃ c, s.db.step c = some s'.db) :
    Reports db post (evs ++ [e]) s' := by
  refine ⟨hpost.trans hr.post, ?_, ?_, ?_⟩
  · rw [hsent, hopen]
    simpa [List.count_append, List.count_singleton, hdismiss, hswipe] using hr.closed
  · rw [heffects, hopen]
    simpa [hswipe.symm] using hr.effects
  · obtain ⟨calls, hpath, hsub⟩ := hr.stored
    rw [hsent]
    rcases hdb with hdb | ⟨c, hc⟩
    · exact ⟨calls, hdb ▸ hpath, hsub⟩
    · exact ⟨calls ++ [c], hpath.snoc trivial hc, hsub.trans (List.sublist_append_left ..)⟩

theorem Reports.of_open (hr : Reports db post evs s) (hopen : s.isOpen = true) :
    s.sent = [] ∧ evs.count .handleDismiss = 0 ∧ evs.count .swipeDown = 0 ∧
      ∃ k, s.effects = List.replicate k (.showError "Please enter a comment") := by
  have hclosed := hr.closed
  obtain ⟨k, hk⟩ := hr.effects
  rw [hopen, if_pos rfl] at hclosed
  rw [if_pos (.inl hopen), List.append_nil] at hk
  exact ⟨List.length_eq_zero_iff.1 (by omega), by omega, by omega, k, hk⟩

theorem reports_step (h : step s e = some s') (hr : Reports db post evs s) :
    Reports db post (evs ++ [e]) s' := by
  cases e with
  | signIn | signOut =>
    obtain rfl := Option.some.inj h
    exact hr.same (by simp) (by simp) rfl rfl rfl rfl (.inl rfl)
  | call c =>
    obtain ⟨db', hdb, rfl⟩ := Option.map_eq_some_iff.1 h
    exact hr.same (by simp) (by simp) rfl rfl rfl rfl (.inr ⟨c, hdb⟩)
  | run =>
    simp only [step] at h
    split at h
    · cases h
    · obtain rfl := Option.some.inj h
      unfold runAuth
      dsimp only
      split <;> exact hr.same (by simp) (by simp) rfl rfl rfl rfl (.inl rfl)
    · obtain rfl := Option.some.inj h
      unfold runValue
      split <;> exact hr.same (by simp) (by simp) rfl rfl rfl rfl (.inl rfl)
  | handleSubmitComment comment commentId date =>
    obtain ⟨hopen, hcases⟩ := submit_cases h
    obtain ⟨hsent, hcount, hswipes, k, hk⟩ := hr.of_open hopen
    have hswipe := List.count_eq_zero.1 hswipes
    rcases hcases with rfl | rfl | ⟨c, db', hne, hc, hdb, rfl⟩
    · exact hr.same (by simp) (by simp) rfl rfl rfl rfl (.inl rfl)
    · refine ⟨hr.post, ?_, ⟨k + 1, ?_⟩, hr.stored⟩
      · simp [shows, hsent, hcount, hopen, hswipes]
      · simp [shows, hk, hopen, List.replicate_succ']
    · refine ⟨hr.post, ?_, ⟨k, ?_⟩, ?_⟩
      · simp [dismissView, shows, setDatabase, hsent, hcount, hswipes]
      · simp [dismissView, shows, setDatabase, hk, hswipe]
      · obtain ⟨calls, hpath, -⟩ := hr.stored
        refine ⟨calls ++ [c], hpath.snoc trivial hdb, ?_⟩
        simp [dismissView, shows, setDatabase, hsent]
  | handleDismiss =>
    simp only [step] at h
    split_ifs at h with hopen
    obtain rfl := Option.some.inj h
    obtain ⟨hsent, hcount, hswipes, k, hk⟩ := hr.of_open hopen
    have hswipe := List.count_eq_zero.1 hswipes
    refine ⟨hr.post, ?_, ⟨k, ?_⟩, hr.stored⟩
    · simp [dismissView, shows, hsent, hcount, hswipes]
    · simp [dismissView, shows, hk, hswipe]
  | swipeDown =>
    simp only [step] at h
    split_ifs at h with hopen
    obtain rfl := Option.some.inj h
    obtain ⟨hsent, hcount, hswipes, k, hk⟩ := hr.of_open hopen
    have hswipe := List.count_eq_zero.1 hswipes
    refine ⟨hr.post, ?_, ⟨k, ?_⟩, hr.stored⟩
    · simp [hsent, hcount, hswipes]
    · simp [hk]

/-- The account was signed in while the form was there. -/
def SignedIn (db : Database) (session : Option Uid) (post : Option Posts) (evs : List Event)
    (u : Uid) : Prop :=
  Once step anyStep (viewDidLoad db session post) evs (·.session = some u)

/-- The account had the record while the form was there. -/
def Held (db : Database) (session : Option Uid) (post : Option Posts) (evs : List Event)
    (u : Uid) (dict : Record) : Prop :=
  Once step anyStep (viewDidLoad db session post) evs (·.db.users.lookup u = some dict)

theorem told_run (h : Path step anyStep (viewDidLoad db session post) evs s) :
    Told (SignedIn db session post evs) (Held db session post evs) s := by
  induction h with
  | nil =>
    exact ⟨fun u hu => .now .nil hu, by simp [viewDidLoad], by simp [viewDidLoad],
      by simp [viewDidLoad], by simp [viewDidLoad]⟩
  | @snoc evs s s' e hpath hok hs ih =>
    have hnow := hpath.snoc hok hs
    exact told_step hs (ih.mono (fun _ hu => hu.snoc e) fun _ _ hd => hd.snoc e)
      (fun u hu => .now hnow hu) fun u dict hd => .now hnow hd

/-- A comment form is closed exactly once, by the comment that it stores, by Cancel or by a swipe,
and until then shows only that a comment is empty. Its comment has text, is on the post of the
form, and has the uid and a username of accounts that were signed in while the form was there. -/
theorem comment_sent_once (h : Path step anyStep (viewDidLoad db session post) evs s) :
    Reports db post evs s ∧
      ∀ c ∈ s.sent, Signed (SignedIn db session post evs) (Held db session post evs) post c := by
  have hr : Reports db post evs s := by
    induction h with
    | nil => exact reports_viewDidLoad db session post
    | snoc _ _ hs ih => exact reports_step hs ih
  exact ⟨hr, hr.post ▸ (told_run h).sent⟩

/-- The account changes its username, and another one takes the session over before the form
hears of its record. -/
theorem comment_sent_once_run :
    let users : Table Uid Record :=
      Table.ofList [("a", Table.ofList (createUserValues "ann@dev.io" "ann")),
        ("b", Table.ofList (createUserValues "bob@dev.io" "bob"))]
    let db : Database := { users }
    let post : Option Posts := some ⟨"Swift", "text", "Jun 1, 2020 at 9:00 AM", "ann", "a", "p1"⟩
    let evs : List Event :=
      [.run, .run, .handleSubmitComment "" "c1" "Jun 2, 2020 at 9:00 AM",
        .call (.updateUserInfo "a" "anna" "iOS" "ann/app"), .run, .signOut, .signIn "b",
        .handleSubmitComment "nice" "c1" "Jun 2, 2020 at 9:01 AM", .run, .run]
    ∃ s, Path step anyStep (viewDidLoad db (some "a") post) evs s ∧
      s.sent = [.postComment "anna" "b" "nice" "p1" "c1" "Jun 2, 2020 at 9:01 AM"] ∧
      Reports db post evs s ∧
      ∀ c ∈ s.sent,
        Signed (SignedIn db (some "a") post evs) (Held db (some "a") post evs) post c := by
  intro users db post evs
  refine ⟨_, .of_exec_get (by decide), by decide, ?_⟩
  exact comment_sent_once (.of_exec_get (by decide))

end Run

end CommentForm

end DevPost
