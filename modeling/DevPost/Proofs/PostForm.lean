import DevPost.Spec.PostForm

/-! What a submission of the post form reports. `uploadPost` returns without a word when
nobody is signed in or no username has arrived, and `handleSubmit` reports success all the
same. Whether a username has arrived, and whose it is, depends on the callbacks that
ran; without a change of the session or the record it is the account's, once they have. -/

namespace DevPost

open Lib FirebaseServices

namespace PostForm

variable {s s' : PostForm} {e : Event}

/-- The step stored exactly one new post, with the texts and by the user that is signed in. -/
def Posted (s s' : PostForm) (title detailPost : String) : Prop :=
  ∃ postId dict uid user, s.posts.lookup postId = none ∧ s'.posts = s.posts.set postId dict ∧
    s.session = some uid ∧ s.users.lookup uid = some user ∧
    (Posts.init dict).title = title ∧ (Posts.init dict).detailPost = detailPost ∧
    (Posts.init dict).userId = uid ∧ (Posts.init dict).username = (User.init user).username

/-- What the step has shown. -/
def shown (s s' : PostForm) : List Accounts.Effect := s'.effects.drop s.effects.length

/-- The step reported success and closed the form. -/
def Reported (s s' : PostForm) : Prop :=
  .showSuccess "Post Success" ∈ s.shown s' ∧ s'.isOpen = false

/-- Success is reported just when the post was stored, and the form stays open otherwise. -/
structure Faithful (s s' : PostForm) (title detailPost : String) : Prop where
  reported : Reported s s' ↔ Posted s s' title detailPost
  stays : ¬ Reported s s' → s'.isOpen = true ∧ .showSuccess "Post Success" ∉ s.shown s'

/-- The username the form has is that of the account that is signed in. -/
def Knows (s : PostForm) : Prop :=
  ∃ uid user, s.session = some uid ∧ s.users.lookup uid = some user ∧
    s.username = some (User.init user).username

@[simp] theorem shown_shows (s : PostForm) (es : List Accounts.Effect) :
    s.shown (s.shows es) = es := by simp [shown, shows]

theorem not_posted_self (s : PostForm) (title detailPost : String) :
    ¬ Posted s s title detailPost := by
  rintro ⟨postId, dict, uid, user, hnone, hset, -⟩
  have hlookup := congrArg (Table.lookup · postId) hset
  simp [hnone] at hlookup

/-- `uploadPost` stores the post of the account exactly when the form knows the account. -/
theorem posted_uploadPost (title detailPost date : String) {postId : String}
    (hnew : s.posts.lookup postId = none) :
    Posted s (s.uploadPost title detailPost date postId) title detailPost ↔ Knows s := by
  unfold uploadPost
  split
  · rename_i userId username hsession husername
    constructor
    · rintro ⟨id, dict, uid, user, hnone, hset, hs, huser, -, -, -, hname⟩
      -- the table has one new key, so the record is the one just written
      have hid : id = postId := by
        by_contra hne
        have hlookup := congrArg (Table.lookup · id) hset
        simp [Table.lookup_set_of_ne _ _ hne, hnone] at hlookup
      subst hid
      have hdict := congrArg (Table.lookup · id) hset
      simp only [Table.lookup_set_self, Option.some.injEq] at hdict
      rw [← hdict, init_uploadPost] at hname
      exact ⟨uid, user, hs, huser, by rw [husername, ← hname]⟩
    · rintro ⟨uid, user, hs, huser, hname⟩
      refine ⟨postId, _, uid, user, hnew, rfl, hs, huser, ?_⟩
      obtain rfl : userId = uid := Option.some.inj (hsession.symm.trans hs)
      obtain rfl : username = (User.init user).username :=
        Option.some.inj (husername.symm.trans hname)
      simp [init_uploadPost]
  · rename_i hnot
    apply iff_of_false (not_posted_self _ _ _)
    rintro ⟨uid, user, hs, -, hname⟩
    exact hnot uid _ hs hname

theorem posts_uploadPost_shows (s : PostForm) (es : List Accounts.Effect)
    (title detailPost date postId : String) :
    ((s.shows es).uploadPost title detailPost date postId).posts =
      (s.uploadPost title detailPost date postId).posts := by
  unfold uploadPost shows
  cases s.session <;> cases s.username <;> rfl

@[simp] theorem effects_uploadPost (s : PostForm) (title detailPost date postId : String) :
    (s.uploadPost title detailPost date postId).effects = s.effects := by
  unfold uploadPost
  split <;> rfl

theorem faithful_of_empty {title detailPost date postId : String}
    (h : step s (.handleSubmit title detailPost date postId) = some s')
    (hempty : title = "" ∨ detailPost = "") : Faithful s s' title detailPost := by
  simp only [step, handleSubmit, if_pos hempty] at h
  split_ifs at h with hopen
  cases h
  have hquiet : .showSuccess "Post Success" ∉ s.shown
      (s.shows [.showError "Please enter valid information to create a post"]) := by simp
  exact ⟨iff_of_false (fun hr => hquiet hr.1) (not_posted_self s title detailPost),
    fun _ => ⟨hopen.1, hquiet⟩⟩

theorem faithful_iff_knows {title detailPost date postId : String}
    (h : step s (.handleSubmit title detailPost date postId) = some s')
    (hfilled : ¬ (title = "" ∨ detailPost = "")) : Faithful s s' title detailPost ↔ Knows s := by
  simp only [step, handleSubmit, if_neg hfilled] at h
  split_ifs at h with hopen
  have hposts : s'.posts = (s.uploadPost title detailPost date postId).posts := by
    cases h
    exact posts_uploadPost_shows ..
  have hr : Reported s s' := by
    cases h
    exact ⟨by simp [shown, shows], rfl⟩
  have hp : Posted s s' title detailPost ↔ Knows s := by
    rw [← posted_uploadPost title detailPost date hopen.2, Posted, Posted, hposts]
  rw [← hp]
  exact ⟨fun hf => hf.reported.1 hr, fun hp => ⟨iff_of_true hr hp, fun hn => absurd hr hn⟩⟩

/-- In every state, a submission is faithful exactly when a field is empty or the form has the
username of the account that is signed in. -/
theorem submit_faithful {title detailPost date postId : String}
    (h : step s (.handleSubmit title detailPost date postId) = some s') :
    Faithful s s' title detailPost ↔ (title = "" ∨ detailPost = "") ∨ Knows s := by
  by_cases hempty : title = "" ∨ detailPost = ""
  · exact iff_of_true (faithful_of_empty h hempty) (.inl hempty)
  · rw [or_iff_right hempty]
    exact faithful_iff_knows h hempty

/-- The form of an account that signs out and in again before its record arrives. -/
theorem submit_faithful_run :
    ∃ s s', Path step anyStep
        (viewDidLoad (Table.ofList [("a", Table.ofList (createUserValues "ann@dev.io" "ann"))]) ∅
          (some "a")) [.run, .signOut, .signIn "a", .run] s ∧
      step s (.handleSubmit "Swift" "text" "Jun 1, 2020 at 9:00 AM" "p1") = some s' ∧
      Faithful s s' "Swift" "text" := by
  have hrun : Path step anyStep
      (viewDidLoad (Table.ofList [("a", Table.ofList (createUserValues "ann@dev.io" "ann"))]) ∅
        (some "a")) [.run, .signOut, .signIn "a", .run] _ := .of_exec_get (by decide)
  refine ⟨_, _, hrun, (Option.some_get (by decide)).symm,
    (submit_faithful (Option.some_get (by decide)).symm).2 (.inr ?_)⟩
  exact ⟨"a", _, by decide, (Option.some_get (by decide)).symm, by decide⟩

/-- A Google account has no record: its post is not stored, and reported all the same. -/
theorem submit_unfaithful :
    ¬ ∀ (users : Table Uid Record) (posts : Table String Record) (session : Option Uid)
        (evs : List Event) (s s' : PostForm) (title detailPost date postId : String),
        Path step anyStep (viewDidLoad users posts session) evs s →
        step s (.handleSubmit title detailPost date postId) = some s' →
        Faithful s s' title detailPost := by
  intro hall
  have hrun : Path step anyStep (viewDidLoad ∅ ∅ (some "g")) [.run, .run] _ :=
    .of_exec_get (by decide)
  have hf := hall ∅ ∅ (some "g") _ _ _ "Swift" "text" "Jun 1, 2020 at 9:00 AM" "p1" hrun
    (Option.some_get (by decide)).symm
  obtain ⟨postId, dict, -, -, -, hset, -⟩ := hf.reported.1 ⟨by decide, by decide⟩
  exact Table.set_ne_empty ∅ postId dict hset.symm

section Settled

variable {uid : Uid} {r : Option Record}

/-- The account stays signed in and nobody writes its record. -/
def Steady (uid : Uid) (_ : PostForm) : Event → Prop
  | .signIn user => user = uid
  | .signOut => False
  | .write user _ => user ≠ uid
  | _ => True

/-- Only the record of the account can reach the form, and it has or it will. -/
structure Settling (uid : Uid) (r : Option Record) (s : PostForm) : Prop where
  session : s.session = some uid
  record : s.users.lookup uid = r
  listeners : ∀ u ∈ s.listeners, u = uid
  queue : ∀ c ∈ s.queue, c = .auth ∨ c = .value uid r
  username : ∀ name, s.username = some name → ∃ d, r = some d ∧ name = (User.init d).username
  told : ∀ d, r = some d → s.username ≠ none ∨ s.queue ≠ []

theorem settling_viewDidLoad (users : Table Uid Record) (posts : Table String Record) (uid : Uid) :
    Settling uid (users.lookup uid) (viewDidLoad users posts (some uid)) where
  session := rfl
  record := rfl
  listeners := by simp [viewDidLoad]
  queue := by simp [viewDidLoad]
  username := by simp [viewDidLoad]
  told := by simp [viewDidLoad]

theorem settling_run (h : step s .run = some s') (hs : Settling uid r s) : Settling uid r s' := by
  simp only [step] at h
  split at h
  · cases h
  · rename_i q hq
    cases h
    simp only [runAuth, hs.session]
    refine ⟨rfl, hs.record, fun u hu => ?_, fun c hc => ?_, hs.username, by simp⟩
    · rcases List.mem_append.1 hu with hu | hu
      · exact hs.listeners u hu
      · exact List.mem_singleton.1 hu
    · rcases List.mem_append.1 hc with hc | hc
      · exact hs.queue c (hq ▸ List.mem_cons_of_mem _ hc)
      · exact .inr (by rw [List.mem_singleton.1 hc, hs.record])
  · rename_i u dict q hq
    cases h
    have hrest : ∀ c ∈ q, c = .auth ∨ c = .value uid r := fun c hc =>
      hs.queue c (hq ▸ List.mem_cons_of_mem _ hc)
    obtain ⟨rfl, rfl⟩ : u = uid ∧ dict = r := by
      simpa using hs.queue (.value u dict) (hq ▸ List.mem_cons_self)
    cases dict with
    | none => exact ⟨hs.session, hs.record, hs.listeners, hrest, hs.username, by simp⟩
    | some d =>
      exact ⟨hs.session, hs.record, hs.listeners, hrest, by simp [runValue], by simp [runValue]⟩

theorem settling_step (h : step s e = some s') (hok : Steady uid s e) (hs : Settling uid r s) :
    Settling uid r s' := by
  cases e with
  | signIn user =>
    cases h
    obtain rfl : user = uid := hok
    have hquiet : s.queue ++ (if s.session = some user then [] else [.auth]) = s.queue := by
      rw [if_pos hs.session, List.append_nil]
    refine ⟨rfl, hs.record, hs.listeners, ?_, hs.username, ?_⟩
    · simpa only [stateDidChange, hquiet] using hs.queue
    · simpa only [stateDidChange, hquiet] using hs.told
  | signOut => exact hok.elim
  | write user dict =>
    have hne : uid ≠ user := Ne.symm hok
    simp only [step] at h
    split_ifs at h
    cases h
    have hsilent : s.listeners.filter (· = user) = [] := by
      refine List.filter_eq_nil_iff.2 fun u hu => ?_
      rw [hs.listeners u hu]
      simpa using hne
    unfold setRecord
    split_ifs
    · exact hs
    · refine ⟨hs.session, ?_, hs.listeners, ?_, hs.username, ?_⟩
      · cases dict with
        | none => simpa [Table.lookup_erase_of_ne _ hne] using hs.record
        | some d => simpa [Table.lookup_set_of_ne _ _ hne] using hs.record
      · simpa [hsilent] using hs.queue
      · simpa [hsilent] using hs.told
  | run => exact settling_run h hs
  | handleSubmit title detailPost date postId =>
    simp only [step] at h
    split_ifs at h
    cases h
    unfold handleSubmit uploadPost
    split_ifs
    · exact ⟨hs.session, hs.record, hs.listeners, hs.queue, hs.username, hs.told⟩
    · split <;> exact ⟨hs.session, hs.record, hs.listeners, hs.queue, hs.username, hs.told⟩
  | handleDismiss =>
    simp only [step] at h
    split_ifs at h
    cases h
    exact ⟨hs.session, hs.record, hs.listeners, hs.queue, hs.username, hs.told⟩

/-- With one account signed in throughout and its record left alone, a submission after all
the callbacks have run is faithful exactly when a field is empty or the record exists. -/
theorem submit_settled {users : Table Uid Record} {posts : Table String Record}
    {evs : List Event} (hrun : Path step (Steady uid) (viewDidLoad users posts (some uid)) evs s)
    (hquiet : s.queue = []) {title detailPost date postId : String}
    (h : step s (.handleSubmit title detailPost date postId) = some s') :
    Faithful s s' title detailPost ↔
      (title = "" ∨ detailPost = "") ∨ users.lookup uid ≠ none := by
  have hs : Settling uid (users.lookup uid) s := hrun.invariant _
    (settling_viewDidLoad users posts uid) fun _ _ _ hs hok h => settling_step h hok hs
  have hknows : Knows s ↔ users.lookup uid ≠ none := by
    constructor
    · rintro ⟨u, user, hsession, huser, -⟩
      obtain rfl : u = uid := Option.some.inj (hsession.symm.trans hs.session)
      rw [← hs.record, huser]
      simp
    · intro hne
      obtain ⟨d, hd⟩ := Option.ne_none_iff_exists'.1 hne
      obtain ⟨name, hname⟩ := Option.ne_none_iff_exists'.1
        ((hs.told d hd).resolve_right (not_not.2 hquiet))
      obtain ⟨d', hd', rfl⟩ := hs.username name hname
      exact ⟨uid, d', hs.session, hs.record.trans hd', hname⟩
  by_cases hempty : title = "" ∨ detailPost = ""
  · exact iff_of_true (faithful_of_empty h hempty) (.inl hempty)
  · rw [or_iff_right hempty, ← hknows]
    exact faithful_iff_knows h hempty

end Settled

end PostForm

end DevPost
