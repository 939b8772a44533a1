import DevPost.Lib.Mirror
import DevPost.Proofs.MainFeed
import DevPost.Proofs.MyCommentsRefresh
import DevPost.Proofs.Network

/-! Screens that agree. A feed that loads or is pulled down mirrors the table from the moment
its snapshot is taken until a post is edited or deleted, whoever uploads in the meantime. So
the feeds of any devices that were pulled down since the last edit have the same posts once
their queues are empty, those of the database, and My Comments of any device shows the part
of them that its account wrote. A feed shows its posts as long as no text is searched. -/

namespace DevPost

open Lib FirebaseServices

namespace Feed

variable {F : Foundation} {s s' s₀ : Feed} {e : Event}

/-- What every run keeps. -/
def Steady (s : Feed) : Prop := Kept s.hub.node ∧ Known s ∧ ∃ rs, Wired s rs

theorem steady_step (h : step F s e = some s') : Steady s → Steady s' := fun ⟨hk, hn, _, hw⟩ =>
  ⟨kept_step h hk, known_step h hn, _, wired_step h hk hw⟩

/-- What the lists will be mirrors the table. -/
def Current (s : Feed) : Prop := s.settled.Mirrors s.hub.listeners s.stored

theorem stored_of_node (h : s'.hub.node = s.hub.node) : s'.stored = s.stored := by
  rw [stored, h]
  rfl

theorem current_viewDidLoad (hs : Steady s) (h : step F s .viewDidLoad = some s') :
    Current s' := by
  obtain ⟨hk, -, rs, hw⟩ := hs
  obtain ⟨hf, hl⟩ := step_frame h
  have hl : s.loaded = false := hl
  obtain ⟨hrs, hlisteners, hpending⟩ := hw.unloaded hl
  have hv : s.settled.visible = [] := by
    rw [settled, hpending]
    exact (hw.early hl).2
  rw [Current, settled_step h hk, hf.listeners, hlisteners, stored_of_node hf.node]
  exact Board.mirrors_first (sort_perm _) hv

theorem current_register (hs : Steady s) {r : ℕ} {q : List (Task Closure Record Posts ℕ)}
    (hq : s.hub.queue = .other r :: q) (h : step F s .runMain = some s') : Current s' := by
  obtain ⟨hk, -, rs, hw⟩ := hs
  have hf := (step_frame h).1
  obtain ⟨hown, -, hvisible⟩ := settled_register hw hk hq h
  have hlisteners : s'.hub.listeners = s.hub.listeners ++ [.refreshData r] := by
    simp [hf.listeners, joins, hq]
  rw [← stored_of_node hf.node] at hown hvisible
  refine ⟨.inr ⟨_, r, hlisteners, .of_eq hown⟩, fun hne => ?_⟩
  rw [hvisible, if_neg hne]

theorem current_step (hs : Steady s) (h : step F s e = some s') (hok : Unedited s e)
    (hc : Current s) : Current s' := by
  obtain ⟨hk, hn, rs, hw⟩ := hs
  have hf := (step_frame h).1
  have hsettled := settled_step h hk
  -- a step that sends nothing and registers nobody
  have hquiet : s.sent e = [] → s.joins e = [] → s'.stored = s.stored → Current s' := by
    intro hsent hjoins hstored
    rw [Current, hsettled, hsent, hf.listeners, hjoins, List.append_nil, hstored]
    exact hc
  cases e with
  | viewDidLoad => exact current_viewDidLoad ⟨hk, hn, rs, hw⟩ h
  | uploadPost title detailPost date username userId postId =>
    have hid : postId ∉ s.ids := (step_frame h).2
    have hsent : s.sent (.uploadPost title detailPost date username userId postId) =
        s.hub.listeners.map (·, ⟨title, detailPost, date, username, userId, postId⟩) := by
      simp [sent, Table.lookup_eq_none_of_keys hn hid]
    rw [Current, hsettled, hsent, hf.listeners, show s.joins _ = [] from rfl, List.append_nil]
    exact (hc.raise (sort_perm _) hw.listeners_nodup.1 _).perm (stored_upload hn h).symm
  | editUserPost | deletePost => exact hok.elim
  | refreshData | textDidChange => exact hquiet rfl rfl (stored_of_node hf.node)
  | runMain =>
    by_cases hreg : ∃ r q, s.hub.queue = .other r :: q
    · obtain ⟨r, q, hq⟩ := hreg
      exact current_register ⟨hk, hn, rs, hw⟩ hq h
    · have hnone : ∀ r q, s.hub.queue ≠ .other r :: q := fun r q hq => hreg ⟨r, q, hq⟩
      refine hquiet ?_ ?_ (stored_of_node hf.node)
      · simp only [sent]
      · simp only [joins]

/-- A refresh has been asked for that will take its snapshot, or one has been taken. -/
def Due (s : Feed) : Prop := others s.hub.queue ≠ [] ∨ Current s

theorem due_step (hs : Steady s) (h : step F s e = some s') (hok : Unedited s e)
    (hd : Due s) : Due s' := by
  rcases hd with hne | hc
  · by_cases hreg : ∃ r q, e = .runMain ∧ s.hub.queue = .other r :: q
    · obtain ⟨r, q, rfl, hq⟩ := hreg
      exact .inr (current_register hs hq h)
    · have hjoined : s.joined e = [] := by
        cases e with
        | runMain =>
          simp only [joined, joins]
          split
          · rename_i r q hq
            exact absurd ⟨r, q, rfl, hq⟩ hreg
          · rfl
        | viewDidLoad | uploadPost | editUserPost | deletePost | refreshData | textDidChange =>
          rfl
      have hothers := (step_frame h).1.others
      rw [hjoined, List.nil_append] at hothers
      exact .inl fun hnil => hne (List.append_eq_nil_iff.1 (hothers.symm.trans hnil)).1
  · exact .inr (current_step hs h hok hc)

/-- The events that make a feed take a snapshot. -/
def Event.pulls (e : Event) : Prop := e = .viewDidLoad ∨ e = .refreshData

theorem due_pulls (hs : Steady s) (h : step F s e = some s') (hp : e.pulls) : Due s' := by
  rcases hp with rfl | rfl
  · exact .inr (current_viewDidLoad hs h)
  · refine .inl fun hnil => ?_
    have hothers := (step_frame h).1.others
    rw [hnil] at hothers
    simp [joined, joins, asked] at hothers

/-- A feed that was loaded or pulled down since the last edit or deletion shows the table. -/
theorem shows_stored (hs₀ : Steady s₀) {evs : List Event} (h : Path (step F) Unedited s₀ evs s)
    (hp : ∃ e ∈ evs, e.pulls) (hquiet : s.hub.queue = []) (hne : s.stored ≠ []) :
    s.main.posts.Perm s.stored := by
  have hdue : Steady s ∧ ((∃ e ∈ evs, e.pulls) → Due s) := by
    clear hquiet hne hp
    induction h with
    | nil => exact ⟨hs₀, by simp⟩
    | snoc _ hok hstep ih =>
      refine ⟨steady_step hstep ih.1, fun ⟨e, he, hp⟩ => ?_⟩
      rcases List.mem_append.1 he with he | he
      · exact due_step ih.1 hstep hok (ih.2 ⟨e, he, hp⟩)
      · exact due_pulls ih.1 hstep (List.mem_singleton.1 he ▸ hp)
  have hc : Current s := (hdue.2 hp).resolve_left fun hothers => hothers (by simp [hquiet])
  have hv := hc.shown hne
  rwa [settled_of_quiet hquiet] at hv

end Feed

namespace Device

variable {F : Foundation} {d d' d₀ : Device} {e : Event}

/-- Nothing is edited or deleted: My Comments hears of both. -/
def Growing (d : Device) (e : Event) : Prop :=
  ∀ me ∈ d.mineEvent e, MyComments.Unedited me ∧ MyComments.Undeleted me

instance (d : Device) (e : Event) : Decidable (d.Growing e) := by
  unfold Growing
  infer_instance

/-- One account, which has a uid, uses the device. -/
def OneUser (d : Device) (e : Event) : Prop := ∀ me ∈ d.mineEvent e, MyComments.Alone d.mine me

instance (d : Device) (e : Event) : Decidable (d.OneUser e) := by
  unfold OneUser
  infer_instance

theorem mineEvent_of_call {c : Database.Call} (h : d.call e = some c) :
    d.mineEvent e = c.mine ∨
      ∃ me, e = .mine me ∧ ¬ (MyComments.Unedited me ∧ MyComments.Undeleted me) := by
  cases e with
  | mine me =>
    cases me with
    | deletePost | editUserPost =>
      exact .inr ⟨_, rfl, by simp [MyComments.Unedited, MyComments.Undeleted]⟩
    | viewDidLoad | signIn | signOut | uploadPost | remoteEdit | remoteDelete | refreshData
    | deleteIconTapped | editIconTapped | cancel | layout | runMain => cases h
  | feed => cases h
  | didSelectItemAt | runThreads | handleSubmit | handleSubmitComment | call =>
    rw [mineEvent, h]
    · exact .inl rfl
    · simp

theorem growing_call (d' : Device) {c : Database.Call} (hok : d.Growing e) (h : d.call e = some c) :
    d'.Growing (.call c) := by
  rcases mineEvent_of_call h with hm | ⟨me, rfl, hnot⟩
  · intro me hme
    exact hok me (hm ▸ hme)
  · exact absurd (hok me rfl) hnot

theorem oneUser_call {c : Database.Call} : d.OneUser (.call c) := by
  intro me hme
  cases c with
  | uploadPost | editUserPost | deletePost =>
    obtain rfl := Option.some.inj hme
    exact ⟨trivial, trivial⟩
  | createUser | updateUserInfo | deleteUser | postComment => cases hme

theorem growing_feed (hadm : e.admissible) (hok : d.Growing e) :
    ∀ fe ∈ d.feedEvent e, Feed.Unedited d.feed fe := by
  intro fe hfe
  cases hcall : d.call e with
  | none =>
    cases e with
    | feed fe' =>
      obtain rfl := Option.some.inj hfe
      cases fe' with
      | uploadPost | editUserPost | deletePost => cases hadm
      | viewDidLoad | refreshData | textDidChange | runMain => trivial
    | mine | didSelectItemAt | runThreads | handleSubmit | handleSubmitComment | call =>
      rw [feedEvent, hcall] at hfe
      · cases hfe
      · simp
  | some c =>
    rw [feedEvent_of_call hcall] at hfe
    have hgrow := growing_call d hok hcall
    cases c with
    | uploadPost =>
      obtain rfl := Option.some.inj hfe
      trivial
    | editUserPost => exact absurd (hgrow _ rfl).1 id
    | deletePost => exact absurd (hgrow _ rfl).2 id
    | createUser | updateUserInfo | deleteUser | postComment => cases hfe

theorem feed_run {ok : Device → Event → Prop} (okf : Feed → Feed.Event → Prop) {evs : List Event}
    (h : Path (step F) ok d₀ evs d)
    (hok : ∀ d e, ok d e → e.admissible → ∀ fe ∈ d.feedEvent e, okf d.feed fe) :
    ∃ evs', Path (Feed.step F) okf d₀.feed evs' d.feed ∧ ∀ fe, .feed fe ∈ evs → fe ∈ evs' := by
  obtain ⟨evs', hpath, hmem⟩ := h.project Device.feed feedEvent
    (fun d e d' hs => (step_parts hs).2.1) fun d e d' ho hs => hok d e ho (step_parts hs).1.1
  exact ⟨evs', hpath, fun fe hfe => hmem _ hfe fe fun _ => rfl⟩

theorem mine_run {ok : Device → Event → Prop} (okm : MyComments → MyComments.Event → Prop)
    {evs : List Event} (h : Path (step F) ok d₀ evs d)
    (hok : ∀ d e, ok d e → ∀ me ∈ d.mineEvent e, okm d.mine me) :
    ∃ evs', Path MyComments.step okm d₀.mine evs' d.mine ∧ ∀ me, .mine me ∈ evs → me ∈ evs' := by
  obtain ⟨evs', hpath, hmem⟩ := h.project Device.mine mineEvent
    (fun d e d' hs => (step_parts hs).2.2.1) fun d e _ ho _ => hok d e ho
  exact ⟨evs', hpath, fun me hme => hmem _ hme me fun _ => rfl⟩

end Device

namespace Network

open Device

variable {F : Foundation} {ι : Type*} [DecidableEq ι] {s s₀ : ι → Device}
  {pre evs : List (ι × Device.Event)}

/-- No device edits or deletes a post. -/
def Growing (s : ι → Device) (a : ι × Device.Event) : Prop := (s a.1).Growing a.2

/-- The device `i` is used by one account. -/
def OneUser (i : ι) (s : ι → Device) (a : ι × Device.Event) : Prop :=
  a.1 = i → (s i).OneUser a.2

instance (s : ι → Device) (a : ι × Device.Event) : Decidable (Growing s a) := by
  unfold Growing
  infer_instance

instance (i : ι) (s : ι → Device) (a : ι × Device.Event) : Decidable (OneUser i s a) := by
  unfold OneUser
  infer_instance

theorem growing_heard {a : ι × Device.Event} (h : Growing s a) (j : ι) :
    ∀ e ∈ (Network F).heard j s a, (s j).Growing e := by
  intro e he
  by_cases hj : j = a.1
  · rw [Peer.heard, if_pos hj] at he
    obtain rfl := Option.some.inj he
    rw [hj]
    exact h
  · rw [Peer.heard, if_neg hj] at he
    obtain ⟨c, hc, rfl⟩ := Option.map_eq_some_iff.1 he
    exact growing_call _ h hc

theorem oneUser_heard {a : ι × Device.Event} {i : ι} (h : OneUser i s a) :
    ∀ e ∈ (Network F).heard i s a, (s i).OneUser e := by
  intro e he
  by_cases hi : i = a.1
  · rw [Peer.heard, if_pos hi] at he
    obtain rfl := Option.some.inj he
    exact h hi.symm
  · rw [Peer.heard, if_neg hi] at he
    obtain ⟨c, -, rfl⟩ := Option.map_eq_some_iff.1 he
    exact oneUser_call

/-- The feed of a device has loaded or was pulled down. -/
def Pulled (i : ι) (evs : List (ι × Device.Event)) : Prop :=
  (i, .feed .viewDidLoad) ∈ evs ∨ (i, .feed .refreshData) ∈ evs

variable [Fintype ι]

instance (i : ι) (evs : List (ι × Device.Event)) : Decidable (Pulled i evs) := instDecidableOr

/-- A feed that was loaded or pulled down since the last edit or deletion on any device has what
is stored. -/
theorem feed_shows {ok okAfter : (ι → Device) → ι × Device.Event → Prop}
    (hpre : Path (Network F).all ok launch pre s₀) (hrun : Path (Network F).all okAfter s₀ evs s)
    (hok : ∀ s a, okAfter s a → Growing s a) {j : ι} (hp : Pulled j evs)
    (hquiet : (s j).feed.hub.queue = []) (hne : (s j).feed.stored ≠ []) :
    (s j).feed.main.posts.Perm (s j).feed.stored := by
  obtain ⟨evs₀, hpath₀, -⟩ := Peer.run_of anyStep hpre j fun _ _ _ _ _ _ _ => trivial
  obtain ⟨fevs₀, hfeed₀, -⟩ := feed_run anyStep hpath₀ fun _ _ _ _ _ _ => trivial
  obtain ⟨evs₁, hpath, hmem⟩ := Peer.run_of Device.Growing hrun j
    fun s a _ ha _ => growing_heard (hok s a ha) j
  obtain ⟨fevs, hfeed, hfmem⟩ := feed_run Feed.Unedited hpath
    fun d e ho hadm => growing_feed hadm ho
  have hs₀ : Feed.Steady (s₀ j).feed := Feed.run_wired hfeed₀
  refine Feed.shows_stored hs₀ hfeed ?_ hquiet hne
  rcases hp with hp | hp
  · exact ⟨_, hfmem _ (hmem _ hp), .inl rfl⟩
  · exact ⟨_, hfmem _ (hmem _ hp), .inr rfl⟩

/-- All feeds that were loaded or pulled down since the last edit or deletion, on any devices,
have the posts of one database. -/
theorem feeds_agree (hpre : Path (Network F).all anyStep launch pre s₀)
    (hrun : Path (Network F).all Growing s₀ evs s) :
    ∃ db, Path Database.step anyStep {} (calls F (pre ++ evs)) db ∧ (∀ i, Copies db (s i)) ∧
      (db.posts ≠ ∅ → ∀ i, Pulled i evs → (s i).feed.hub.queue = [] →
        (s i).feed.main.posts.Perm (db.posts.entries.map fun x => Posts.init x.2)) := by
  have hall : Path (Network F).all anyStep launch (pre ++ evs) s :=
    hpre.trans (hrun.mono fun _ _ _ => trivial)
  obtain ⟨db, hpath, hcopies⟩ := copies_run hall
  refine ⟨db, hpath, hcopies, fun hne i hp hquiet => ?_⟩
  have hstored : (s i).feed.stored = db.posts.entries.map fun x => Posts.init x.2 := by
    rw [Feed.stored, (hcopies i).feed.1]
  rw [← hstored]
  refine feed_shows hpre hrun (fun _ _ h => h) hp hquiet ?_
  rw [hstored]
  exact fun hnil => hne (Table.ext (List.map_eq_nil_iff.1 hnil))

/-- One feed loaded and the other pulled down after a deletion, before the last upload. -/
theorem feeds_agree_run :
    let pre : List (Fin 2 × Device.Event) :=
      [(0, .mine (.signIn "a")), (0, .feed .viewDidLoad),
        (0, .handleSubmit "Swift" "text" "Jun 1, 2020 at 9:00 AM" (some "ann") "p1"),
        (0, .handleSubmit "Lean" "text" "Jun 2, 2020 at 9:00 AM" (some "ann") "p2"),
        (0, .feed .runMain), (0, .feed .runMain), (0, .feed .runMain), (0, .feed .runMain),
        (1, .call (.deletePost "p1"))]
    let evs : List (Fin 2 × Device.Event) :=
      [(1, .feed .viewDidLoad), (0, .feed .refreshData), (0, .feed .runMain),
        (0, .handleSubmit "Rust" "text" "Jun 3, 2020 at 9:00 AM" (some "ann") "p3"),
        (0, .feed .runMain), (0, .feed .runMain), (0, .feed .runMain), (0, .feed .runMain),
        (0, .feed .runMain), (0, .feed .runMain), (1, .feed .runMain), (1, .feed .runMain),
        (1, .feed .runMain), (1, .feed .runMain)]
    ∃ s₀ s, Path (Network .ascii).all anyStep launch pre s₀ ∧
      Path (Network .ascii).all Growing s₀ evs s ∧
      (∀ i, Pulled i evs ∧ (s i).feed.hub.queue = [] ∧ (s i).feed.main.posts.length = 2) ∧
      ∃ db, Path Database.step anyStep {} (calls .ascii (pre ++ evs)) db ∧
        (∀ i, Copies db (s i)) ∧
        (db.posts ≠ ∅ → ∀ i, Pulled i evs → (s i).feed.hub.queue = [] →
          (s i).feed.main.posts.Perm (db.posts.entries.map fun x => Posts.init x.2)) := by
  intro pre evs
  refine ⟨_, _, .of_exec_get (by decide), .of_exec_get (by decide), by decide, ?_⟩
  exact feeds_agree (.of_exec_get (by decide)) (.of_exec_get (by decide))

/-- On a device where one account signs in, once, My Comments shows the account's part of the
posts of any feed, when both were loaded or pulled down since the last edit or deletion. -/
theorem mine_in_feeds {i j : ι} (hpre : Path (Network F).all (OneUser i) launch pre s₀)
    (hrun : Path (Network F).all (fun s a => OneUser i s a ∧ Growing s a) s₀ evs s)
    (hmine : (i, .mine .viewDidLoad) ∈ evs ∨ (i, .mine .refreshData) ∈ evs) (hfeed : Pulled j evs)
    (hquiet : (s i).mine.hub.queue = []) (hquiet' : (s j).feed.hub.queue = []) {u : Uid}
    (hu : (s i).mine.session = some u) (hne : (s i).mine.storedBy u ≠ []) :
    (s i).mine.vc.myPost.Perm ((s j).feed.main.posts.filter fun p => u = p.userId) := by
  have hall : Path (Network F).all anyStep launch (pre ++ evs) s :=
    (hpre.mono fun _ _ _ => trivial).trans (hrun.mono fun _ _ _ => trivial)
  obtain ⟨db, -, hcopies⟩ := copies_run hall
  have hstored : (s j).feed.stored = (s i).mine.stored := by
    rw [Feed.stored, MyComments.stored, (hcopies j).feed.1, (hcopies i).mine.1]
  have hfeed : (s j).feed.main.posts.Perm (s j).feed.stored := by
    refine feed_shows hpre hrun (fun _ _ h => h.2) hfeed hquiet' fun hnil => hne ?_
    rw [MyComments.storedBy, ← hstored, hnil]
    rfl
  obtain ⟨evs₀, hpath₀, -⟩ := Peer.run_of Device.OneUser hpre i
    fun _ _ _ h _ => oneUser_heard h
  obtain ⟨mevs₀, hmine₀, -⟩ := mine_run MyComments.Alone hpath₀ fun _ _ h => h
  obtain ⟨evs₁, hpath, hmem⟩ := Peer.run_of (fun d e => d.OneUser e ∧ d.Growing e) hrun i
    fun _ _ _ h _ e he => ⟨oneUser_heard h.1 e he, growing_heard h.2 i e he⟩
  obtain ⟨mevs, hmine₁, hmmem⟩ := mine_run MyComments.Growing hpath
    fun _ _ h me hme => ⟨h.1 me hme, h.2 me hme⟩
  have hpulls : ∃ e ∈ mevs, MyComments.Event.pulls e := by
    rcases hmine with hmine | hmine
    · exact ⟨_, hmmem _ (hmem _ hmine), .inl rfl⟩
    · exact ⟨_, hmmem _ (hmem _ hmine), .inr rfl⟩
  have hshows := (MyComments.current_run hmine₀ hmine₁ hpulls hquiet hu).shows hquiet hne
  rw [MyComments.storedBy, ← hstored] at hshows
  exact hshows.trans (hfeed.filter _).symm

/-- A post is edited on one device, whose My Comments is then pulled down, and the feed of
another device loads after a post of its own account. -/
theorem mine_in_feeds_run :
    ∃ s₀ s : Fin 2 → Device, Path (Network .ascii).all (OneUser 0) launch
        [(0, .mine (.signIn "a")), (1, .mine (.signIn "b")), (0, .mine .viewDidLoad),
          (0, .handleSubmit "Swift" "text" "Jun 1, 2020 at 9:00 AM" (some "ann") "p1"),
          (1, .handleSubmit "Lean" "text" "Jun 2, 2020 at 9:00 AM" (some "bob") "p2"),
          (0, .mine (.runMain [])), (0, .mine (.runMain [])), (0, .mine (.runMain [])),
          (0, .mine (.runMain [(0, 0)])), (0, .mine (.editIconTapped 0)),
          (0, .mine (.editUserPost "Swift 5" "text" "Jun 3, 2020 at 9:00 AM"))] s₀ ∧
      Path (Network .ascii).all (fun s a => OneUser 0 s a ∧ Growing s a) s₀
        [(0, .mine .refreshData), (0, .mine (.runMain [])), (1, .feed .viewDidLoad),
          (0, .mine (.runMain [])), (0, .mine (.runMain [])), (0, .mine (.runMain [])),
          (0, .mine (.runMain [])), (0, .mine (.runMain [])), (1, .feed .runMain),
          (1, .feed .runMain), (1, .feed .runMain), (1, .feed .runMain)] s ∧
      (s 1).feed.main.posts.map (·.title) = ["Swift 5", "Lean"] ∧
      (s 0).mine.vc.myPost.Perm ((s 1).feed.main.posts.filter fun p => "a" = p.userId) := by
  refine ⟨_, _, .of_exec_get (by decide), .of_exec_get (by decide), by decide, ?_⟩
  exact mine_in_feeds (i := 0) (j := 1) (.of_exec_get (by decide)) (.of_exec_get (by decide))
    (by decide) (by decide) (by decide) (by decide) (by decide) (by decide)

end Network

end DevPost
