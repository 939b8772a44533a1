import DevPost.Sanity.MainFeed

/-! The main feed never shows a post twice, and what it shows after a refresh. The
first is the board's `Fresh` carried along a run. The second compares the list the
pending deliveries will settle to with the table: a refresh rebuilds the list from
its own snapshot, which is the whole table, but an empty snapshot rebuilds nothing. -/

namespace DevPost

open Lib FirebaseServices

namespace Feed

variable {F : Foundation} {s s' : Feed} {e : Event}

/-- Edits reach the database while the post is there. -/
def EditsExisting (s : Feed) : Event → Prop
  | .editUserPost postId _ _ _ => s.hub.node.lookup postId ≠ none
  | _ => True

instance (s : Feed) (e : Event) : Decidable (EditsExisting s e) := by
  unfold EditsExisting
  split <;> infer_instance

/-- Every stored post carries its key, and every id around has been generated. -/
structure Keyed (s : Feed) : Prop where
  carries : Carries s.ids s.hub.node
  holds : s.board.Holds (·.postId ∈ s.ids) s.pending

theorem keyed_init : Keyed {} where
  carries := by simp [Carries, Hub.idle]
  holds := ⟨by simp [board], by simp [board], by simp [pending, Hub.idle]⟩

theorem ids_step (h : step F s e = some s') : ∀ i ∈ s.ids, i ∈ s'.ids := by
  intro i hi
  rw [(step_frame h).1.ids]
  exact List.mem_append_right _ hi

theorem carries_step (h : step F s e = some s') (hok : EditsExisting s e)
    (hs : Carries s.ids s.hub.node) : Carries s'.ids s'.hub.node := by
  have hf := (step_frame h).1
  rw [hf.node, hf.ids]
  cases e with
  | uploadPost title detailPost date username userId postId =>
    exact hs.upload title detailPost date username userId postId
  | editUserPost postId title detailPost date => exact hs.edit hok title detailPost date
  | deletePost postId => exact hs.erase postId
  | viewDidLoad | refreshData | textDidChange | runMain => exact hs

theorem sent_mem (h : step F s e = some s') (hok : EditsExisting s e) (hs : Keyed s) :
    ∀ d ∈ s.sent e, d.2.postId ∈ s'.ids := by
  intro d hd
  cases e with
  | viewDidLoad =>
    obtain ⟨p, hp, rfl⟩ := List.mem_map.1 hd
    exact ids_step h _ (hs.carries.mem p hp)
  | uploadPost title detailPost date username userId postId =>
    simp only [sent] at hd
    split at hd
    · obtain ⟨l, -, rfl⟩ := List.mem_map.1 hd
      simp [(step_frame h).1.ids, generated]
    · simp at hd
  | editUserPost => simp [sent, show s.hub.node.lookup _ ≠ none from hok] at hd
  | deletePost | refreshData | textDidChange => simp [sent] at hd
  | runMain =>
    simp only [sent] at hd
    split at hd
    · obtain ⟨p, hp, rfl⟩ := List.mem_map.1 hd
      exact ids_step h _ (hs.carries.mem p hp)
    · simp at hd

theorem keyed_step (h : step F s e = some s') (hok : EditsExisting s e) (hk : Kept s.hub.node)
    (hs : Keyed s) : Keyed s' where
  carries := carries_step h hok hs.carries
  holds := by
    have hold := hs.holds.mono fun p hp => ids_step h p.postId hp
    rcases step_board h hk with ⟨hb, hp⟩ | ⟨d, hp, hb, -⟩
    · rw [hb, hp]
      exact hold.push (sent_mem h hok hs)
    · rw [hp] at hold
      rw [hb]
      exact hold.deliver (sort_perm _)

/-- The captured arrays, the visible list and the queue, along a run that never brings
a deleted post back. -/
structure Sound (s : Feed) : Prop where
  kept : Kept s.hub.node
  keyed : Keyed s
  wired : ∃ rs, Wired s rs
  fresh : s.board.Fresh (·.postId) s.pending

theorem sound_init : Sound {} where
  kept := by simp [Kept, Hub.idle]
  keyed := keyed_init
  wired := ⟨[], wired_init⟩
  fresh := by
    have : pending {} = [] := rfl
    rw [this]
    exact Board.fresh_nil rfl fun _ => rfl

theorem fresh_sent (h : step F s e = some s') (hok : EditsExisting s e) (hs : Sound s) :
    s.board.Fresh (·.postId) (s.pending ++ s.sent e) := by
  obtain ⟨rs, hw⟩ := hs.wired
  have hen := (step_frame h).2
  cases e with
  | viewDidLoad =>
    have hl : s.loaded = false := hen
    obtain ⟨hrs, -, hpend⟩ := hw.unloaded hl
    rw [hpend]
    exact Board.fresh_appends (hw.early hl).2 (fun r => hw.own r (by simp [hrs]))
      hs.keyed.carries.nodup
  | uploadPost title detailPost date username userId postId =>
    simp only [sent]
    split
    · have hne : ∀ p : Posts, p.postId ∈ s.ids → p.postId ≠ postId := fun p hp he => hen (he ▸ hp)
      exact hs.fresh.push_raise hs.keyed.holds hne hw.listeners_nodup.1 hw.listeners_nodup.2
    · simpa using hs.fresh
  | editUserPost => simpa [sent, show s.hub.node.lookup _ ≠ none from hok] using hs.fresh
  | deletePost | refreshData | textDidChange => simpa [sent] using hs.fresh
  | runMain =>
    simp only [sent]
    split
    · rename_i r q hq
      have hr : r ∈ others s.hub.queue := by simp [hq]
      refine hs.fresh.push_snapshot (hw.own r (hw.fresh hr)) (fun d hd he => ?_)
        hs.keyed.carries.nodup
      have hmem := hw.sent d hd
      rw [he] at hmem
      exact hw.fresh hr (hw.mem_listeners.1 hmem)
    · simpa using hs.fresh

theorem sound_step (h : step F s e = some s') (hok : EditsExisting s e) (hs : Sound s) :
    Sound s' where
  kept := kept_step h hs.kept
  keyed := keyed_step h hok hs.kept hs.keyed
  wired := by
    obtain ⟨rs, hw⟩ := hs.wired
    exact ⟨_, wired_step h hs.kept hw⟩
  fresh := by
    have hsent := fresh_sent h hok hs
    rcases step_board h hs.kept with ⟨hb, hp⟩ | ⟨d, hp, hb, hnil⟩
    · rw [hb, hp]
      exact hsent
    · rw [hnil, List.append_nil, hp] at hsent
      rw [hb]
      exact hsent.deliver (sort_perm _)

/-- Under any interleaving of uploads, deletions, edits of posts that exist, refreshes and
deliveries, the feed never holds two posts with one id. -/
theorem posts_nodup {evs : List Event} (h : Path (step F) EditsExisting {} evs s) :
    (s.main.posts.map (·.postId)).Nodup := by
  have hs : Sound s := h.invariant Sound sound_init fun _ _ _ hs hok h => sound_step h hok hs
  exact hs.fresh.visible

/-- Two posts on screen after a refresh that ran into an upload. -/
theorem posts_nodup_run :
    ∃ s, Path (step .ascii) EditsExisting {}
        [.uploadPost "Swift" "text" "Jun 1, 2020 at 9:00 AM" "ann" "u1" "p1", .viewDidLoad,
          .runMain, .runMain, .refreshData, .runMain,
          .uploadPost "Lean" "text" "Jun 2, 2020 at 9:00 AM" "ann" "u1" "p2",
          .editUserPost "p1" "Swift 5" "text" "Jun 3, 2020 at 9:00 AM",
          .runMain, .runMain, .runMain, .runMain, .runMain] s ∧
      s.main.posts.length = 2 ∧ (s.main.posts.map (·.postId)).Nodup :=
  ⟨_, .of_exec_get (by decide), by decide, posts_nodup (F := .ascii) (.of_exec_get (by decide))⟩

/-- Steps that neither edit nor delete a post. -/
def Unedited (_ : Feed) : Event → Prop
  | .editUserPost .. => False
  | .deletePost _ => False
  | _ => True

instance (s : Feed) (e : Event) : Decidable (Unedited s e) := by
  unfold Unedited
  split <;> infer_instance

/-- Every stored key has been generated. -/
def Known (s : Feed) : Prop := ∀ e ∈ s.hub.node.entries, e.1 ∈ s.ids

theorem known_step (h : step F s e = some s') (hs : Known s) : Known s' := by
  obtain ⟨hf, hen⟩ := step_frame h
  intro x hx
  rw [hf.node] at hx
  rw [hf.ids]
  cases e with
  | uploadPost title detailPost date username userId postId =>
    rcases Table.mem_set.1 hx with rfl | ⟨hx, -⟩
    · simp [generated]
    · exact List.mem_append_right _ (hs x hx)
  | editUserPost postId title detailPost date =>
    rcases Table.mem_set.1 hx with rfl | ⟨hx, -⟩
    · exact hen
    · exact hs x hx
  | deletePost postId => exact hs x (Table.mem_erase.1 hx).1
  | viewDidLoad | refreshData | textDidChange | runMain => exact hs x hx

/-- A refresh that registers rebuilds the list from the table; an empty table leaves the
list as it was. -/
theorem settled_register {rs : List ℕ} {r : ℕ} {q : List (Task Closure Record Posts ℕ)}
    (hw : Wired s rs) (hk : Kept s.hub.node) (hq : s.hub.queue = .other r :: q)
    (h : step F s .runMain = some s') :
    s'.settled.own r = s.stored ∧ (∀ r' ≠ r, s'.settled.own r' = s.settled.own r') ∧
      s'.settled.visible = if s.stored = [] then s.settled.visible else s.stored := by
  have hr : r ∉ rs := hw.fresh (by simp [hq])
  have hsent : s.sent .runMain = s.stored.map (.refreshData r, ·) := by simp [sent, hq]
  have hown : s.settled.own r = [] := by
    rw [settled, Board.own_settle_of_notMem]
    · exact hw.own r hr
    · intro d hd he
      have hmem := hw.sent d hd
      rw [he] at hmem
      exact hr (hw.mem_listeners.1 hmem)
  rw [settled_step h hk, hsent]
  refine ⟨?_, fun r' hne => ?_, Board.visible_settle_snapshot byDate _ _ hown⟩
  · rw [Board.own_settle, Board.forRebuild_snapshot, if_pos rfl, hown, List.nil_append]
  · rw [Board.own_settle, Board.forRebuild_snapshot, if_neg (Ne.symm hne), List.append_nil]

/-- Since a refresh took its snapshot: that refresh and the later ones, `late`, will hold
the table, and so will the visible list unless the table is empty. -/
structure Rebuilt (v : List Posts) (s : Feed) : Prop where
  kept : Kept s.hub.node
  known : Known s
  lists : ∃ pre late, Wired s (pre ++ late) ∧ late ≠ [] ∧
    ∀ r ∈ late, (s.settled.own r).Perm s.stored
  shown : s.stored ≠ [] → s.settled.visible.Perm s.stored
  empty : s.stored = [] → s.settled.visible = v

theorem rebuilt_register {rs : List ℕ} {r : ℕ} {q : List (Task Closure Record Posts ℕ)}
    (hw : Wired s rs) (hk : Kept s.hub.node) (hn : Known s) (hq : s.hub.queue = .other r :: q)
    (h : step F s .runMain = some s') : Rebuilt s.settled.visible s' := by
  have hstored : s'.stored = s.stored := by rw [stored, (step_frame h).1.node]; rfl
  obtain ⟨hown, -, hvis⟩ := settled_register hw hk hq h
  have hjoined : s.joined .runMain = [r] := by simp [joined, joins, hq]
  refine ⟨kept_step h hk, known_step h hn, ⟨rs, [r], hjoined ▸ wired_step h hk hw, by simp, ?_⟩,
    fun hne => ?_, fun he => ?_⟩
  · intro r' hr'
    obtain rfl := List.mem_singleton.1 hr'
    rw [hown, hstored]
  · rw [hvis, hstored, if_neg (hstored ▸ hne)]
  · rw [hvis, if_pos (hstored ▸ he)]

theorem Wired.loaded_of_ne_nil {rs : List ℕ} (hw : Wired s rs) (hne : rs ≠ []) :
    s.loaded = true := by
  cases hl : s.loaded
  · exact absurd (hw.unloaded hl).1 hne
  · rfl

theorem stored_upload {title detailPost date username userId postId : String} (hn : Known s)
    (h : step F s (.uploadPost title detailPost date username userId postId) = some s') :
    s'.stored.Perm (s.stored ++ [⟨title, detailPost, date, username, userId, postId⟩]) := by
  obtain ⟨hf, hid⟩ := step_frame h
  rw [stored, hf.node]
  exact upload_perm (Table.lookup_eq_none_of_keys hn hid) ..

/-- An upload reaches every listener, the refreshes that hold the table last. -/
theorem settled_upload {pre late : List ℕ} {title detailPost date username userId postId : String}
    (hw : Wired s (pre ++ late)) (hlate : late ≠ []) (hk : Kept s.hub.node) (hn : Known s)
    (hown : ∀ r ∈ late, (s.settled.own r).Perm s.stored)
    (h : step F s (.uploadPost title detailPost date username userId postId) = some s') :
    (∀ r ∈ late, (s'.settled.own r).Perm s'.stored) ∧ s'.settled.visible.Perm s'.stored := by
  have hid : postId ∉ s.ids := (step_frame h).2
  have hl : s.loaded = true := hw.loaded_of_ne_nil (by simp [hlate])
  have hnodup := List.nodup_append.1 hw.numbers_nodup.of_append_left
  have hperm := stored_upload hn h
  set post : Posts := ⟨title, detailPost, date, username, userId, postId⟩
  -- the listeners before `late` leave the arrays of `late` alone
  set front := (.observeUser :: pre.map .refreshData : List Closure).map (·, post)
  have hsent : s.sent (.uploadPost title detailPost date username userId postId) =
      front ++ late.map (.rebuild ·, post) := by
    simp [sent, Table.lookup_eq_none_of_keys hn hid, hw.listeners, hl, front, post]
  have hfront : ∀ r ∈ late, ((s.settled.settle byDate front).own r).Perm s.stored := by
    intro r hr
    rw [Board.own_settle_of_notMem]
    · exact hown r hr
    · rintro d hd he
      obtain ⟨l, hl, rfl⟩ := List.mem_map.1 hd
      rcases List.mem_cons.1 hl with rfl | hl
      · simp at he
      · obtain ⟨r', hr', rfl⟩ := List.mem_map.1 hl
        exact hnodup.2.2 r' hr' r hr (Feeder.rebuild.inj he)
  obtain ⟨hall, hvis⟩ := Board.settle_rebuilds byDate _ post hnodup.2.1 hfront
  rw [settled_step h hk, hsent, Board.settle_append]
  exact ⟨fun r hr => (hall r hr).trans hperm.symm, (hvis hlate).trans hperm.symm⟩

theorem rebuilt_step {v : List Posts} (h : step F s e = some s') (hok : Unedited s e)
    (hs : Rebuilt v s) : Rebuilt v s' := by
  obtain ⟨pre, late, hw, hlate, hown⟩ := hs.lists
  have hk := hs.kept
  have hn := hs.known
  have hw' := wired_step h hk hw
  -- a step that sends nothing keeps what the lists will be
  have hquiet : s.sent e = [] → s.joined e = [] → s'.stored = s.stored → Rebuilt v s' := by
    intro hsent hjoined hstored
    have hsettled : s'.settled = s.settled := by rw [settled_step h hk, hsent]; rfl
    rw [hjoined, List.append_nil] at hw'
    refine ⟨kept_step h hk, known_step h hn, ⟨pre, late, hw', hlate, ?_⟩, ?_, ?_⟩
    · rw [hsettled, hstored]; exact hown
    · rw [hsettled, hstored]; exact hs.shown
    · rw [hsettled, hstored]; exact hs.empty
  have hnode : s'.hub.node = s.written e := (step_frame h).1.node
  cases e with
  | viewDidLoad =>
    have hl : s.loaded = false := (step_frame h).2
    exact absurd (hw.loaded_of_ne_nil (by simp [hlate])) (by simp [hl])
  | uploadPost title detailPost date username userId postId =>
    obtain ⟨hall, hvis⟩ := settled_upload hw hlate hk hn hown h
    rw [show s.joined _ = [] from rfl, List.append_nil] at hw'
    refine ⟨kept_step h hk, known_step h hn, ⟨pre, late, hw', hlate, hall⟩, fun _ => hvis, ?_⟩
    intro he
    have := (stored_upload hn h).length_eq
    simp [he] at this
  | editUserPost | deletePost => exact hok.elim
  | refreshData | textDidChange => exact hquiet rfl rfl (by rw [stored, hnode]; rfl)
  | runMain =>
    have hstored : s'.stored = s.stored := by rw [stored, hnode]; rfl
    by_cases hreg : ∃ r q, s.hub.queue = .other r :: q
    · obtain ⟨r, q, hq⟩ := hreg
      obtain ⟨hr, hne, hvis⟩ := settled_register hw hk hq h
      have hjoined : s.joined .runMain = [r] := by simp [joined, joins, hq]
      rw [hjoined, List.append_assoc] at hw'
      refine ⟨kept_step h hk, known_step h hn, ⟨pre, late ++ [r], hw', by simp, ?_⟩, ?_, ?_⟩
      · intro r' hr'
        rw [hstored]
        by_cases he : r' = r
        · rw [he, hr]
        · rw [hne r' he]
          exact hown r' ((List.mem_append.1 hr').resolve_right (by simpa using he))
      · intro hempty
        rw [hstored] at hempty ⊢
        rw [hvis, if_neg hempty]
      · intro hempty
        rw [hstored] at hempty
        rw [hvis, if_pos hempty]
        exact hs.empty hempty
    · have hnone : ∀ r q, s.hub.queue ≠ .other r :: q := fun r q hq => hreg ⟨r, q, hq⟩
      refine hquiet ?_ ?_ hstored
      · simp only [sent]
      · simp only [joined, joins]
        rfl

theorem run_wired {evs : List Event} (h : Path (step F) anyStep {} evs s) :
    Kept s.hub.node ∧ Known s ∧ ∃ rs, Wired s rs :=
  h.invariant (fun s => Kept s.hub.node ∧ Known s ∧ ∃ rs, Wired s rs)
    ⟨by simp [Kept, Hub.idle], by simp [Known, Hub.idle], [], wired_init⟩
    fun _ _ _ ⟨hk, hn, _, hw⟩ _ h => ⟨kept_step h hk, known_step h hn, _, wired_step h hk hw⟩

/-- When the queue is empty and no post was edited or deleted since a refresh took its
snapshot, the feed holds the table exactly, unless the table is empty: then the refresh
left in the list whatever was in it, or still on its way to it, before the snapshot. -/
theorem refresh_shows_stored {s₀ s₁ : Feed} {r : ℕ} {q : List (Task Closure Record Posts ℕ)}
    {pre evs : List Event} (hpre : Path (step F) anyStep {} pre s₀)
    (hq : s₀.hub.queue = .other r :: q) (hreg : step F s₀ .runMain = some s₁)
    (hrun : Path (step F) Unedited s₁ evs s) (hquiet : s.hub.queue = []) :
    s.main.posts.Perm s.stored ↔
      s.hub.node ≠ ∅ ∨ s₀.pending = [] ∧ s₀.main.posts = [] := by
  obtain ⟨hk, hn, rs, hw⟩ := run_wired hpre
  have hs : Rebuilt s₀.settled.visible s :=
    hrun.invariant (Rebuilt s₀.settled.visible) (rebuilt_register hw hk hn hq hreg)
      fun _ _ _ hs hok h => rebuilt_step h hok hs
  have hposts : s.settled.visible = s.main.posts := by rw [settled_of_quiet hquiet]; rfl
  have hstored : s.stored = [] ↔ s.hub.node = ∅ := by
    rw [stored, List.map_eq_nil_iff, Table.ext_iff]
    rfl
  have hbefore : s₀.settled.visible = [] ↔ s₀.pending = [] ∧ s₀.main.posts = [] :=
    Board.visible_settle_eq_nil (sort_perm _) s₀.board s₀.pending
  by_cases hempty : s.stored = []
  · rw [← hbefore, ← hs.empty hempty, hposts, hempty, List.perm_nil]
    simp [hstored.1 hempty]
  · have hne : s.hub.node ≠ ∅ := fun he => hempty (hstored.2 he)
    have := hs.shown hempty
    rw [hposts] at this
    exact iff_of_true this (.inl hne)

/-- A post uploaded by someone else, shown, then deleted, and the feed refreshed. -/
theorem refresh_shows_stored_run :
    ∃ s₀ s₁ s : Feed, ∃ r q,
      Path (step .ascii) anyStep {}
        [.uploadPost "Swift" "text" "Jun 1, 2020 at 9:00 AM" "ann" "u1" "p1", .viewDidLoad,
          .runMain, .runMain, .refreshData] s₀ ∧
      s₀.hub.queue = .other r :: q ∧ step .ascii s₀ .runMain = some s₁ ∧
      Path (step .ascii) Unedited s₁
        [.uploadPost "Lean" "text" "Jun 2, 2020 at 9:00 AM" "ann" "u1" "p2",
          .runMain, .runMain, .runMain, .runMain, .runMain, .runMain] s ∧
      s.hub.queue = [] ∧
      (s.main.posts.Perm s.stored ↔ s.hub.node ≠ ∅ ∨ s₀.pending = [] ∧ s₀.main.posts = []) := by
  have hpre : Path (step .ascii) anyStep {}
      [.uploadPost "Swift" "text" "Jun 1, 2020 at 9:00 AM" "ann" "u1" "p1", .viewDidLoad,
        .runMain, .runMain, .refreshData] _ := .of_exec_get (by decide)
  exact ⟨_, _, _, 0, [], hpre, rfl, (Option.some_get (by decide)).symm, .of_exec_get (by decide),
    by decide, refresh_shows_stored (F := .ascii) hpre rfl (Option.some_get (by decide)).symm
      (.of_exec_get (by decide)) (by decide)⟩

/-- The refresh that follows the deletion of the only post leaves it on screen. -/
theorem refresh_keeps_deleted :
    ¬ ∀ (F : Foundation) (s₀ s₁ s : Feed) (r : ℕ) (q : List (Task Closure Record Posts ℕ))
        (pre evs : List Event), Path (step F) anyStep {} pre s₀ → s₀.hub.queue = .other r :: q →
        step F s₀ .runMain = some s₁ → Path (step F) Unedited s₁ evs s → s.hub.queue = [] →
        s.main.posts.Perm s.stored := by
  intro h
  have hpre : Path (step .ascii) anyStep {}
      [.uploadPost "Swift" "text" "Jun 1, 2020 at 9:00 AM" "ann" "u1" "p1", .viewDidLoad,
        .runMain, .runMain, .deletePost "p1", .refreshData] _ := .of_exec_get (by decide)
  have hperm := h .ascii _ _ _ 0 [] _ [] hpre (by decide) (Option.some_get (by decide)).symm
    .nil (by decide)
  exact absurd hperm (by decide)

end Feed

end DevPost
