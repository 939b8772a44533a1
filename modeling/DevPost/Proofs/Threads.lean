import DevPost.Sanity.Sorted

/-! The comment threads. The list of a screen together with the events still on their way to
its listener is what the node holds on its post: a registration is owed the whole node, and
every comment written later is owed once to each listener. Each event adds what belongs to
the post, in the order of the dates, so with nothing on its way the thread is complete. -/

namespace DevPost

open Lib FirebaseServices

namespace Threads

variable {s s' : Threads} {e : Event} {node : Table String Child}

/-- The comments on a post among some children. -/
def wanted (post : Posts) (children : List Child) : List Comments :=
  (children.filterMap Child.comments).filter fun x => x.postId = post.postId

@[simp] theorem wanted_nil (post : Posts) : wanted post [] = [] := rfl

theorem wanted_append (post : Posts) (xs ys : List Child) :
    wanted post (xs ++ ys) = wanted post xs ++ wanted post ys := by
  simp [wanted, List.filterMap_append]

theorem wanted_cons (post : Posts) (child : Child) (children : List Child) :
    wanted post (child :: children) = wanted post [child] ++ wanted post children :=
  wanted_append post [child] children

theorem wanted_perm (post : Posts) {xs ys : List Child} (h : xs.Perm ys) :
    (wanted post xs).Perm (wanted post ys) := (h.filterMap _).filter _

theorem wanted_stored (s : Threads) (post : Posts) :
    wanted post (s.hub.node.entries.map (·.2)) =
      s.stored.filter fun x => x.postId = post.postId := by
  rw [wanted, List.filterMap_map]
  rfl

section Screen

variable {c : CommentsController}

theorem post_fetchComments (child : Child) : (c.fetchComments child).post = c.post := by
  unfold CommentsController.fetchComments
  split
  · rfl
  · split_ifs <;> rfl

theorem comments_fetchComments {post : Posts} (hpost : c.post = some post) (child : Child) :
    (c.fetchComments child).comments = feed (·.date) c.comments (wanted post [child]) := by
  unfold CommentsController.fetchComments wanted
  cases hchild : child.comments with
  | none => simp [hchild, feed]
  | some comment =>
    by_cases hid : comment.postId = post.postId
    · have hmatch : c.post.map (·.postId) = some comment.postId := by simp [hpost, hid]
      have hsort := sort_orderedAscending (c.comments ++ [comment])
      simp [hchild, hid, hmatch, CommentsController.fetchPosts, CommentsController.reloadData,
        feed, appendSort, hsort]
    · have hother : c.post.map (·.postId) ≠ some comment.postId := by
        simpa [hpost] using Ne.symm hid
      simp [hchild, hid, hother, CommentsController.fetchPosts, feed]

/-- The list is in order, and the table view knows its length. -/
def Sorted (c : CommentsController) : Prop :=
  InOrder (·.date) c.comments ∧ c.rows = c.comments.length

theorem sorted_fetchComments (hs : Sorted c) (child : Child) : Sorted (c.fetchComments child) := by
  unfold CommentsController.fetchComments
  cases child.comments with
  | none => exact hs
  | some comment =>
    dsimp only
    split_ifs
    · refine ⟨?_, rfl⟩
      have hsort := sortOn_inOrder (·.date) (c.comments ++ [comment])
      rwa [← sort_orderedAscending] at hsort
    · exact hs

end Screen

/-- The listeners are the screens with a post, and what a screen has and is still owed is
what the node holds on its post. -/
structure Sound (s : Threads) : Prop where
  nodup : s.hub.listeners.Nodup
  registered : ∀ i, i ∈ s.hub.listeners ↔ ∃ c post, s.screens[i]? = some c ∧ c.post = some post
  addressed : ∀ t ∈ s.hub.queue, ∃ i ∈ s.hub.listeners, ∃ child, t = .event i child
  thread : ∀ i c post, s.screens[i]? = some c → c.post = some post →
    (c.comments ++ wanted post (owed i s.hub.queue)).Perm
      (wanted post (s.hub.node.entries.map (·.2)))
  sorted : ∀ c ∈ s.screens, Sorted c

theorem sound_launch (node : Table String Child) : Sound (launch node) where
  nodup := .nil
  registered := by simp [launch]
  addressed := by simp [launch]
  thread := by simp [launch]
  sorted := by simp [launch]

theorem Sound.owed_eq_nil (hs : Sound s) {i : ℕ} (hi : i ∉ s.hub.listeners) :
    owed i s.hub.queue = [] := by
  refine List.filterMap_eq_nil_iff.2 fun t ht => ?_
  obtain ⟨j, hj, child, rfl⟩ := hs.addressed t ht
  exact if_neg fun (he : j = i) => hi (he ▸ hj)

theorem Sound.lt_length (hs : Sound s) {i : ℕ} (hi : i ∈ s.hub.listeners) :
    i < s.screens.length := by
  obtain ⟨c, post, hc, -⟩ := (hs.registered i).1 hi
  exact (List.getElem?_eq_some_iff.1 hc).1

/-- A new key is sent to every thread once. -/
theorem sound_put (hs : Sound s) {key : String} (hnew : s.hub.node.lookup key = none)
    (child : Child) : Sound { s with hub := s.hub.put key child } where
  nodup := hs.nodup
  registered := hs.registered
  addressed := by
    intro t ht
    simp only [Hub.put, if_pos hnew, List.mem_append] at ht
    rcases ht with ht | ht
    · exact hs.addressed t ht
    · obtain ⟨i, hi, rfl⟩ := List.mem_map.1 ht
      exact ⟨i, hi, child, rfl⟩
  thread := by
    intro i c post hc hpost
    have hi : i ∈ s.hub.listeners := (hs.registered i).2 ⟨c, post, hc, hpost⟩
    have hnode : ((s.hub.node.set key child).entries.map (·.2)).Perm
        (s.hub.node.entries.map (·.2) ++ [child]) :=
      ((Table.set_perm_of_lookup_eq_none hnew child).map _).trans
        (List.perm_append_singleton _ _).symm
    have howed : owed i (s.hub.put key child).queue = owed i s.hub.queue ++ [child] := by
      simp only [Hub.put, if_pos hnew, owed_append_raise i hs.nodup, if_pos hi]
    rw [howed, wanted_append, ← List.append_assoc]
    apply ((hs.thread i c post hc hpost).append_right _).trans
    rw [← wanted_append]
    exact (wanted_perm post hnode).symm
  sorted := hs.sorted

theorem getElem?_screens {screens : List CommentsController} {new c : CommentsController} {i : ℕ} :
    (screens ++ [new])[i]? = some c ↔ screens[i]? = some c ∨ i = screens.length ∧ new = c := by
  rcases lt_trichotomy i screens.length with hi | rfl | hi
  · rw [List.getElem?_append_left hi]
    simp [hi.ne]
  · simp
  · have hlen : (screens ++ [new]).length ≤ i := by simpa using Nat.succ_le_of_lt hi
    simp [List.getElem?_eq_none hlen, List.getElem?_eq_none hi.le, hi.ne']

theorem Sound.sorted_present (hs : Sound s) (post : Option Posts) :
    ∀ c ∈ s.screens ++ [{ post := post }], Sorted c := by
  intro c hc
  rcases List.mem_append.1 hc with hc | hc
  · exact hs.sorted c hc
  · rw [List.mem_singleton.1 hc]
    exact ⟨.nil, rfl⟩

theorem sound_present_none (hs : Sound s) :
    Sound { s with screens := s.screens ++ [{ post := none }] } where
  nodup := hs.nodup
  registered := by
    intro i
    rw [hs.registered]
    refine ⟨fun ⟨c, post, hc, hpost⟩ => ⟨c, post, getElem?_screens.2 (.inl hc), hpost⟩, ?_⟩
    rintro ⟨c, post, hc, hpost⟩
    rcases getElem?_screens.1 hc with hc | ⟨-, rfl⟩
    · exact ⟨c, post, hc, hpost⟩
    · cases hpost
  addressed := hs.addressed
  thread := by
    intro i c post hc hpost
    rcases getElem?_screens.1 hc with hc | ⟨-, rfl⟩
    · exact hs.thread i c post hc hpost
    · cases hpost
  sorted := hs.sorted_present none

/-- A screen with a post is owed the whole node. -/
theorem sound_present_some (hs : Sound s) (post : Posts) :
    Sound { s with
      hub := s.hub.observe s.screens.length
      screens := s.screens ++ [{ post := some post }] } := by
  have hn : s.screens.length ∉ s.hub.listeners := fun hi => (hs.lt_length hi).false
  refine ⟨?_, fun i => ?_, fun t ht => ?_, fun i c p hc hp => ?_, fun c hc => ?_⟩
  · refine List.nodup_append.2 ⟨hs.nodup, List.nodup_singleton _, fun i hi j hj => ?_⟩
    rw [List.mem_singleton.1 hj]
    exact (hs.lt_length hi).ne
  · have hobserve : i ∈ (s.hub.observe s.screens.length).listeners ↔
        i ∈ s.hub.listeners ∨ i = s.screens.length := by simp [Hub.observe]
    rw [hobserve, hs.registered]
    constructor
    · rintro (⟨c, p, hc, hp⟩ | rfl)
      · exact ⟨c, p, getElem?_screens.2 (.inl hc), hp⟩
      · exact ⟨_, post, getElem?_screens.2 (.inr ⟨rfl, rfl⟩), rfl⟩
    · rintro ⟨c, p, hc, hp⟩
      exact (getElem?_screens.1 hc).imp (fun hc => ⟨c, p, hc, hp⟩) And.left
  · rcases List.mem_append.1 ht with ht | ht
    · obtain ⟨i, hi, child, rfl⟩ := hs.addressed t ht
      exact ⟨i, List.mem_append_left _ hi, child, rfl⟩
    · obtain ⟨child, -, rfl⟩ := List.mem_map.1 ht
      exact ⟨_, List.mem_append_right _ List.mem_cons_self, child, rfl⟩
  · rcases getElem?_screens.1 hc with hc | ⟨rfl, rfl⟩
    · have hne : s.screens.length ≠ i := (List.getElem?_eq_some_iff.1 hc).1.ne'
      simp only [Hub.observe, owed_append_snapshot_of_ne i hne]
      exact hs.thread i c p hc hp
    · cases hp
      simp only [Hub.observe, owed_append_snapshot_self, hs.owed_eq_nil hn, List.nil_append]
      exact .refl _
  · exact hs.sorted_present (some post) c hc

/-- An event moves what is owed to a screen into its list. -/
theorem sound_runMain (hs : Sound s) (h : step s .runMain = some s') : Sound s' := by
  simp only [step] at h
  split at h <;> cases h
  rename_i k child q hq
  have hscreen : ∀ {i c}, (s.screens.modify k (·.fetchComments child))[i]? = some c ↔
      ∃ d, s.screens[i]? = some d ∧ (if k = i then d.fetchComments child else d) = c := by
    intro i c
    rw [List.getElem?_modify, Option.map_eq_map, Option.map_eq_some_iff]
  have hpost : ∀ (i : ℕ) (d : CommentsController),
      (if k = i then d.fetchComments child else d).post = d.post := by
    intro i d
    split_ifs
    · exact post_fetchComments child
    · rfl
  refine ⟨hs.nodup, fun i => (hs.registered i).trans ⟨?_, ?_⟩, fun t ht => ?_,
    fun i c post hc hp => ?_, fun c hc => ?_⟩
  · rintro ⟨d, post, hd, hp⟩
    exact ⟨_, post, hscreen.2 ⟨d, hd, rfl⟩, (hpost i d).trans hp⟩
  · rintro ⟨c, post, hc, hp⟩
    obtain ⟨d, hd, rfl⟩ := hscreen.1 hc
    exact ⟨d, post, hd, (hpost i d).symm.trans hp⟩
  · exact hs.addressed t (hq ▸ List.mem_cons_of_mem _ ht)
  · obtain ⟨d, hd, rfl⟩ := hscreen.1 hc
    have hold := hs.thread i d post hd ((hpost i d).symm.trans hp)
    by_cases hk : k = i
    · subst hk
      rw [hq, owed_event_self, wanted_cons, ← List.append_assoc] at hold
      rw [if_pos rfl, comments_fetchComments ((hpost k d).symm.trans hp)]
      exact ((feed_perm _ _ _).append_right _).trans hold
    · rw [hq, owed_event_of_ne i hk] at hold
      rw [if_neg hk]
      exact hold
  · obtain ⟨i, hi⟩ := List.mem_iff_getElem?.1 hc
    obtain ⟨d, hd, rfl⟩ := hscreen.1 hi
    have hsorted := hs.sorted d (List.mem_of_getElem? hd)
    split_ifs
    · exact sorted_fetchComments hsorted child
    · exact hsorted

theorem postComment_cases {user userId comment postId commentId date : String}
    (h : s.postComment user userId comment postId commentId date = some s') :
    comment = "" ∧ s' = s ∨
      comment ≠ "" ∧ s.hub.node.lookup commentId = none ∧ ∃ child : Child,
        child.comments = some ⟨user, comment, date, postId, userId, commentId⟩ ∧
          s' = { s with hub := s.hub.put commentId child } := by
  unfold postComment at h
  split_ifs at h with hempty hnew
  · exact .inl ⟨hempty, (Option.some.inj h).symm⟩
  · refine .inr ⟨hempty, hnew, _, ?_, (Option.some.inj h).symm⟩
    simp [Child.comments, init_postComment]

theorem sound_postComment {user userId comment postId commentId date : String} (hs : Sound s)
    (h : s.postComment user userId comment postId commentId date = some s') : Sound s' := by
  rcases postComment_cases h with ⟨-, rfl⟩ | ⟨-, hnew, child, -, rfl⟩
  · exact hs
  · exact sound_put hs hnew child

theorem sound_step (h : step s e = some s') (hs : Sound s) : Sound s' := by
  cases e with
  | present post =>
    cases h
    cases post with
    | none => exact sound_present_none hs
    | some post => exact sound_present_some hs post
  | handleSubmitComment screen userId comment user commentId date =>
    obtain ⟨c, -, h⟩ := Option.bind_eq_some_iff.1 h
    split at h
    · exact sound_postComment hs h
    · cases h
      exact hs
  | postComment user userId comment postId commentId date => exact sound_postComment hs h
  | runMain => exact sound_runMain hs h

theorem run_sound {evs : List Event} (h : Path step anyStep (launch node) evs s) : Sound s :=
  h.invariant Sound (sound_launch node) fun _ _ _ hs _ h => sound_step h hs

theorem stored_postComment {user userId comment postId commentId date : String}
    (h : s.postComment user userId comment postId commentId date = some s') {x : Comments} :
    x ∈ s'.stored ↔ x ∈ s.stored ∨
      comment ≠ "" ∧ x = ⟨user, comment, date, postId, userId, commentId⟩ := by
  rcases postComment_cases h with ⟨hempty, rfl⟩ | ⟨hne, hnew, child, hchild, rfl⟩
  · simp [hempty]
  · have hperm := (Table.set_perm_of_lookup_eq_none hnew child).filterMap (·.2.comments)
    rw [List.filterMap_cons, hchild] at hperm
    apply hperm.mem_iff.trans
    simp [stored, hne, or_comm]

theorem stored_step (h : step s e = some s') {x : Comments} (hx : x ∈ s.stored) :
    x ∈ s'.stored := by
  cases e with
  | present post =>
    cases h
    cases post <;> exact hx
  | handleSubmitComment screen userId comment user commentId date =>
    obtain ⟨c, -, h⟩ := Option.bind_eq_some_iff.1 h
    split at h
    · exact (stored_postComment h).2 (.inl hx)
    · cases h
      exact hx
  | postComment user userId comment postId commentId date =>
    exact (stored_postComment h).2 (.inl hx)
  | runMain =>
    simp only [step] at h
    split at h <;> cases h
    exact hx

/-- On the way to `s`, a screen with the post presented its comment form, and this comment
was submitted there. -/
def Submitted (node : Table String Child) (s : Threads) (post : Posts) (x : Comments) : Prop :=
  ∃ xs ys s₁ s₂ screen c, Path step anyStep (launch node) xs s₁ ∧ s₁.screens[screen]? = some c ∧
    c.post = some post ∧ x.comment ≠ "" ∧ x.postId = post.postId ∧
    step s₁ (.handleSubmitComment screen (some x.userId) x.comment (some x.user) x.commentId
      x.date) = some s₂ ∧ Path step anyStep s₂ ys s

theorem Submitted.stored {post : Posts} {x : Comments} (h : Submitted node s post x) :
    x ∈ s.stored := by
  obtain ⟨xs, ys, s₁, s₂, screen, c, -, hc, hpost, hne, hid, hsubmit, hrest⟩ := h
  have hwrite : s₁.postComment x.user x.userId x.comment post.postId x.commentId x.date =
      some s₂ := by simpa [step, hc, hpost] using hsubmit
  have hx : x ∈ s₂.stored := (stored_postComment hwrite).2 (.inr ⟨hne, by rw [← hid]⟩)
  exact hrest.invariant (x ∈ ·.stored) hx fun _ _ _ hx _ h => stored_step h hx

/-- The thread is the stored comments on the post, each once, in the order of their dates. -/
structure Complete (s : Threads) (c : CommentsController) (post : Posts) : Prop where
  comments : c.comments.Perm (s.stored.filter fun x => x.postId = post.postId)
  inOrder : InOrder (·.date) c.comments
  rows : c.rows = c.comments.length

/-- Whatever the node held and whatever is written, with no event on its way every thread is
complete, and a comment submitted from a form is in the threads of its post and no others. -/
theorem thread_complete {evs : List Event} (hrun : Path step anyStep (launch node) evs s)
    (hquiet : s.hub.queue = []) {c : CommentsController} {post : Posts} (hc : c ∈ s.screens)
    (hpost : c.post = some post) :
    Complete s c post ∧
      ∀ p x, Submitted node s p x → (x ∈ c.comments ↔ post.postId = p.postId) := by
  have hs := run_sound hrun
  obtain ⟨i, hi⟩ := List.mem_iff_getElem?.1 hc
  have hperm : c.comments.Perm (s.stored.filter fun x => x.postId = post.postId) := by
    have h := hs.thread i c post hi hpost
    rwa [hquiet, owed_nil, wanted_nil, List.append_nil, wanted_stored] at h
  refine ⟨⟨hperm, (hs.sorted c hc).1, (hs.sorted c hc).2⟩, fun p x hx => ?_⟩
  have hid : x.postId = p.postId := by
    obtain ⟨-, -, -, -, -, -, -, -, -, -, hid, -⟩ := hx
    exact hid
  rw [hperm.mem_iff, List.mem_filter, and_iff_right hx.stored, hid]
  simp [eq_comm]

/-- Two threads over a node that already holds a comment and a value of another kind. -/
theorem thread_complete_run :
    let node : Table String Child := Table.ofList
      [("c1", .dict (Table.ofList (postCommentValues "bob" "b" "nice" "p1" "c1"
        "Jun 2, 2020 at 9:00 AM"))), ("c2", .leaf (.number 5))]
    let post : Posts := ⟨"Swift", "text", "Jun 1, 2020 at 9:00 AM", "ann", "a", "p1"⟩
    let other : Posts := ⟨"Lean", "text", "Jun 1, 2020 at 9:00 AM", "ann", "a", "p2"⟩
    ∃ s c, Path step anyStep (launch node)
        [.present (some post), .runMain, .present (some other),
          .handleSubmitComment 0 (some "a") "thanks" (some "ann") "c3" "Jun 3, 2020 at 9:00 AM",
          .postComment "bob" "b" "first" "p1" "c4" "Jun 1, 2020 at 9:30 AM", .runMain, .runMain,
          .runMain, .runMain, .runMain, .runMain, .runMain] s ∧
      c ∈ s.screens ∧ c.post = some post ∧
      c.comments.map (·.comment) = ["first", "nice", "thanks"] ∧ Complete s c post ∧
      ∀ p x, Submitted node s p x → (x ∈ c.comments ↔ post.postId = p.postId) := by
  intro node post other
  refine ⟨_, _, .of_exec_get (by decide), List.getElem_mem (n := 0) (by decide), by decide,
    by decide, ?_⟩
  exact thread_complete (.of_exec_get (by decide)) (by decide) (List.getElem_mem (by decide))
    (by decide)

/-- The main queue can always be run until nothing is on its way. -/
theorem drains (hs : Sound s) :
    ∃ n s', Path step anyStep s (List.replicate n .runMain) s' ∧ s'.hub.queue = [] := by
  generalize hlen : s.hub.queue.length = n
  induction n generalizing s with
  | zero => exact ⟨0, s, .nil, List.length_eq_zero_iff.1 hlen⟩
  | succ n ih =>
    obtain ⟨t, q, hq⟩ := List.exists_cons_of_length_eq_add_one hlen
    obtain ⟨i, -, child, rfl⟩ := hs.addressed t (hq ▸ List.mem_cons_self)
    have hstep : step s .runMain = some { s with
        hub := { s.hub with queue := q }
        screens := s.screens.modify i (·.fetchComments child) } := by simp only [step, hq]
    have hrest : q.length = n := by simpa [hq] using hlen
    obtain ⟨m, s', hpath, hquiet⟩ := ih (sound_step hstep hs) hrest
    exact ⟨m + 1, s', .cons trivial hstep hpath, hquiet⟩

end Threads

end DevPost
