import DevPost.Sanity.OneAccount

/-! The list of My Comments for one account. After a deletion, the launch listener never
brings the post back, nor does a refresh that is told of nothing else to come; a refresh that
had been told the post, or had it on its way, does with the next delivery. What the refreshes
had is recorded at each removal. -/

namespace DevPost

open Lib FirebaseServices

namespace MyComments

variable {s s' : MyComments} {e : Event} {u : Uid}

/-- What holds in a run that edits nothing, with one account. -/
structure Plain (u : Uid) (s : MyComments) : Prop where
  sound : Sound s
  single : Single u s
  carries : Carries s.ids s.hub.node

theorem plain_step (h : step s e = some s') (hone : OneAccount s e) (hok : Unedited e)
    (hs : Plain u s) : ∃ v, Plain v s' := by
  obtain ⟨v, hv⟩ := single_step h hone hs.single
  exact ⟨v, sound_step h hs.sound, hv, carries_step h hok hs.carries⟩

/-- What the refreshes had of the removed posts at their removal. -/
structure Removals where
  /-- the refreshes that had been told a post -/
  told : List (ℕ × String) := []
  /-- the refreshes that a post was on its way to -/
  coming : List (ℕ × String) := []
deriving DecidableEq

/-- The post that an event removes both from the database and from `myPost`. -/
def removal (s : MyComments) : Event → Option String
  | .deletePost _ =>
    match s.presented with
    | some (.deleteAlert cell _) => (s.tapped cell).map (·.postId)
    | _ => none
  | _ => none

/-- The refreshes whose list has a post. -/
def having (s : MyComments) (lists : ℕ → List Posts) (postId : String) : List (ℕ × String) :=
  ((List.range s.refreshes).filter fun r => postId ∈ (lists r).map (·.postId)).map (·, postId)

def Removals.next (R : Removals) (s : MyComments) (e : Event) : Removals :=
  match s.removal e with
  | none => R
  | some postId =>
    { told := R.told ++ s.having s.newPosts postId
      coming := R.coming ++ s.having (fun r => Board.forRebuild r s.pending) postId }

/-- The machine with its removals on record. -/
def recorded (s : MyComments × Removals) (e : Event) : Option (MyComments × Removals) :=
  (step s.1 e).map (·, s.2.next s.1 e)

/-- No delivery is made to a refresh that had been told a post at its removal, nor the delivery
of a removed post that was on its way to a refresh. -/
def Spared (s : MyComments × Removals) (e : Event) : Prop :=
  match s.1.delivers e with
  | some (.refreshData r, post) =>
    (∀ x ∈ s.2.told, x.1 ≠ r) ∧ (r, post.postId) ∉ s.2.coming
  | _ => True

instance (s : MyComments × Removals) (e : Event) : Decidable (Spared s e) := by
  unfold Spared
  split <;> infer_instance

theorem mem_having {lists : ℕ → List Posts} {r : ℕ} {i postId : String} :
    (r, i) ∈ s.having lists postId ↔
      r < s.refreshes ∧ i = postId ∧ ∃ p ∈ lists r, p.postId = postId := by
  simp only [having, List.mem_map, List.mem_filter, List.mem_range, decide_eq_true_eq,
    Prod.mk.injEq]
  constructor
  · rintro ⟨r', ⟨hr, hp⟩, rfl, rfl⟩
    exact ⟨hr, rfl, hp⟩
  · rintro ⟨hr, rfl, hp⟩
    exact ⟨r, ⟨hr, hp⟩, rfl, rfl⟩

theorem mem_forRebuild {r : ℕ} {ds : List (Closure × Posts)} {p : Posts} :
    p ∈ Board.forRebuild r ds ↔ (.refreshData r, p) ∈ ds := by
  simp only [Board.forRebuild, List.mem_filterMap]
  constructor
  · rintro ⟨⟨c, p'⟩, hd, he⟩
    split_ifs at he with hc
    obtain rfl : c = .rebuild r := hc
    obtain rfl := Option.some.inj he
    exact hd
  · exact fun hd => ⟨_, hd, if_pos rfl⟩

theorem removed_step (h : step s e = some s') :
    s'.removed = (s.removal e).toList ++ s.removed := by
  cases e with
  | deletePost l =>
    obtain ⟨cell, shown, hp, ⟨hpost, rfl⟩ | ⟨post, vc, hpost, -, rfl⟩⟩ := deletePost_cases h
    · simp [removal, hp, tapped, hpost]
    · cases hi : (s.vc.cells cell).indexPath <;> simp [removal, hp, tapped, hpost, hi]
  | viewDidLoad | uploadPost | remoteEdit | refreshData =>
    simp only [step] at h
    split at h <;> cases h
    rfl
  | signIn | signOut | remoteDelete | cancel | layout =>
    cases h
    rfl
  | deleteIconTapped | editIconTapped =>
    obtain ⟨post, -, rfl⟩ := Option.map_eq_some_iff.1 h
    rfl
  | editUserPost =>
    obtain ⟨post, -, rfl⟩ := editUserPost_cases h
    rfl
  | runMain =>
    rcases runMain_cases h with ⟨o, r, q, -, rfl⟩ | ⟨o, post, q, -, -, rfl⟩ |
      ⟨o, post, q, newPosts, posts, -, -, -, rfl⟩ | ⟨c, q, -, rfl⟩ | ⟨c, u, q, -, rfl⟩ <;> rfl

theorem removal_eq_none (h : step s e = some s') (hremoved : s'.removed = s.removed) :
    s.removal e = none := by
  have hlist := removed_step h
  rw [hremoved] at hlist
  simpa using hlist

theorem removal_eq_some (h : step s e = some s') {i : String}
    (hremoved : s'.removed = i :: s.removed) : s.removal e = some i := by
  have hlist := removed_step h
  rw [hremoved, ← List.singleton_append, List.append_cancel_right_eq] at hlist
  cases hr : s.removal e with
  | none => simp [hr] at hlist
  | some j => simpa [hr] using hlist.symm

/-- What the refreshes hold of removed posts, or will be told, is on record. -/
structure Noted (R : Removals) (s : MyComments) : Prop where
  held : ∀ r, ∀ p ∈ s.newPosts r, p.postId ∈ s.removed → (r, p.postId) ∈ R.told
  told : ∀ r i, (r, i) ∈ R.told → i ∈ s.removed ∧ ∃ p ∈ s.newPosts r, p.postId = i
  expected : ∀ r p, (.refreshData r, p) ∈ s.pending → p.postId ∈ s.removed →
    (r, p.postId) ∈ R.coming
  coming : ∀ r i, (r, i) ∈ R.coming → i ∈ s.removed

/-- What a removed post is gone from: the table, the visible list, and what is on its way
to the launch listener. -/
structure Gone (u : Uid) (s : MyComments) : Prop where
  plain : Plain u s
  known : s.board.Holds (·.postId ∈ s.ids) s.pending
  fresh : s.board.Fresh (·.postId) s.pending
  ids : ∀ i ∈ s.removed, i ∈ s.ids
  unstored : ∀ i ∈ s.removed, s.hub.node.lookup i = none
  launch : ∀ p, (.fetchPostForCurrentUser, p) ∈ s.pending → p.postId ∉ s.removed
  gone : ∀ p ∈ s.vc.myPost, p.postId ∉ s.removed

theorem lookup_erase_none {t : Table String Record} {i : String} (h : t.lookup i = none)
    (k : String) : (t.erase k).lookup i = none :=
  Table.lookup_eq_none.2 fun r hm => Table.lookup_eq_none.1 h r (Table.mem_erase.1 hm).1

theorem storedBy_nodup (hs : Plain u s) {v : Uid} : ((s.storedBy v).map (·.postId)).Nodup :=
  hs.carries.nodup.sublist (List.filter_sublist.map _)

theorem lookup_storedBy (hs : Plain u s) {v : Uid} {p : Posts} (hp : p ∈ s.storedBy v) :
    s.hub.node.lookup p.postId ≠ none := by
  obtain ⟨x, hx, rfl⟩ := List.mem_map.1 (List.mem_filter.1 hp).1
  intro hnone
  rw [(hs.carries x hx).1] at hnone
  exact Table.lookup_eq_none.1 hnone x.2 hx

theorem pending_of_untold (hw : Wired s) (hnil : s.closures = []) : s.pending = [] := by
  refine List.eq_nil_iff_forall_not_mem.2 fun d hd => ?_
  have := hw.coming d hd
  simp [hnil] at this

theorem ids_sends (hs : Sends s e s') : ∀ i ∈ s.ids, i ∈ s'.ids := by
  intro i hi
  cases hs with
  | quiet _ _ hids _ => rwa [hids]
  | upload post _ _ hids _ _ _ _ => exact hids ▸ List.mem_cons_of_mem _ hi
  | register _ _ _ _ _ hids _ _ => rwa [hids]

theorem known_sends (hp : Plain u s) (hs : Sends s e s') :
    ∀ d ∈ s.sends e, d.2.postId ∈ s'.ids := by
  intro d hd
  cases hs with
  | quiet _ hsends _ _ => simp [hsends] at hd
  | upload post _ _ hids hsends _ _ _ =>
    rw [hsends] at hd
    obtain ⟨c, -, rfl⟩ := List.mem_map.1 hd
    simp [hids]
  | register o _ _ hsends _ hids _ _ =>
    rw [hsends] at hd
    obtain ⟨p, hmem, rfl⟩ := List.mem_map.1 hd
    rw [hids]
    exact hp.carries.mem p (List.mem_filter.1 hmem).1

/-- What is sent is new to the lists it will reach. -/
theorem fresh_sends (hs : Gone u s) (h : Sends s e s') :
    s.board.Fresh (·.postId) (s.pending ++ s.sends e) := by
  have hw := hs.plain.sound.wired
  cases h with
  | quiet _ hsends _ _ => simpa [hsends] using hs.fresh
  | upload post _ hfresh _ hsends _ _ _ =>
    rw [hsends, hs.plain.single.heard]
    split_ifs
    · obtain ⟨hnodup, hnot⟩ := hs.plain.single.closures_nodup hw
      exact hs.fresh.push_raise hs.known (fun p hp he => hfresh (he ▸ hp)) hnodup hnot
    · simpa using hs.fresh
  | register o q hq hsends _ _ _ _ =>
    obtain ⟨c, v⟩ := o
    obtain ⟨rfl, hfresh, hfirst⟩ := hs.plain.single.next hw hq
    rw [hsends]
    cases c with
    | append =>
      have hnil := hfirst.1 rfl
      rw [pending_of_untold hw hnil]
      exact Board.fresh_appends (hw.shown hnil) (fun r => hw.own r (by simp [hnil]))
        (storedBy_nodup hs.plain)
    | rebuild r =>
      exact hs.fresh.push_snapshot (hw.own r hfresh) (fun d hd he => hfresh (he ▸ hw.coming d hd))
        (storedBy_nodup hs.plain)

theorem sends_unremoved (hs : Gone u s) (h : Sends s e s') :
    ∀ d ∈ s.sends e, d.2.postId ∉ s.removed := by
  intro d hd
  cases h with
  | quiet _ hsends _ _ => simp [hsends] at hd
  | upload post _ hfresh _ hsends _ _ _ =>
    rw [hsends] at hd
    obtain ⟨c, -, rfl⟩ := List.mem_map.1 hd
    exact fun hr => hfresh (hs.ids _ hr)
  | register o _ _ hsends _ _ _ _ =>
    rw [hsends] at hd
    obtain ⟨p, hp, rfl⟩ := List.mem_map.1 hd
    exact fun hr => lookup_storedBy hs.plain hp (hs.unstored _ hr)

theorem unstored_sends (hs : Gone u s) (h : step s e = some s') (hsends : Sends s e s') :
    ∀ i ∈ s.removed, s'.hub.node.lookup i = none := by
  intro i hi
  have hnone := hs.unstored i hi
  cases hsends with
  | quiet hput _ _ _ =>
    rw [(step_frame h).1.node, written, hput]
    split
    · rename_i he
      cases he
    · exact lookup_erase_none hnone _
    · exact hnone
  | upload post _ hfresh _ _ hnode _ _ =>
    obtain ⟨r, hnode⟩ := hnode
    have hne : i ≠ post.postId := fun he => hfresh (he ▸ hs.ids i hi)
    rw [hnode, Table.lookup_set_of_ne _ _ hne, hnone]
  | register _ _ _ _ hnode _ _ _ => rw [hnode, hnone]

theorem ne_of_mem_eraseIdx {l : List Posts} (hl : (l.map (·.postId)).Nodup) {row : ℕ}
    {post p : Posts} (hget : l[row]? = some post) (hp : p ∈ l.eraseIdx row) :
    p.postId ≠ post.postId := by
  obtain ⟨hrow, rfl⟩ := List.getElem?_eq_some_iff.1 hget
  have hperm : (l[row] :: l.eraseIdx row).Perm l := List.getElem_cons_eraseIdx_perm hrow
  have hnot := (List.nodup_cons.1 ((hperm.map (·.postId)).nodup_iff.2 hl)).1
  exact fun he => hnot (List.mem_map.2 ⟨p, hp, he⟩)

theorem begun (hw : Wired s) {r : ℕ} (hr : .refreshData r ∈ s.closures) : r < s.refreshes :=
  hw.mem_authListeners.1 (hw.registered _ hr)

theorem begun_of_mem (hw : Wired s) {r : ℕ} {p : Posts} (hp : p ∈ s.newPosts r) :
    r < s.refreshes := by
  refine begun hw (by_contra fun hr => ?_)
  rw [hw.own r hr] at hp
  cases hp

section Noted

variable {R : Removals}

theorem Noted.send (hn : Noted R s) (hboard : s'.board = s.board)
    (hpending : s'.pending = s.pending ++ s.sends e) (hremoved : s'.removed = s.removed)
    (hsends : ∀ d ∈ s.sends e, d.2.postId ∉ s.removed) : Noted R s' := by
  have hown : s'.newPosts = s.newPosts := congrArg Board.own hboard
  refine ⟨?_, ?_, fun r p hp hr => ?_, hremoved ▸ hn.coming⟩
  · rw [hown, hremoved]
    exact hn.held
  · rw [hown, hremoved]
    exact hn.told
  · rw [hremoved] at hr
    rw [hpending] at hp
    rcases List.mem_append.1 hp with hp | hp
    · exact hn.expected r p hp hr
    · exact absurd hr (hsends _ hp)

theorem Noted.deliver (hn : Noted R s) {d : Closure × Posts} (hmakes : s.delivers e = some d)
    (hok : Spared (s, R) e) (hpending : s.pending = d :: s'.pending)
    (hboard : s'.board = s.board.deliver byDate d) (hremoved : s'.removed = s.removed) :
    Noted R s' := by
  have hown : ∀ r, s'.newPosts r = s.newPosts r ++ Board.forRebuild r [d] := fun r =>
    (congrFun (congrArg Board.own hboard) r).trans (Board.own_deliver ..)
  refine ⟨fun r p hp hr => ?_, fun r i hx => ?_, fun r p hp hr => ?_, hremoved ▸ hn.coming⟩
  · rw [hremoved] at hr
    rw [hown] at hp
    rcases List.mem_append.1 hp with hp | hp
    · exact hn.held r p hp hr
    · obtain rfl : (.refreshData r, p) = d := List.mem_singleton.1 (mem_forRebuild.1 hp)
      simp only [Spared, hmakes] at hok
      exact absurd (hn.expected r p (hpending ▸ List.mem_cons_self) hr) hok.2
  · obtain ⟨hi, p, hp, he⟩ := hn.told r i hx
    exact ⟨hremoved ▸ hi, p, hown r ▸ List.mem_append_left _ hp, he⟩
  · exact hn.expected r p (hpending ▸ List.mem_cons_of_mem _ hp) (hremoved ▸ hr)

/-- A removal records the refreshes that have the post. -/
theorem Noted.remove (hn : Noted R s) (hw : Wired s) {i : String} (hremoval : s.removal e = some i)
    (hown : s'.newPosts = s.newPosts) (hpending : s'.pending = s.pending)
    (hremoved : s'.removed = i :: s.removed) : Noted (R.next s e) s' := by
  have hnext : R.next s e = ⟨R.told ++ s.having s.newPosts i,
      R.coming ++ s.having (fun r => Board.forRebuild r s.pending) i⟩ := by
    simp only [Removals.next, hremoval]
  rw [hnext]
  refine ⟨fun r p hp hr => ?_, fun r j hx => ?_, fun r p hp hr => ?_, fun r j hx => ?_⟩
  · rw [hown] at hp
    rw [hremoved] at hr
    rcases List.mem_cons.1 hr with he | hr
    · exact List.mem_append_right _ (mem_having.2 ⟨begun_of_mem hw hp, he, p, hp, he⟩)
    · exact List.mem_append_left _ (hn.held r p hp hr)
  · rw [hown, hremoved]
    rcases List.mem_append.1 hx with hx | hx
    · exact (hn.told r j hx).imp_left (List.mem_cons_of_mem _)
    · obtain ⟨-, rfl, hp⟩ := mem_having.1 hx
      exact ⟨List.mem_cons_self, hp⟩
  · rw [hpending] at hp
    rw [hremoved] at hr
    rcases List.mem_cons.1 hr with he | hr
    · have hbegun := begun hw (hw.coming _ hp)
      exact List.mem_append_right _ (mem_having.2 ⟨hbegun, he, p, mem_forRebuild.2 hp, he⟩)
    · exact List.mem_append_left _ (hn.expected r p hp hr)
  · rw [hremoved]
    rcases List.mem_append.1 hx with hx | hx
    · exact List.mem_cons_of_mem _ (hn.coming r j hx)
    · obtain ⟨-, rfl, -⟩ := mem_having.1 hx
      exact List.mem_cons_self

end Noted

section Step

variable {R : Removals} {v : Uid}

theorem gone_send (hs : Gone u s) (hplain : Plain v s') (hsends : Sends s e s')
    (hboard : s'.board = s.board) (hpending : s'.pending = s.pending ++ s.sends e)
    (hremoved : s'.removed = s.removed) (hunstored : ∀ i ∈ s.removed, s'.hub.node.lookup i = none) :
    Gone v s' where
  plain := hplain
  known := by
    rw [hboard, hpending]
    exact (hs.known.mono fun p hp => ids_sends hsends p.postId hp).push
      (known_sends hs.plain hsends)
  fresh := by
    rw [hboard, hpending]
    exact fresh_sends hs hsends
  ids i hi := ids_sends hsends i (hs.ids i (hremoved ▸ hi))
  unstored := hremoved ▸ hunstored
  launch p hp := by
    rw [hremoved]
    rcases List.mem_append.1 (hpending ▸ hp) with hp | hp
    · exact hs.launch p hp
    · exact sends_unremoved hs hsends _ hp
  gone := by
    have hlist : s'.vc.myPost = s.vc.myPost := congrArg Board.visible hboard
    rw [hlist, hremoved]
    exact hs.gone

theorem gone_deliver (hs : Gone u s) (hn : Noted R s) (hplain : Plain v s')
    (hsends : Sends s e s') {d : Closure × Posts} (hmakes : s.delivers e = some d)
    (hok : Spared (s, R) e) (hpending : s.pending = d :: s'.pending)
    (hboard : s'.board = s.board.deliver byDate d) (hremoved : s'.removed = s.removed)
    (hunstored : ∀ i ∈ s.removed, s'.hub.node.lookup i = none) : Gone v s' where
  plain := hplain
  known := by
    have hknown := hs.known.mono fun p hp => ids_sends hsends p.postId hp
    rw [hpending] at hknown
    rw [hboard]
    exact hknown.deliver (sort_perm _)
  fresh := by
    have hfresh := hs.fresh
    rw [hpending] at hfresh
    rw [hboard]
    exact hfresh.deliver (sort_perm _)
  ids i hi := ids_sends hsends i (hs.ids i (hremoved ▸ hi))
  unstored := hremoved ▸ hunstored
  launch p hp := by
    rw [hremoved]
    exact hs.launch p (hpending ▸ List.mem_cons_of_mem _ hp)
  gone := by
    have hlist : s'.vc.myPost = (s.board.deliver byDate d).visible := congrArg Board.visible hboard
    rw [hlist, hremoved]
    obtain ⟨c, post⟩ := d
    have hhead : (c, post) ∈ s.pending := hpending ▸ List.mem_cons_self
    cases c with
    | append =>
      intro p hp
      rcases List.mem_append.1 ((sort_perm _ _).mem_iff.1 hp) with hp | hp
      · exact hs.gone p hp
      · rw [List.mem_singleton.1 hp]
        exact hs.launch post hhead
    | rebuild r =>
      simp only [Spared, hmakes] at hok
      intro p hp
      rcases List.mem_append.1 hp with hp | hp
      · exact fun hr => hok.1 _ (hn.held r p hp hr) rfl
      · rw [List.mem_singleton.1 hp]
        exact fun hr => hok.2 (hn.expected r post hhead hr)

theorem gone_remove (hs : Gone u s) (hplain : Plain v s') (hsends : Sends s e s') {row : ℕ}
    {post : Posts} (hget : s.vc.myPost[row]? = some post)
    (hboard : s'.board = ⟨s.vc.myPost.eraseIdx row, s.newPosts⟩) (hpending : s'.pending = s.pending)
    (hnode : s'.hub.node = s.hub.node.erase post.postId)
    (hremoved : s'.removed = post.postId :: s.removed)
    (hunstored : ∀ i ∈ s.removed, s'.hub.node.lookup i = none) : Gone v s' where
  plain := hplain
  known := by
    have hknown := hs.known.mono fun p hp => ids_sends hsends p.postId hp
    rw [hboard, hpending]
    exact ⟨fun p hp => hknown.visible p (List.mem_of_mem_eraseIdx hp), hknown.own, hknown.coming⟩
  fresh := by
    rw [hboard, hpending]
    exact hs.fresh.sublist (List.eraseIdx_sublist _ _)
  ids i hi := by
    rw [hremoved] at hi
    apply ids_sends hsends i
    rcases List.mem_cons.1 hi with rfl | hi
    · exact hs.known.visible post (List.mem_of_getElem? hget)
    · exact hs.ids i hi
  unstored i hi := by
    rw [hremoved] at hi
    rcases List.mem_cons.1 hi with rfl | hi
    · rw [hnode, Table.lookup_erase_self]
    · exact hunstored i hi
  launch p hp := by
    rw [hremoved, List.mem_cons, not_or]
    rw [hpending] at hp
    refine ⟨fun he => hs.fresh.notVisible p hp ?_, hs.launch p hp⟩
    exact he ▸ List.mem_map_of_mem (List.mem_of_getElem? hget)
  gone p hp := by
    have hlist : s'.vc.myPost = s.vc.myPost.eraseIdx row := congrArg Board.visible hboard
    rw [hlist] at hp
    rw [hremoved, List.mem_cons, not_or]
    exact ⟨ne_of_mem_eraseIdx hs.fresh.visible hget hp, hs.gone p (List.mem_of_mem_eraseIdx hp)⟩

theorem gone_step (h : step s e = some s') (hone : OneAccount s e) (hok : Unedited e)
    (hspared : Spared (s, R) e) (hs : Gone u s) (hn : Noted R s) :
    (∃ v, Gone v s') ∧ Noted (R.next s e) s' := by
  obtain ⟨v, hplain⟩ := plain_step h hone hok hs.plain
  have hsends := step_sends h hok hs.plain.carries
  have hunstored := unstored_sends hs h hsends
  cases step_moves h hs.plain.sound.kept hs.plain.sound.bound with
  | send hboard hpending hremoved =>
    have hsame : R.next s e = R := by simp only [Removals.next, removal_eq_none h hremoved]
    rw [hsame]
    exact ⟨⟨v, gone_send hs hplain hsends hboard hpending hremoved hunstored⟩,
      hn.send hboard hpending hremoved (sends_unremoved hs hsends)⟩
  | deliver d hmakes hpending hboard _ hremoved =>
    have hsame : R.next s e = R := by simp only [Removals.next, removal_eq_none h hremoved]
    rw [hsame]
    exact ⟨⟨v, gone_deliver hs hn hplain hsends hmakes hspared hpending hboard hremoved hunstored⟩,
      hn.deliver hmakes hspared hpending hboard hremoved⟩
  | remove l _ row post hget hboard hpending _ hnode hremoved =>
    exact ⟨⟨v, gone_remove hs hplain hsends hget hboard hpending hnode hremoved hunstored⟩,
      hn.remove hs.plain.sound.wired (removal_eq_some h hremoved) (congrArg Board.own hboard)
        hpending hremoved⟩

/-- A delivery that is not spared brings a removed post back. -/
theorem back_of_not_spared (h : step s e = some s') (hn : Noted R s)
    (hspared : ¬ Spared (s, R) e) : ∃ p ∈ s'.vc.myPost, p.postId ∈ s'.removed := by
  unfold Spared at hspared
  split at hspared
  · rename_i r post hmakes
    have hlist : s'.vc.myPost = s.newPosts r ++ [post] :=
      congrArg Board.visible (board_delivers h hmakes)
    have hremoved : ∀ i ∈ s.removed, i ∈ s'.removed := fun i hi => by
      rw [removed_step h]
      exact List.mem_append_right _ hi
    rw [hlist]
    rw [not_and_or, not_not] at hspared
    rcases hspared with hnot | hcoming
    · obtain ⟨⟨r', i⟩, htold, rfl⟩ : ∃ x ∈ R.told, x.1 = r := by simpa using hnot
      obtain ⟨hi, p, hp, rfl⟩ := hn.told r' i htold
      exact ⟨p, List.mem_append_left _ hp, hremoved _ hi⟩
    · exact ⟨post, by simp, hremoved _ (hn.coming r post.postId hcoming)⟩
  · exact absurd trivial hspared

end Step

theorem plain_init : Plain u {} := ⟨sound_init, single_init, by simp [Carries, Hub.idle]⟩

/-- The runs of the screen with one account, without edits, in which no refresh is told of more
that had been told a removed post, nor of a removed post. -/
def Clean (s : MyComments × Removals) (e : Event) : Prop :=
  OneAccount s.1 e ∧ Unedited e ∧ Spared s e

instance (s : MyComments × Removals) (e : Event) : Decidable (Clean s e) := instDecidableAnd

/-- A post that was deleted is not brought back by the launch listener, nor by a refresh that had
neither been told it nor had it on its way, nor by one that begins later: such a refresh never
holds it. It stays away until a refresh that had been told it is told anything more, or one that
had it on its way is told it, and then it is back. -/
theorem removed_gone {R : Removals} {evs : List Event}
    (h : Path recorded Clean ({}, {}) evs (s, R)) :
    (∀ p ∈ s.vc.myPost, p.postId ∉ s.removed) ∧
      (∀ r, ∀ p ∈ s.newPosts r, p.postId ∈ s.removed → (r, p.postId) ∈ R.told) ∧
      ∀ e s', step s e = some s' → OneAccount s e → Unedited e →
        ((∀ p ∈ s'.vc.myPost, p.postId ∉ s'.removed) ↔ Spared (s, R) e) := by
  have hinit : Gone "" {} ∧ Noted {} {} :=
    ⟨⟨plain_init, ⟨by simp [board], by simp [board], by simp [pending, Hub.idle]⟩,
      Board.fresh_nil rfl fun _ => rfl, by simp, by simp, by simp [pending, Hub.idle], by simp⟩,
      by constructor <;> simp [pending, Hub.idle]⟩
  obtain ⟨⟨u, hs⟩, hn⟩ : (∃ u, Gone u s) ∧ Noted R s := by
    refine h.invariant (fun s => (∃ u, Gone u s.1) ∧ Noted s.2 s.1) ⟨⟨"", hinit.1⟩, hinit.2⟩ ?_
    rintro ⟨s, R⟩ e s' ⟨⟨u, hs⟩, hn⟩ ⟨hone, hok, hspared⟩ hstep
    obtain ⟨s₁, h, rfl⟩ := Option.map_eq_some_iff.1 hstep
    exact gone_step h hone hok hspared hs hn
  refine ⟨hs.gone, hn.held, fun e s' h hone hok => ⟨fun hgone => ?_, fun hspared => ?_⟩⟩
  · by_contra hspared
    obtain ⟨p, hp, hr⟩ := back_of_not_spared h hn hspared
    exact hgone p hp hr
  · obtain ⟨v, hs'⟩ := (gone_step h hone hok hspared hs hn).1
    exact hs'.gone

/-- The list is refreshed, one of two posts is deleted, and the list is refreshed again. -/
theorem removed_gone_run :
    let evs : List Event :=
      [.signIn "a", .uploadPost "Swift" "text" "Jun 1, 2020 at 9:00 AM" "ann" "a" "p1",
        .uploadPost "Lean" "text" "Jun 2, 2020 at 9:00 AM" "ann" "a" "p2",
        .viewDidLoad, .runMain [], .runMain [], .runMain [], .runMain [], .runMain [],
        .refreshData, .runMain [], .runMain [], .runMain [], .runMain [], .runMain [(0, 0)],
        .deleteIconTapped 0, .deletePost [], .refreshData, .runMain [], .runMain [], .runMain []]
    ∃ s R, Path recorded Clean ({}, {}) evs (s, R) ∧
      s.removed = ["p1"] ∧ R.told = [(0, "p1")] ∧ s.vc.myPost.map (·.postId) = ["p2"] ∧
      ∀ p ∈ s.vc.myPost, p.postId ∉ s.removed := by
  intro evs
  have h : Path recorded Clean ({}, {}) evs _ := .of_exec_get (by decide)
  exact ⟨_, _, h, by decide, by decide, by decide, (removed_gone h).1⟩

/-- Deleted after a refresh, the post is back with the next upload. -/
theorem removed_back :
    ¬ ∀ (evs : List Event) (s : MyComments),
        Path step (fun s e => OneAccount s e ∧ Unedited e) {} evs s →
        ∀ p ∈ s.vc.myPost, p.postId ∉ s.removed := by
  intro h
  have hs := h [.signIn "a", .uploadPost "Swift" "text" "Jun 1, 2020 at 9:00 AM" "ann" "a" "p1",
    .viewDidLoad, .runMain [], .runMain [], .runMain [], .refreshData, .runMain [], .runMain [],
    .runMain [(0, 0)], .deleteIconTapped 0, .deletePost [],
    .uploadPost "Lean" "text" "Jun 2, 2020 at 9:00 AM" "ann" "a" "p2", .runMain [], .runMain [],
    .runMain [], .runMain []] _ (.of_exec_get (by decide))
  exact absurd hs (by decide)

end MyComments

end DevPost
