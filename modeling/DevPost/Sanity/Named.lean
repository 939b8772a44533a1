import DevPost.Proofs.MyComments

/-! The posts that My Comments can act on have kept their ids. An edit that arrives after a
deletion leaves a record without an id, but it leaves it without a uid as well; no account
has the empty uid, so no listener lets such a record through. -/

namespace DevPost

open Lib FirebaseServices

namespace MyComments

variable {s s' : MyComments} {e : Event}

/-- No account has the empty uid. -/
def RealUser : Event → Prop
  | .signIn uid => uid ≠ ""
  | _ => True

instance : (e : Event) → Decidable (RealUser e)
  | .signIn uid => inferInstanceAs (Decidable (uid ≠ ""))
  | .viewDidLoad | .signOut | .uploadPost .. | .remoteEdit .. | .remoteDelete _ | .refreshData
  | .deleteIconTapped _ | .editIconTapped _ | .deletePost _ | .editUserPost .. | .cancel
  | .layout _ | .runMain _ => .isTrue trivial

structure Named (s : MyComments) : Prop where
  keys : ∀ x ∈ s.hub.node.entries, x.1 ∈ s.ids
  whole : ∀ x ∈ s.hub.node.entries, (Posts.init x.2).userId ≠ "" → (Posts.init x.2).postId = x.1
  session : s.session ≠ some ""
  users : ∀ o ∈ s.listening, o.user ≠ ""
  lists : s.board.Holds (·.postId ∈ s.ids) s.pending
  hand : ∀ p ∈ s.inHand, p.postId ∈ s.ids

theorem named_init : Named {} where
  keys := by simp [Hub.idle]
  whole := by simp [Hub.idle]
  session := by simp
  users := by simp [listening, Hub.idle, observers]
  lists := ⟨by simp [board], by simp [board], by simp [pending, Hub.idle]⟩
  hand := by simp [inHand]

theorem Named.fresh (hs : Named s) : ∀ i ∉ s.ids, s.hub.node.lookup i = none := fun _ hi =>
  Table.lookup_eq_none_of_keys hs.keys hi

theorem mem_written {x : String × Record} (hx : x ∈ (s.written e).entries) :
    s.put e = some x ∨ x ∈ s.hub.node.entries := by
  unfold written at hx
  split at hx
  · rename_i k r hp
    rcases Table.mem_set.1 hx with rfl | ⟨hx, -⟩
    · exact .inl hp
    · exact .inr hx
  · exact .inr (Table.mem_erase.1 hx).1
  · exact .inr hx

/-- An edit leaves a record its id, or leaves no uid. -/
theorem whole_edit (hs : Named s) (postId title detailPost date : String)
    (hu : (Posts.init (updateChildValues s.hub.node postId
      (editUserPostValues title detailPost date))).userId ≠ "") :
    (Posts.init (updateChildValues s.hub.node postId
      (editUserPostValues title detailPost date))).postId = postId := by
  unfold updateChildValues at hu ⊢
  rw [init_editUserPost] at hu ⊢
  cases hd : s.hub.node.lookup postId with
  | none =>
    rw [hd] at hu
    exact absurd rfl hu
  | some dict =>
    rw [hd] at hu
    exact hs.whole _ (Table.lookup_eq_some.1 hd) hu

theorem ids_step (h : step s e = some s') : ∀ i ∈ s.ids, i ∈ s'.ids := by
  intro i hi
  rw [(step_frame h).1.ids]
  exact List.mem_append_right _ hi

theorem named_put (h : step s e = some s') (hs : Named s) {x : String × Record}
    (hp : s.put e = some x) :
    x.1 ∈ s'.ids ∧ ((Posts.init x.2).userId ≠ "" → (Posts.init x.2).postId = x.1) := by
  cases e with
  | uploadPost title detailPost date username userId postId =>
    obtain rfl := Option.some.inj hp
    refine ⟨?_, fun _ => by simp [init_uploadPost]⟩
    rw [(step_frame h).1.ids]
    simp [generated]
  | remoteEdit postId title detailPost date =>
    obtain rfl := Option.some.inj hp
    exact ⟨ids_step h _ (step_frame h).2, whole_edit hs postId title detailPost date⟩
  | editUserPost title detailPost date =>
    obtain ⟨post, hpost, -⟩ := editUserPost_cases h
    simp only [put, hpost] at hp
    obtain rfl := Option.some.inj hp
    exact ⟨ids_step h _ (hs.hand post (by simp [inHand, hpost])),
      whole_edit hs post.postId title detailPost date⟩
  | viewDidLoad | signIn | signOut | remoteDelete | refreshData | deleteIconTapped
  | editIconTapped | deletePost | cancel | layout | runMain => cases hp

theorem sends_stored_after (h : step s e = some s') : ∀ d ∈ s.sends e, d.2 ∈ s'.stored := by
  intro d hd
  have hnode := (step_frame h).1.node
  unfold sends at hd
  split at hd
  · rename_i k r hp
    split_ifs at hd
    · obtain ⟨o, ho, -⟩ := mem_accepted.1 hd
      obtain ⟨o', -, he⟩ := List.mem_map.1 ho
      refine List.mem_map.2 ⟨(k, r), ?_, (Prod.ext_iff.1 he).2⟩
      rw [hnode, written, hp]
      exact Table.mem_set.2 (.inl rfl)
    · simp at hd
  · rename_i hp
    obtain ⟨o, ho, hd⟩ := List.mem_flatMap.1 hd
    obtain ⟨p, hmem, rfl⟩ := List.mem_map.1 hd
    have hwritten : s.written e = s.hub.node := by
      cases e with
      | runMain => rfl
      | viewDidLoad | signIn | signOut | uploadPost | remoteEdit | remoteDelete | refreshData
      | deleteIconTapped | editIconTapped | deletePost | editUserPost | cancel | layout =>
        simp [joins, heard, observers] at ho
    rw [stored, hnode, hwritten]
    exact (List.mem_filter.1 hmem).1

/-- A listener is registered for an account that is signed in before or after the step. -/
theorem listening_users (P : Uid → Prop) (h : step s e = some s')
    (hold : ∀ o ∈ s.listening, P o.user) (hbefore : ∀ u ∈ s.session, P u)
    (hafter : ∀ u ∈ s'.session, P u) : ∀ o ∈ s'.listening, P o.user := by
  have hcalled : ∀ t ∈ s.called e, t.user = s.session ∨ t.user = s'.session := by
    intro t ht
    rw [(step_frame h).1.session]
    cases e with
    | viewDidLoad | refreshData => exact .inl (List.mem_singleton.1 ht ▸ rfl)
    | signIn | signOut =>
      simp only [called] at ht
      split_ifs at ht
      · simp at ht
      · obtain ⟨c, -, rfl⟩ := List.mem_map.1 ht
        exact .inr rfl
    | uploadPost | remoteEdit | remoteDelete | deleteIconTapped | editIconTapped | deletePost
    | editUserPost | cancel | layout | runMain => simp [called] at ht
  intro o ho
  rw [listening_step h] at ho
  rcases List.mem_append.1 ho with ho | ho
  · exact hold o ho
  · obtain ⟨t, ht, he⟩ := List.mem_filterMap.1 ho
    obtain ⟨u, hu, rfl⟩ := Option.map_eq_some_iff.1 he
    rcases hcalled t ht with hc | hc
    · exact hbefore u (hc ▸ hu)
    · exact hafter u (hc ▸ hu)

theorem session_step (h : step s e = some s') (hok : RealUser e) (hs : s.session ≠ some "") :
    s'.session ≠ some "" := by
  rw [(step_frame h).1.session]
  cases e with
  | signIn uid => exact fun he => hok (Option.some.inj he)
  | signOut => simp [user]
  | viewDidLoad | uploadPost | remoteEdit | remoteDelete | refreshData | deleteIconTapped
  | editIconTapped | deletePost | editUserPost | cancel | layout | runMain => exact hs

theorem holds_step {P : Posts → Prop} (h : step s e = some s') (hs : Sound s)
    (hold : s.board.Holds P s.pending) (hsends : ∀ d ∈ s.sends e, P d.2) :
    s'.board.Holds P s'.pending := by
  cases step_moves h hs.kept hs.bound with
  | send hboard hpending _ =>
    rw [hboard, hpending]
    exact hold.push hsends
  | deliver d _ hpending hboard _ _ =>
    rw [hpending] at hold
    rw [hboard]
    exact hold.deliver (sort_perm _)
  | remove _ _ row post _ hboard hpending _ _ _ =>
    rw [hboard, hpending]
    exact ⟨fun p hp => hold.visible p (List.mem_of_mem_eraseIdx hp), hold.own, hold.coming⟩

theorem hand_step {P : Posts → Prop} (h : step s e = some s') (hs : Sound s)
    (hold : ∀ p ∈ s.inHand, P p) (hlists : s'.board.Holds P s'.pending) :
    ∀ p ∈ s'.inHand, P p := fun p hp =>
  (inHand_step h hs.bound p hp).elim (hold p) (hlists.visible p)

theorem named_step (h : step s e = some s') (hok : RealUser e) (hsound : Sound s)
    (hs : Named s) : Named s' := by
  have hnode := (step_frame h).1.node
  have hsession := session_step h hok hs.session
  have husers : ∀ o ∈ s'.listening, o.user ≠ "" := by
    apply listening_users (· ≠ "") h hs.users
    · rintro u hu rfl
      exact hs.session hu
    · rintro u hu rfl
      exact hsession hu
  have hentries : ∀ x ∈ s'.hub.node.entries, x.1 ∈ s'.ids ∧
      ((Posts.init x.2).userId ≠ "" → (Posts.init x.2).postId = x.1) := by
    intro x hx
    rw [hnode] at hx
    rcases mem_written hx with hp | hx
    · exact named_put h hs hp
    · exact ⟨ids_step h _ (hs.keys x hx), hs.whole x hx⟩
  -- what is sent goes to a listener of its author, so it has a uid
  have hsends : ∀ d ∈ s.sends e, d.2.postId ∈ s'.ids := by
    intro d hd
    obtain ⟨o, ho, -, hu⟩ := sends_observer h hd
    obtain ⟨x, hx, he⟩ := List.mem_map.1 (sends_stored_after h d hd)
    have hreal : d.2.userId ≠ "" := hu ▸ husers o (List.mem_append_left _ ho)
    rw [← he] at hreal ⊢
    rw [(hentries x hx).2 hreal]
    exact (hentries x hx).1
  have hlists : s'.board.Holds (·.postId ∈ s'.ids) s'.pending :=
    holds_step h hsound (hs.lists.mono fun p hp => ids_step h p.postId hp) hsends
  exact ⟨fun x hx => (hentries x hx).1, fun x hx => (hentries x hx).2, hsession, husers, hlists,
    hand_step h hsound (fun p hp => ids_step h _ (hs.hand p hp)) hlists⟩

end MyComments

end DevPost
