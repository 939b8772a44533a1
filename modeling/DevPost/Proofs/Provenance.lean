import DevPost.Proofs.DataSource
import DevPost.Proofs.Delivery

/-! Where things come from. Nothing is shown that was not in the database, My Comments touches
no post of an account that was never signed in on its device, and a post or a comment carries
the uid of an account that was signed in when it was written. -/

namespace DevPost

open Lib FirebaseServices

namespace Feed

variable {F : Foundation} {s s' : Feed} {e : Event} {P Q : Posts → Prop}

theorem sent_stored (h : step F s e = some s') : ∀ d ∈ s.sent e, d.2 ∈ s'.stored := by
  have hnode := (step_frame h).1.node
  intro d hd
  cases e with
  | viewDidLoad =>
    obtain ⟨p, hp, rfl⟩ := List.mem_map.1 hd
    rwa [stored_of_node hnode]
  | uploadPost title detailPost date username userId postId =>
    simp only [sent] at hd
    split_ifs at hd
    · obtain ⟨l, -, rfl⟩ := List.mem_map.1 hd
      refine List.mem_map.2 ⟨(postId, _), ?_, init_uploadPost ..⟩
      rw [hnode]
      exact Table.mem_set.2 (.inl rfl)
    · simp at hd
  | editUserPost postId title detailPost date =>
    simp only [sent] at hd
    split_ifs at hd
    · obtain ⟨l, -, rfl⟩ := List.mem_map.1 hd
      refine List.mem_map.2 ⟨(postId, _), ?_, rfl⟩
      rw [hnode]
      exact Table.mem_set.2 (.inl rfl)
    · simp at hd
  | deletePost | refreshData | textDidChange => simp [sent] at hd
  | runMain =>
    simp only [sent] at hd
    split at hd
    · obtain ⟨p, hp, rfl⟩ := List.mem_map.1 hd
      rwa [stored_of_node hnode]
    · simp at hd

/-- Everything a feed has or has found has the property. -/
structure Traced (P : Posts → Prop) (s : Feed) : Prop where
  lists : s.board.Holds P s.pending
  found : ∀ p ∈ s.main.filteredPosts, P p

theorem Traced.mono (h : Traced P s) (himp : ∀ p, P p → Q p) : Traced Q s :=
  ⟨h.lists.mono himp, fun p hp => himp p (h.found p hp)⟩

theorem traced_init : Traced P {} :=
  ⟨⟨by simp [board], by simp [board], by simp [pending, Hub.idle]⟩, by simp⟩

theorem traced_step (h : step F s e = some s') (hk : Kept s.hub.node) (ht : Traced P s)
    (hP : ∀ p ∈ s'.stored, P p) : Traced P s' := by
  constructor
  · rcases step_board h hk with ⟨hb, hp⟩ | ⟨d, hp, hb, -⟩
    · rw [hb, hp]
      exact ht.lists.push fun d hd => hP _ (sent_stored h d hd)
    · have hold := ht.lists
      rw [hp] at hold
      rw [hb]
      exact hold.deliver (sort_perm _)
  · rcases main_cases h with ⟨_, -, -, hmain⟩ | ⟨-, -, -, hmain⟩ | ⟨_, -, -, -, hmain⟩ |
      ⟨_, _, -, -, -, hmain⟩ <;> rw [hmain]
    · exact fun p hp => ht.lists.visible p (List.mem_filter.1 hp).1
    · exact ht.found
    · exact ht.found
    · exact ht.found

theorem Traced.shown (ht : Traced P s) : ∀ p ∈ s.main.shown, P p := by
  intro p hp
  unfold MainController.shown at hp
  split_ifs at hp
  · exact ht.found p hp
  · exact ht.lists.visible p hp

end Feed

namespace MyComments

variable {s s' : MyComments} {e : Event} {P P' : Posts → Prop} {Q Q' : Uid → Prop}

/-- Everything My Comments has, holds or has sent a write for has the property, and is of an
account that has the other one, like every account it listens for. -/
structure Traced (P : Posts → Prop) (Q : Uid → Prop) (s : MyComments) : Prop where
  session : ∀ u ∈ s.session, Q u
  users : ∀ o ∈ s.listening, Q o.user
  lists : s.board.Holds (fun p => P p ∧ Q p.userId) s.pending
  hand : ∀ p ∈ s.inHand, P p ∧ Q p.userId
  sent : ∀ w ∈ s.sent, P w.post ∧ Q w.post.userId

theorem Traced.mono (h : Traced P Q s) (hP : ∀ p, P p → P' p) (hQ : ∀ u, Q u → Q' u) :
    Traced P' Q' s where
  session u hu := hQ u (h.session u hu)
  users o ho := hQ _ (h.users o ho)
  lists := h.lists.mono fun p hp => ⟨hP p hp.1, hQ _ hp.2⟩
  hand p hp := (h.hand p hp).imp (hP p) (hQ _)
  sent w hw := (h.sent w hw).imp (hP _) (hQ _)

theorem traced_init : Traced P Q {} where
  session := by simp
  users := by simp [listening, Hub.idle, observers]
  lists := ⟨by simp [board], by simp [board], by simp [pending, Hub.idle]⟩
  hand := by simp [inHand]
  sent := by simp

theorem traced_step (h : step s e = some s') (hs : Sound s) (ht : Traced P Q s)
    (hP : ∀ p ∈ s'.stored, P p) (hQ : ∀ u ∈ s'.session, Q u) : Traced P Q s' := by
  have husers := listening_users Q h ht.users ht.session hQ
  have hlists : s'.board.Holds (fun p => P p ∧ Q p.userId) s'.pending := by
    refine holds_step h hs ht.lists fun d hd => ⟨hP _ (sends_stored_after h d hd), ?_⟩
    obtain ⟨o, ho, -, hu⟩ := sends_observer h hd
    exact hu ▸ husers o (List.mem_append_left _ ho)
  refine ⟨hQ, husers, hlists, hand_step h hs ht.hand hlists, fun w hw => ?_⟩
  rcases sent_step h w hw with hw | ⟨-, hpost⟩
  · exact ht.sent w hw
  · exact ht.hand _ hpost

end MyComments

namespace Threads

variable {s s' : Threads} {e : Event} {P P' : Posts → Prop}

/-- The post of every thread has the property. -/
def Traced (P : Posts → Prop) (s : Threads) : Prop := ∀ c ∈ s.screens, ∀ post ∈ c.post, P post

theorem traced_postComment {user userId comment postId commentId date : String}
    (h : s.postComment user userId comment postId commentId date = some s') (ht : Traced P s) :
    Traced P s' := by
  rcases postComment_cases h with ⟨-, rfl⟩ | ⟨-, -, child, -, rfl⟩
  · exact ht
  · exact ht

theorem traced_step (h : step s e = some s') (ht : Traced P s)
    (hP : ∀ post, e = .present (some post) → P post) : Traced P s' := by
  cases e with
  | present post =>
    cases h
    intro c hc p hp
    rcases List.mem_append.1 hc with hc | hc
    · exact ht c hc p hp
    · rw [List.mem_singleton.1 hc] at hp
      exact hP p (congrArg Event.present (Option.mem_def.1 hp))
  | handleSubmitComment screen userId comment user commentId date =>
    obtain ⟨c, -, h⟩ := Option.bind_eq_some_iff.1 h
    split at h
    · exact traced_postComment h ht
    · cases h
      exact ht
  | postComment user userId comment postId commentId date => exact traced_postComment h ht
  | runMain =>
    simp only [step] at h
    split at h <;> cases h
    rename_i k child q hq
    intro c hc p hp
    obtain ⟨i, hi⟩ := List.mem_iff_getElem?.1 hc
    rw [List.getElem?_modify, Option.map_eq_map, Option.map_eq_some_iff] at hi
    obtain ⟨c₀, hc₀, rfl⟩ := hi
    refine ht c₀ (List.mem_of_getElem? hc₀) p ?_
    split_ifs at hp
    · rwa [post_fetchComments] at hp
    · exact hp

end Threads

namespace Database

variable {db db' : Database} {c : Call} {A A' : Uid → Prop} {B B' : String → Prop}

/-- The uid of what a call adds, and the post a comment is added to. -/
def Call.Signed (A : Uid → Prop) (B : String → Prop) : Call → Prop
  | .uploadPost _ _ _ _ userId _ => A userId
  | .postComment _ userId _ postId _ _ => A userId ∧ B postId
  | _ => True

theorem Call.Signed.mono (h : c.Signed A B) (hA : ∀ u, A u → A' u) (hB : ∀ i, B i → B' i) :
    c.Signed A' B' := by
  cases c with
  | uploadPost => exact hA _ h
  | postComment => exact ⟨hA _ h.1, hB _ h.2⟩
  | createUser | updateUserInfo | deleteUser | editUserPost | deletePost => trivial

/-- The uids of what is stored, and the posts that the comments are on; a record that an edit
of a deleted post left has no uid. -/
structure Authored (A : Uid → Prop) (B : String → Prop) (db : Database) : Prop where
  posts : ∀ x ∈ db.posts.entries, (Posts.init x.2).userId ≠ "" → A (Posts.init x.2).userId
  comments : ∀ x ∈ db.comments.entries,
    A (Comments.init x.2).userId ∧ B (Comments.init x.2).postId

theorem Authored.mono (h : Authored A B db) (hA : ∀ u, A u → A' u) (hB : ∀ i, B i → B' i) :
    Authored A' B' db where
  posts x hx hne := hA _ (h.posts x hx hne)
  comments x hx := (h.comments x hx).imp (hA _) (hB _)

theorem authored_step (h : step db c = some db') (hc : c.Signed A B) (hdb : Authored A B db) :
    Authored A B db' := by
  cases c with
  | uploadPost title detailPost date username userId postId =>
    simp only [step] at h
    split_ifs at h
    cases h
    refine ⟨fun x hx hne => ?_, hdb.comments⟩
    rcases Table.mem_set.1 hx with rfl | ⟨hx, -⟩
    · rw [init_uploadPost]
      exact hc
    · exact hdb.posts x hx hne
  | editUserPost postId title detailPost date =>
    cases h
    refine ⟨fun x hx hne => ?_, hdb.comments⟩
    rcases Table.mem_set.1 hx with rfl | ⟨hx, -⟩
    · -- the edit merges into what is there, and writes no uid
      simp only [updateChildValues, init_editUserPost] at hne ⊢
      cases hd : db.posts.lookup postId with
      | none =>
        rw [hd] at hne
        exact absurd rfl hne
      | some dict =>
        rw [hd] at hne
        exact hdb.posts _ (Table.lookup_eq_some.1 hd) hne
    · exact hdb.posts x hx hne
  | deletePost postId =>
    cases h
    exact ⟨fun x hx => hdb.posts x (Table.mem_erase.1 hx).1, hdb.comments⟩
  | postComment user userId comment postId commentId date =>
    simp only [step] at h
    split_ifs at h <;> cases h
    · exact hdb
    · refine ⟨hdb.posts, fun x hx => ?_⟩
      rcases Table.mem_set.1 hx with rfl | ⟨hx, -⟩
      · rw [init_postComment]
        exact hc
      · exact hdb.comments x hx
  | createUser =>
    simp only [step] at h
    split_ifs at h
    cases h
    exact ⟨hdb.posts, hdb.comments⟩
  | updateUserInfo | deleteUser =>
    cases h
    exact ⟨hdb.posts, hdb.comments⟩

end Database

namespace Device

variable {F : Foundation} {d d' : Device} {e : Event}

/-- What a form submits is signed with the session, and a comment goes to the post of its
thread. -/
theorem signed_call {c : Database.Call} (hown : ∀ c, e ≠ .call c) (h : d.call e = some c) :
    c.Signed (fun u => d.mine.session = some u)
      fun i => ∃ x ∈ d.threads.screens, ∃ post ∈ x.post, i = post.postId := by
  obtain ⟨x, hx, hc⟩ : ∃ x, d.submission e = some x ∧ x.call = some c := by
    cases e with
    | call c' => exact absurd rfl (hown c')
    | feed | mine | didSelectItemAt | runThreads | handleSubmit | handleSubmitComment =>
      exact Option.bind_eq_some_iff.1 h
  cases e with
  | handleSubmit title detailPost date user postId =>
    obtain rfl := Option.some.inj hx
    simp only [Database.Submission.call] at hc
    split_ifs at hc
    obtain ⟨userId, hu, hc⟩ := Option.bind_eq_some_iff.1 hc
    obtain ⟨username, -, rfl⟩ := Option.map_eq_some_iff.1 hc
    exact hu
  | handleSubmitComment screen comment user commentId date =>
    obtain ⟨t, ht, rfl⟩ := Option.map_eq_some_iff.1 hx
    obtain ⟨userId, hu, hc⟩ := Option.bind_eq_some_iff.1 hc
    obtain ⟨user, -, hc⟩ := Option.bind_eq_some_iff.1 hc
    obtain ⟨post, hpost, rfl⟩ := Option.map_eq_some_iff.1 hc
    exact ⟨hu, t, List.mem_of_getElem? ht, post, hpost, rfl⟩
  | mine me =>
    cases me with
    | deletePost | editUserPost =>
      simp only [submission] at hx
      split at hx <;> cases hx
      obtain ⟨post, -, rfl⟩ := Option.map_eq_some_iff.1 hc
      trivial
    | viewDidLoad | signIn | signOut | uploadPost | remoteEdit | remoteDelete | refreshData
    | deleteIconTapped | editIconTapped | cancel | layout | runMain => cases hx
  | feed | call | didSelectItemAt | runThreads => cases hx

/-- A thread is opened on a post that the feed shows. -/
theorem present_shown {post : Posts} (h : d.threadsEvent e = some (.present (some post))) :
    post ∈ d.feed.main.shown := by
  cases e with
  | didSelectItemAt item =>
    simp only [threadsEvent, MainController.didSelectItemAt_eq, Option.map_map] at h
    obtain ⟨p, hp, he⟩ := Option.map_eq_some_iff.1 h
    obtain rfl : p = post := by simpa using he
    exact List.mem_of_getElem? hp
  | handleSubmitComment => cases h
  | runThreads => cases h
  | feed | mine | handleSubmit | call =>
    simp only [threadsEvent] at h
    obtain ⟨c, -, hc⟩ := Option.bind_eq_some_iff.1 h
    cases c <;> cases hc

end Device

namespace Network

open Device

variable {F : Foundation} {ι : Type*} [DecidableEq ι] [Fintype ι] {s : ι → Device}
  {evs : List (ι × Device.Event)} {ok : (ι → Device) → ι × Device.Event → Prop}

/-- On the way to a state of the devices. -/
abbrev Before (F : Foundation) (ok : (ι → Device) → ι × Device.Event → Prop)
    (evs : List (ι × Device.Event)) (P : (ι → Device) → Prop) : Prop :=
  Once (Network F).all ok launch evs P

/-- Everything on the screens of a device was in the database before, and My Comments only
knows accounts that were signed in. -/
structure Traced (F : Foundation) (ok : (ι → Device) → ι × Device.Event → Prop)
    (evs : List (ι × Device.Event)) (i : ι) (d : Device) : Prop where
  kept : Kept d.feed.hub.node
  sound : MyComments.Sound d.mine
  feed : Feed.Traced (fun p => Before F ok evs fun t => p ∈ (t i).feed.stored) d.feed
  mine : MyComments.Traced (fun p => Before F ok evs fun t => p ∈ (t i).mine.stored)
    (fun u => Before F ok evs fun t => (t i).mine.session = some u) d.mine
  threads : Threads.Traced (fun p => Before F ok evs fun t => p ∈ (t i).feed.stored) d.threads

theorem Traced.snoc {i : ι} {d : Device} (h : Traced F ok evs i d) (a : ι × Device.Event) :
    Traced F ok (evs ++ [a]) i d where
  kept := h.kept
  sound := h.sound
  feed := h.feed.mono fun _ hp => hp.snoc a
  mine := h.mine.mono (fun _ hp => hp.snoc a) fun _ hu => hu.snoc a
  threads c hc p hp := (h.threads c hc p hp).snoc a

theorem traced_step {i : ι} {d : Device} {e : Device.Event}
    (hnow : Path (Network F).all ok launch evs s) (hs : Device.step F d e = some (s i))
    (ht : Traced F ok evs i d) : Traced F ok evs i (s i) := by
  obtain ⟨-, hfeed, hmine, hthreads⟩ := step_parts hs
  have hfeed' : Kept (s i).feed.hub.node ∧
      Feed.Traced (fun p => Before F ok evs fun t => p ∈ (t i).feed.stored) (s i).feed := by
    cases hfe : d.feedEvent e with
    | none =>
      rw [hfe] at hfeed
      rw [← Option.some.inj hfeed]
      exact ⟨ht.kept, ht.feed⟩
    | some fe =>
      rw [hfe, follow_some] at hfeed
      exact ⟨Feed.kept_step hfeed ht.kept,
        Feed.traced_step hfeed ht.kept ht.feed fun p hp => .now hnow hp⟩
  have hmine' : MyComments.Sound (s i).mine ∧
      MyComments.Traced (fun p => Before F ok evs fun t => p ∈ (t i).mine.stored)
        (fun u => Before F ok evs fun t => (t i).mine.session = some u) (s i).mine := by
    cases hme : d.mineEvent e with
    | none =>
      rw [hme] at hmine
      rw [← Option.some.inj hmine]
      exact ⟨ht.sound, ht.mine⟩
    | some me =>
      rw [hme, follow_some] at hmine
      exact ⟨MyComments.sound_step hmine ht.sound, MyComments.traced_step hmine ht.sound ht.mine
        (fun p hp => .now hnow hp) fun u hu => .now hnow hu⟩
  refine ⟨hfeed'.1, hmine'.1, hfeed'.2, hmine'.2, ?_⟩
  cases hte : d.threadsEvent e with
  | none =>
    rw [hte] at hthreads
    rw [← Option.some.inj hthreads]
    exact ht.threads
  | some te =>
    rw [hte, follow_some] at hthreads
    apply Threads.traced_step hthreads ht.threads
    rintro post rfl
    exact ht.feed.shown post (present_shown hte)

theorem traced_run (h : Path (Network F).all ok launch evs s) (i : ι) :
    Traced F ok evs i (s i) := by
  induction h with
  | nil => exact ⟨by simp [launch, Kept, Hub.idle], MyComments.sound_init, Feed.traced_init,
      MyComments.traced_init, by simp [Threads.Traced, launch]⟩
  | @snoc evs s s' a hpath hok hs ih =>
    have hstep := Peer.all_eq_some.1 hs i
    cases hheard : (Network F).heard i s a with
    | none =>
      rw [hheard] at hstep
      rw [← Option.some.inj hstep]
      exact ih.snoc a
    | some e =>
      rw [hheard] at hstep
      exact traced_step (hpath.snoc hok hs) hstep (ih.snoc a)

/-- Whatever the devices do, a post on a screen was stored before, as it is shown; and what My
Comments shows, deletes or edits is of an account that was signed in on the device before. -/
theorem shows_versions (h : Path (Network F).all anyStep launch evs s) (i : ι) :
    (∀ p ∈ (s i).feed.main.posts ++ (s i).feed.main.filteredPosts,
        Before F anyStep evs fun t => p ∈ (t i).feed.stored) ∧
      (∀ p ∈ (s i).mine.vc.myPost, (Before F anyStep evs fun t => p ∈ (t i).mine.stored) ∧
        Before F anyStep evs fun t => (t i).mine.session = some p.userId) ∧
      ∀ w ∈ (s i).mine.sent, (Before F anyStep evs fun t => w.post ∈ (t i).mine.stored) ∧
        Before F anyStep evs fun t => (t i).mine.session = some w.post.userId := by
  have ht := traced_run h i
  refine ⟨fun p hp => ?_, ht.mine.lists.visible, ht.mine.sent⟩
  rcases List.mem_append.1 hp with hp | hp
  · exact ht.feed.lists.visible p hp
  · exact ht.feed.found p hp

/-- A deleted post is still on both screens, and the one who was signed in has left. -/
theorem shows_versions_run :
    let evs : List (Fin 2 × Device.Event) :=
      [(0, .mine (.signIn "a")), (0, .feed .viewDidLoad), (0, .mine .viewDidLoad),
        (0, .mine (.runMain [])),
        (0, .handleSubmit "Swift" "text" "Jun 1, 2020 at 9:00 AM" (some "ann") "p1"),
        (0, .feed .runMain), (0, .feed .runMain), (0, .mine (.runMain [])),
        (0, .mine (.runMain [(0, 0)])), (0, .mine .signOut), (1, .call (.deletePost "p1"))]
    ∃ s, Path (Network .ascii).all anyStep launch evs s ∧ (s 0).feed.stored = [] ∧
      (s 0).feed.main.posts.map (·.postId) = ["p1"] ∧
      (s 0).mine.vc.myPost.map (·.postId) = ["p1"] ∧
      (∀ p ∈ (s 0).feed.main.posts ++ (s 0).feed.main.filteredPosts,
        Before .ascii anyStep evs fun t => p ∈ (t 0).feed.stored) ∧
      (∀ p ∈ (s 0).mine.vc.myPost, (Before .ascii anyStep evs fun t => p ∈ (t 0).mine.stored) ∧
        Before .ascii anyStep evs fun t => (t 0).mine.session = some p.userId) ∧
      ∀ w ∈ (s 0).mine.sent, (Before .ascii anyStep evs fun t => w.post ∈ (t 0).mine.stored) ∧
        Before .ascii anyStep evs fun t => (t 0).mine.session = some w.post.userId := by
  intro evs
  refine ⟨_, .of_exec_get (by decide), by decide, by decide, by decide, ?_⟩
  exact shows_versions (.of_exec_get (by decide)) 0

/-- The devices are all there is: nobody else calls the database. -/
def Closed (_ : ι → Device) (a : ι × Device.Event) : Prop :=
  match a.2 with
  | .call _ => False
  | _ => True

instance (s : ι → Device) (a : ι × Device.Event) : Decidable (Closed s a) := by
  unfold Closed
  split <;> infer_instance

/-- The account was signed in on some device. -/
def SignedIn (F : Foundation) (ok : (ι → Device) → ι × Device.Event → Prop)
    (evs : List (ι × Device.Event)) (u : Uid) : Prop :=
  ∃ j, Before F ok evs fun t => (t j).mine.session = some u

/-- A post with the id was stored. -/
def Posted (F : Foundation) (ok : (ι → Device) → ι × Device.Event → Prop)
    (evs : List (ι × Device.Event)) (id : String) : Prop :=
  ∃ j p, (Before F ok evs fun t => p ∈ (t j).feed.stored) ∧ id = p.postId

theorem SignedIn.snoc {u : Uid} (h : SignedIn F ok evs u) (a : ι × Device.Event) :
    SignedIn F ok (evs ++ [a]) u := h.imp fun _ hu => hu.snoc a

theorem Posted.snoc {id : String} (h : Posted F ok evs id) (a : ι × Device.Event) :
    Posted F ok (evs ++ [a]) id :=
  h.imp fun _ ⟨p, hp, hid⟩ => ⟨p, hp.snoc a, hid⟩

theorem authored_run (h : Path (Network F).all Closed launch evs s) :
    ∃ db, (∀ i, Copies db (s i)) ∧
      db.Authored (SignedIn F Closed evs) (Posted F Closed evs) := by
  induction h with
  | nil => exact ⟨{}, fun _ => copies_init, by simp, by simp⟩
  | @snoc evs s s' a hpath hok hs ih =>
    obtain ⟨db, hcopies, hdb⟩ := ih
    obtain ⟨db', hcall, hcopies'⟩ := Peer.simulates_step (fun _ _ _ _ => copies_step)
      (fun _ _ => Option.map_eq_none_iff.1) (fun _ _ _ he _ => call_echo he) hs hcopies
    refine ⟨db', hcopies', ?_⟩
    have hdb : db.Authored (SignedIn F Closed (evs ++ [a])) (Posted F Closed (evs ++ [a])) :=
      hdb.mono (fun _ hu => hu.snoc a) fun _ hi => hi.snoc a
    cases hc : (s a.1).call a.2 with
    | none =>
      rw [hc] at hcall
      exact Option.some.inj hcall ▸ hdb
    | some c =>
      rw [hc] at hcall
      have hown : ∀ c, a.2 ≠ .call c := fun c hc => by simp [Closed, hc] at hok
      refine Database.authored_step hcall ((signed_call hown hc).mono ?_ ?_) hdb
      · exact fun u hu => SignedIn.snoc ⟨a.1, .now hpath hu⟩ a
      · rintro i ⟨x, hx, post, hpost, rfl⟩
        exact Posted.snoc ⟨a.1, post, (traced_run hpath a.1).threads x hx post hpost, rfl⟩ a

/-- Nobody writes under another name: a stored post that has a uid, and every stored comment,
has the uid of an account that was signed in on some device, and a comment is on a post that
was stored. -/
theorem authors_signed_in (h : Path (Network F).all Closed launch evs s) (i : ι) :
    (∀ p ∈ (s i).feed.stored, p.userId ≠ "" → SignedIn F Closed evs p.userId) ∧
      ∀ x ∈ (s i).threads.stored, SignedIn F Closed evs x.userId ∧ Posted F Closed evs x.postId := by
  obtain ⟨db, hcopies, hdb⟩ := authored_run h
  constructor
  · intro p hp hne
    obtain ⟨x, hx, rfl⟩ := List.mem_map.1 hp
    exact hdb.posts x ((hcopies i).feed.1 ▸ hx) hne
  · intro x hx
    obtain ⟨y, hy, rfl⟩ := List.mem_map.1 ((hcopies i).stored.mem_iff.1 hx)
    exact hdb.comments y hy

/-- A post and a comment from two devices, and an edit of the post by its author. -/
theorem authors_signed_in_run :
    let evs : List (Fin 2 × Device.Event) :=
      [(0, .mine (.signIn "a")), (1, .mine (.signIn "b")), (1, .feed .viewDidLoad),
        (0, .mine .viewDidLoad), (0, .mine (.runMain [])),
        (0, .handleSubmit "Swift" "text" "Jun 1, 2020 at 9:00 AM" (some "ann") "p1"),
        (1, .feed .runMain), (1, .feed .runMain), (1, .didSelectItemAt 0),
        (1, .handleSubmitComment 0 "nice" (some "bob") "c1" "Jun 1, 2020 at 9:30 AM"),
        (0, .mine (.runMain [])), (0, .mine (.runMain [(0, 0)])), (0, .mine (.editIconTapped 0)),
        (0, .mine (.editUserPost "Swift 5" "text" "Jun 3, 2020 at 9:00 AM"))]
    ∃ s, Path (Network .ascii).all Closed launch evs s ∧
      (s 1).feed.stored.map (·.title) = ["Swift 5"] ∧
      (s 1).threads.stored.map (·.comment) = ["nice"] ∧
      (∀ p ∈ (s 1).feed.stored, p.userId ≠ "" → SignedIn .ascii Closed evs p.userId) ∧
      ∀ x ∈ (s 1).threads.stored,
        SignedIn .ascii Closed evs x.userId ∧ Posted .ascii Closed evs x.postId := by
  intro evs
  refine ⟨_, .of_exec_get (by decide), by decide, by decide, ?_⟩
  exact authors_signed_in (.of_exec_get (by decide)) 1

end Network

end DevPost
