import DevPost.Proofs.Network
import DevPost.Proofs.Threads

/-! A conversation while it goes on. A thread that is open only grows, keeps the order of what
it shows and never shows a comment twice; and since every device has the same comments node,
threads on one post agree on all devices, with nobody pulling anything down. -/

namespace DevPost

open Lib FirebaseServices

namespace Threads

variable {s s' s₀ : Threads} {e : Event} {node : Table String Child}

/-- What a step leaves of a screen. -/
def Grows (s s' : Threads) : Prop :=
  ∀ (i : ℕ) (c : CommentsController), s.screens[i]? = some c →
    ∃ c' : CommentsController, s'.screens[i]? = some c' ∧ c'.post = c.post ∧
      c.comments.Sublist c'.comments

theorem Grows.same (h : s'.screens = s.screens) : Grows s s' := fun _ c hc =>
  ⟨c, h ▸ hc, rfl, .refl _⟩

theorem Grows.trans {s₁ : Threads} (h : Grows s s₁) (h' : Grows s₁ s') : Grows s s' := by
  intro i c hc
  obtain ⟨c₁, hc₁, hpost, hsub⟩ := h i c hc
  obtain ⟨c₂, hc₂, hpost', hsub'⟩ := h' i c₁ hc₁
  exact ⟨c₂, hc₂, hpost'.trans hpost, hsub.trans hsub'⟩

/-- A comment goes in between those that are shown. -/
theorem fetchComments_sublist {c : CommentsController} (hc : Sorted c) (child : Child) :
    c.comments.Sublist (c.fetchComments child).comments := by
  cases hpost : c.post with
  | none =>
    unfold CommentsController.fetchComments
    split
    · exact .refl _
    · simp [hpost, CommentsController.fetchPosts]
  | some post =>
    rw [comments_fetchComments hpost]
    exact feed_sublist _ hc.1 _

theorem grows_postComment {user userId comment postId commentId date : String}
    (h : s.postComment user userId comment postId commentId date = some s') : Grows s s' := by
  rcases postComment_cases h with ⟨-, rfl⟩ | ⟨-, -, child, -, rfl⟩
  · exact .same rfl
  · exact .same rfl

theorem grows_step (hs : Sound s) (h : step s e = some s') : Grows s s' := by
  cases e with
  | present post =>
    cases h
    exact fun i c hc => ⟨c, getElem?_screens.2 (.inl hc), rfl, .refl _⟩
  | handleSubmitComment screen userId comment user commentId date =>
    obtain ⟨c, -, h⟩ := Option.bind_eq_some_iff.1 h
    split at h
    · exact grows_postComment h
    · cases h
      exact .same rfl
  | postComment user userId comment postId commentId date => exact grows_postComment h
  | runMain =>
    simp only [step] at h
    split at h <;> cases h
    rename_i k child q hq
    intro i c hc
    refine ⟨if k = i then c.fetchComments child else c, ?_, ?_, ?_⟩
    · rw [List.getElem?_modify, hc]
      rfl
    · split_ifs
      · exact post_fetchComments child
      · rfl
    · split_ifs
      · exact fetchComments_sublist (hs.sorted c (List.mem_of_getElem? hc)) child
      · exact .refl _

theorem Sound.subperm (hs : Sound s) {c : CommentsController} {post : Posts}
    (hc : c ∈ s.screens) (hpost : c.post = some post) :
    c.comments.Subperm (s.stored.filter fun x => x.postId = post.postId) := by
  obtain ⟨i, hi⟩ := List.mem_iff_getElem?.1 hc
  rw [← wanted_stored]
  exact (List.sublist_append_left _ _).subperm.trans (hs.thread i c post hi hpost).subperm

/-- While the app runs, whatever the node held, a thread keeps its post and everything it
shows, in the order it shows it, and shows stored comments on its post only, in the order of
their dates. -/
theorem thread_grows {pre evs : List Event} (hpre : Path step anyStep (launch node) pre s₀)
    (hrun : Path step anyStep s₀ evs s) {i : ℕ} {c₀ : CommentsController} {post : Posts}
    (hc₀ : s₀.screens[i]? = some c₀) (hpost : c₀.post = some post) :
    ∃ c, s.screens[i]? = some c ∧ c.post = some post ∧ c₀.comments.Sublist c.comments ∧
      c.comments.Subperm (s.stored.filter fun x => x.postId = post.postId) ∧
      InOrder (·.date) c.comments := by
  have hs : Sound s ∧ Grows s₀ s := hrun.invariant (fun s => Sound s ∧ Grows s₀ s)
    ⟨run_sound hpre, .same rfl⟩
    fun _ _ _ ⟨hs, hg⟩ _ h => ⟨sound_step h hs, hg.trans (grows_step hs h)⟩
  obtain ⟨c, hc, hpost', hsub⟩ := hs.2 i c₀ hc₀
  have hmem := List.mem_of_getElem? hc
  exact ⟨c, hc, hpost'.trans hpost, hsub, hs.1.subperm hmem (hpost'.trans hpost),
    (hs.1.sorted c hmem).1⟩

/-- A thread that shows a comment, one with a later and one with an earlier date still to come. -/
theorem thread_grows_run :
    let post : Posts := ⟨"Swift", "text", "Jun 1, 2020 at 9:00 AM", "ann", "a", "p1"⟩
    ∃ s₀ s c₀, Path step anyStep (launch ∅)
        [.present (some post),
          .postComment "bob" "b" "nice" "p1" "c1" "Jun 2, 2020 at 9:00 AM", .runMain] s₀ ∧
      Path step anyStep s₀
        [.handleSubmitComment 0 (some "a") "thanks" (some "ann") "c2" "Jun 3, 2020 at 9:00 AM",
          .postComment "bob" "b" "first" "p1" "c3" "Jun 1, 2020 at 9:30 AM",
          .postComment "bob" "b" "other" "p2" "c4" "Jun 1, 2020 at 9:40 AM", .runMain, .runMain,
          .runMain] s ∧
      s₀.screens[0]? = some c₀ ∧ c₀.comments.map (·.comment) = ["nice"] ∧
      s.screens.map (·.comments.map (·.comment)) = [["first", "nice", "thanks"]] ∧
      ∃ c, s.screens[0]? = some c ∧ c.post = some post ∧ c₀.comments.Sublist c.comments ∧
        c.comments.Subperm (s.stored.filter fun x => x.postId = post.postId) ∧
        InOrder (·.date) c.comments := by
  intro post
  refine ⟨_, _, _, .of_exec_get (by decide), .of_exec_get (by decide),
    List.getElem?_eq_getElem (by decide), by decide, by decide, ?_⟩
  exact thread_grows (.of_exec_get (by decide)) (.of_exec_get (by decide))
    (List.getElem?_eq_getElem (by decide)) (by decide)

end Threads

namespace Database

/-- The comments that are stored on a post. -/
def commentsOn (db : Database) (post : Posts) : List Comments :=
  (db.comments.entries.map fun e => Comments.init e.2).filter fun x => x.postId = post.postId

/-- A comment carries its key. -/
def CommentsKeyed (db : Database) : Prop :=
  ∀ e ∈ db.comments.entries, (Comments.init e.2).commentId = e.1

theorem commentsKeyed_step {db db' : Database} {c : Call} (h : step db c = some db')
    (hk : CommentsKeyed db) : CommentsKeyed db' := by
  cases c with
  | postComment user userId comment postId commentId date =>
    simp only [step] at h
    split_ifs at h <;> cases h
    · exact hk
    · intro e he
      rcases Table.mem_set.1 he with rfl | ⟨he, -⟩
      · rw [init_postComment]
      · exact hk e he
  | createUser | uploadPost =>
    simp only [step] at h
    split_ifs at h
    cases h
    exact hk
  | updateUserInfo | deleteUser | editUserPost | deletePost =>
    cases h
    exact hk

theorem CommentsKeyed.nodup {db : Database} (hk : CommentsKeyed db) (post : Posts) :
    ((db.commentsOn post).map (·.commentId)).Nodup := by
  have hkeys : (db.comments.entries.map fun e => Comments.init e.2).map (·.commentId) =
      db.comments.entries.map (·.1) := by
    rw [List.map_map]
    exact List.map_congr_left hk
  apply List.Nodup.sublist (List.filter_sublist.map _)
  rw [hkeys]
  exact db.comments.keys_nodup

end Database

namespace Device

variable {F : Foundation} {d d' : Device}

theorem threads_sound {o : Option Event} (h : follow (step F) d o = some d')
    (hs : Threads.Sound d.threads) : Threads.Sound d'.threads := by
  cases o with
  | none => exact Option.some.inj h ▸ hs
  | some e =>
    have hthreads := (step_parts h).2.2.2
    cases hevent : d.threadsEvent e with
    | none =>
      rw [hevent] at hthreads
      exact Option.some.inj hthreads ▸ hs
    | some te =>
      rw [hevent] at hthreads
      exact Threads.sound_step (e := te) hthreads hs

theorem Copies.stored {db : Database} {d : Device} (h : Copies db d) :
    d.threads.stored.Perm (db.comments.entries.map fun e => Comments.init e.2) := by
  have hentries : d.threads.hub.node.entries.Perm
      (db.comments.entries.map fun e => (e.1, Child.dict e.2)) := by
    refine (List.perm_ext_iff_of_nodup (.of_map _ d.threads.hub.node.keys_nodup) ?_).2 ?_
    · refine List.Nodup.map ?_ (.of_map _ db.comments.keys_nodup)
      rintro ⟨k, r⟩ ⟨k', r'⟩ he
      simpa using he
    · rintro ⟨k, child⟩
      rw [← Table.lookup_eq_some, h.threads, Option.map_eq_some_iff, List.mem_map]
      constructor
      · rintro ⟨r, hr, rfl⟩
        exact ⟨(k, r), Table.lookup_eq_some.1 hr, rfl⟩
      · rintro ⟨⟨k', r⟩, hr, he⟩
        obtain ⟨rfl, rfl⟩ := Prod.ext_iff.1 he
        exact ⟨r, Table.lookup_eq_some.2 hr, rfl⟩
  refine (hentries.filterMap _).trans (.of_eq ?_)
  rw [List.filterMap_map, ← List.filterMap_eq_map]
  rfl

/-- A thread shows some of the comments on its post, and all of them when nothing is on its
way. -/
theorem Copies.thread {db : Database} {d : Device} (h : Copies db d)
    (hs : Threads.Sound d.threads) {c : CommentsController} {post : Posts}
    (hc : c ∈ d.threads.screens) (hpost : c.post = some post) :
    c.comments.Subperm (db.commentsOn post) ∧
      (d.threads.hub.queue = [] → c.comments.Perm (db.commentsOn post)) := by
  have hstored : (d.threads.stored.filter fun x => x.postId = post.postId).Perm
      (db.commentsOn post) := h.stored.filter _
  refine ⟨(hs.subperm hc hpost).trans hstored.subperm, fun hquiet => ?_⟩
  obtain ⟨k, hk⟩ := List.mem_iff_getElem?.1 hc
  have hthread := hs.thread k c post hk hpost
  rw [hquiet, owed_nil, Threads.wanted_nil, List.append_nil, Threads.wanted_stored] at hthread
  exact hthread.trans hstored

end Device

namespace Network

open Device

variable {F : Foundation} {ι : Type*} [DecidableEq ι] [Fintype ι] {s : ι → Device}
  {evs : List (ι × Device.Event)}

theorem sound_run {ok : (ι → Device) → ι × Device.Event → Prop}
    (h : Path (Network F).all ok launch evs s) (i : ι) : Threads.Sound (s i).threads :=
  h.invariant (fun s => ∀ i, Threads.Sound (s i).threads) (fun _ => Threads.sound_launch ∅)
    (fun _ _ _ hs _ h i => threads_sound (Peer.all_eq_some.1 h i) (hs i)) i

/-- In every run of the devices one database holds what all threads show: at any moment a
thread has some of the comments on its post, none of them twice, in the order of their dates,
and when nothing is on its way it has them all. -/
theorem threads_agree (h : Path (Network F).all anyStep launch evs s) :
    ∃ db, Path Database.step anyStep {} (calls F evs) db ∧
      ∀ (i : ι) (c : CommentsController) (post : Posts), c ∈ (s i).threads.screens →
        c.post = some post →
          c.comments.Subperm (db.commentsOn post) ∧ (c.comments.map (·.commentId)).Nodup ∧
            InOrder (·.date) c.comments ∧
            ((s i).threads.hub.queue = [] → c.comments.Perm (db.commentsOn post)) := by
  obtain ⟨db, hpath, hcopies⟩ := copies_run h
  have hkeyed : db.CommentsKeyed := hpath.invariant Database.CommentsKeyed
    (by simp [Database.CommentsKeyed]) fun _ _ _ hk _ h => Database.commentsKeyed_step h hk
  refine ⟨db, hpath, fun i c post hc hpost => ?_⟩
  obtain ⟨hsub, hquiet⟩ := (hcopies i).thread (sound_run h i) hc hpost
  refine ⟨hsub, ?_, ((sound_run h i).sorted c hc).1, hquiet⟩
  obtain ⟨l, hl, hlsub⟩ := hsub
  exact (hl.map _).nodup_iff.1 ((hkeyed.nodup post).sublist (hlsub.map _))

/-- Two devices talk about one post. -/
theorem threads_agree_run :
    let evs : List (Fin 2 × Device.Event) :=
      [(0, .mine (.signIn "a")), (1, .mine (.signIn "b")), (0, .feed .viewDidLoad),
        (0, .handleSubmit "Swift" "text" "Jun 1, 2020 at 9:00 AM" (some "ann") "p1"),
        (1, .feed .viewDidLoad), (0, .feed .runMain), (0, .feed .runMain), (1, .feed .runMain),
        (1, .feed .runMain), (0, .didSelectItemAt 0), (1, .didSelectItemAt 0),
        (1, .handleSubmitComment 0 "nice" (some "bob") "c1" "Jun 1, 2020 at 9:30 AM"),
        (0, .runThreads),
        (0, .handleSubmitComment 0 "thanks" (some "ann") "c2" "Jun 1, 2020 at 9:40 AM"),
        (0, .runThreads), (1, .runThreads), (1, .runThreads)]
    ∃ s, Path (Network .ascii).all anyStep launch evs s ∧
      (∀ i, (s i).threads.screens.map (fun c => c.comments.map (·.comment)) =
        [["nice", "thanks"]]) ∧
      ∃ db, Path Database.step anyStep {} (calls .ascii evs) db ∧
        ∀ (i : Fin 2) (c : CommentsController) (post : Posts), c ∈ (s i).threads.screens →
          c.post = some post →
            c.comments.Subperm (db.commentsOn post) ∧ (c.comments.map (·.commentId)).Nodup ∧
              InOrder (·.date) c.comments ∧
              ((s i).threads.hub.queue = [] → c.comments.Perm (db.commentsOn post)) := by
  intro evs
  exact ⟨_, .of_exec_get (by decide), by decide, threads_agree (.of_exec_get (by decide))⟩

end Network

end DevPost
