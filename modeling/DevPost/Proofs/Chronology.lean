import DevPost.Sanity.Sorted
import DevPost.Sanity.TimeString

/-! Whether the lists are in the order of time. The callbacks sort by the text of the date,
so they show what was written in the order of time exactly when text and time agree on
it: an edited post is the later one of an edited and an unedited post, and otherwise the date
of the later one comes later in alphabetical order. -/

namespace DevPost

open Lib FirebaseServices TimeString

/-- A post as the node holds it, with the minute of its upload or of its last edit. -/
structure DatedPost where
  post : Posts
  written : Minute
  edited : Bool
  date_eq : post.date =
    if edited then "Updated on " ++ setDate written else setDate written

namespace DatedPost

/-- The post that an upload stores. -/
def uploadPost (title detailPost username userId postId : String) (now : Minute) : DatedPost where
  post := Posts.init
    (Table.ofList (uploadPostValues title detailPost (setDate now) username userId postId))
  written := now
  edited := false
  date_eq := by simp [init_uploadPost]

/-- The post that an edit leaves. -/
def editUserPost (dict : Record) (title detailPost : String) (now : Minute) : DatedPost where
  post := Posts.init (dict.merge (editUserPostValues title detailPost (setDate now)))
  written := now
  edited := true
  date_eq := by simp [init_editUserPost]

/-- The date of `a` comes before that of `b` in alphabetical order. -/
def Precedes (a b : DatedPost) : Prop :=
  a.edited = false ∧ b.edited = true ∨ a.edited = b.edited ∧ TimeString.Precedes a.written b.written

instance (a b : DatedPost) : Decidable (Precedes a b) := by
  unfold Precedes
  infer_instance

end DatedPost

/-- A comment as the node holds it, with the minute of its submission. -/
structure DatedComment where
  comment : Comments
  written : Minute
  date_eq : comment.date = setDate written

/-- The comment that a submission stores. -/
def DatedComment.postComment (user userId comment postId commentId : String) (now : Minute) :
    DatedComment where
  comment := Comments.init
    (Table.ofList (postCommentValues user userId comment postId commentId (setDate now)))
  written := now
  date_eq := by simp [init_postComment]

/-- The list shows the given posts, the latest first. -/
def NewestFirst (given : List DatedPost) (shown : List Posts) : Prop :=
  ∃ ds : List DatedPost, ds.Perm given ∧ shown = ds.map (·.post) ∧
    ds.Pairwise fun a b => b.written.time ≤ a.written.time

/-- The list shows the given comments, the earliest first. -/
def OldestFirst (given : List DatedComment) (shown : List Comments) : Prop :=
  ∃ ds : List DatedComment, ds.Perm given ∧ shown = ds.map (·.comment) ∧
    ds.Pairwise fun a b => a.written.time ≤ b.written.time

/-- A date with the text of an edit comes after every date without it. -/
theorem setDate_lt_updated (t u : Minute) : setDate t < "Updated on " ++ setDate u := by
  have hmonth : ∀ m : Fin 12, monthSymbol m < "Updated on ".toList ∧
      ¬ monthSymbol m <+: "Updated on ".toList ∧ ¬ "Updated on ".toList <+: monthSymbol m := by
    decide
  obtain ⟨hlt, hstart, hstart'⟩ := hmonth t.month
  rw [String.lt_iff_toList_lt, String.toList_append, setDate, String.toList_ofList, fields,
    List.flatten_cons, List.append_assoc, append_lt_append_iff_of_start _ _ hstart hstart']
  exact hlt

theorem updated_lt_iff (s t : String) : "Updated on " ++ s < "Updated on " ++ t ↔ s < t := by
  rw [String.lt_iff_toList_lt, String.lt_iff_toList_lt, String.toList_append, String.toList_append,
    append_lt_append_iff]

namespace DatedPost

theorem date_lt_iff (a b : DatedPost) : a.post.date < b.post.date ↔ Precedes a b := by
  have hup := setDate_lt_updated
  rw [a.date_eq, b.date_eq, Precedes]
  cases a.edited <;> cases b.edited
  · simp only [Bool.false_eq_true, if_false, and_false, false_or, true_and, setDate_lt_iff]
  · simp only [Bool.false_eq_true, if_false, if_true, hup, and_self, true_or]
  · simp only [Bool.false_eq_true, Bool.true_eq_false, if_false, if_true, and_self, false_and,
      or_self, (hup b.written a.written).not_gt]
  · simp only [Bool.true_eq_false, if_true, false_and, false_or, true_and, updated_lt_iff,
      setDate_lt_iff]

theorem time_eq_of_date_eq {a b : DatedPost} (h : a.post.date = b.post.date) :
    a.written.time = b.written.time := by
  have hup := setDate_lt_updated
  rw [a.date_eq, b.date_eq] at h
  cases hea : a.edited <;> cases heb : b.edited <;> simp only [hea, heb] at h
  · exact time_eq_of_setDate_eq h
  · exact absurd h (hup _ _).ne
  · exact absurd h (hup _ _).ne'
  · exact time_eq_of_setDate_eq (by simpa using h)

end DatedPost

theorem newestFirst_iff (given : List DatedPost) :
    NewestFirst given (feed latest [] (given.map (·.post))) ↔
      ∀ a ∈ given, ∀ b ∈ given, a.written.time < b.written.time → DatedPost.Precedes a b := by
  have hinj : ∀ a b : DatedPost, latest a.post = latest b.post →
      OrderDual.toDual a.written.time = OrderDual.toDual b.written.time := fun a b h =>
    congrArg OrderDual.toDual (DatedPost.time_eq_of_date_eq (OrderDual.toDual_inj.1 h))
  apply (feed_shows_iff latest (·.post) hinj given).trans
  simp only [OrderDual.toDual_lt_toDual, DatedPost.date_lt_iff]
  exact ⟨fun h a ha b hb => h b hb a ha, fun h a ha b hb => h b hb a ha⟩

theorem oldestFirst_iff (given : List DatedComment) :
    OldestFirst given (feed (·.date) [] (given.map (·.comment))) ↔
      ∀ a ∈ given, ∀ b ∈ given, a.written.time < b.written.time →
        TimeString.Precedes a.written b.written := by
  have hinj : ∀ a b : DatedComment, a.comment.date = b.comment.date →
      a.written.time = b.written.time := fun a b h =>
    time_eq_of_setDate_eq (a.date_eq.symm.trans (h.trans b.date_eq))
  apply (feed_shows_iff (·.date) (·.comment) hinj given).trans
  simp only [DatedComment.date_eq, setDate_lt_iff]

/-- The list of the main feed after the deliveries. -/
def mainPosts (ps : List DatedPost) : List Posts :=
  (ps.foldl (fun c d => c.observeUser d.post) ({} : MainController)).posts

/-- The list of the My Comments screen after the deliveries, with the layout at each. -/
def myPosts (ps : List (DatedPost × Layout)) : List Posts :=
  (ps.foldl (fun c d => c.fetchPostForCurrentUser d.1.post d.2) ({} : MyCommentsController)).myPost

/-- The thread after the deliveries. -/
def thread (post : Posts) (cs : List DatedComment) : List Comments :=
  (cs.foldl (fun c d => c.fetchPosts (some d.comment)) ({ post := some post } :
    CommentsController)).comments

theorem mainPosts_eq (ps : List DatedPost) : mainPosts ps = feed latest [] (ps.map (·.post)) := by
  rw [mainPosts, ← posts_foldl_observeUser {}, List.foldl_map]

theorem myPosts_eq (ps : List (DatedPost × Layout)) :
    myPosts ps = feed latest [] ((ps.map (·.1)).map (·.post)) := by
  have h := myPost_foldl_fetchPostForCurrentUser {} (ps.map fun d => (d.1.post, d.2))
  rw [List.foldl_map, List.map_map] at h
  rw [myPosts, h, List.map_map]
  rfl

theorem thread_eq (post : Posts) (cs : List DatedComment) :
    thread post cs = feed (·.date) [] (cs.map (·.comment)) := by
  rw [thread, ← comments_foldl_fetchPosts { post := some post }, List.foldl_map]

/-- Whatever is delivered in whatever order, each list is in the order of time exactly when
of any two of its posts or comments the later one has the date that comes later in
alphabetical order. -/
theorem lists_chronological (ps : List DatedPost) (ms : List (DatedPost × Layout)) (post : Posts)
    (cs : List DatedComment) :
    (NewestFirst ps (mainPosts ps) ↔
      ∀ a ∈ ps, ∀ b ∈ ps, a.written.time < b.written.time → DatedPost.Precedes a b) ∧
    (NewestFirst (ms.map (·.1)) (myPosts ms) ↔
      ∀ a ∈ ms, ∀ b ∈ ms, a.1.written.time < b.1.written.time → DatedPost.Precedes a.1 b.1) ∧
    (OldestFirst cs (thread post cs) ↔
      ∀ a ∈ cs, ∀ b ∈ cs, a.written.time < b.written.time →
        TimeString.Precedes a.written b.written) := by
  rw [mainPosts_eq, myPosts_eq, thread_eq]
  refine ⟨newestFirst_iff ps, (newestFirst_iff _).trans ?_, oldestFirst_iff cs⟩
  simp

/-- Written in January and in February of one year. -/
theorem lists_unchronological :
    ¬ ∀ (ps : List DatedPost) (ms : List (DatedPost × Layout)) (post : Posts)
        (cs : List DatedComment),
        NewestFirst ps (mainPosts ps) ∧ NewestFirst (ms.map (·.1)) (myPosts ms) ∧
          OldestFirst cs (thread post cs) := by
  intro hall
  have hnewest := (hall
    [.uploadPost "Swift" "text" "ann" "a" "p1" ⟨2021, 0, 31, 9, 0, by decide, by decide⟩,
      .uploadPost "Lean" "text" "bob" "b" "p2" ⟨2021, 1, 1, 9, 0, by decide, by decide⟩]
    [] ⟨"", "", "", "", "", ""⟩ []).1
  rw [mainPosts_eq, newestFirst_iff] at hnewest
  have hprecedes := hnewest _ List.mem_cons_self _ (List.mem_cons_of_mem _ List.mem_cons_self)
    (by decide)
  exact absurd hprecedes (by decide)

end DevPost
