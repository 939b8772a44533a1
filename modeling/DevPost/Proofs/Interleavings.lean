import DevPost.Lib.Keyed
import DevPost.Proofs.Conversation

/-! The order in which the clients' calls reach the database. A call reads and writes the record
of its own id and nothing else, a merge included, so calls on different records commute; what
order matters is that of the calls on one record, and the screens show no other. -/

namespace DevPost

open Lib FirebaseServices

namespace Database

variable {db db₀ : Database} {calls calls' : List Call}

/-- The place of a record. -/
inductive Child
  | users (uid : Uid)
  | posts (postId : String)
  | comments (commentId : String)
deriving DecidableEq

/-- The record that a call is for. -/
def Call.child : Call → Child
  | .createUser _ _ uid => .users uid
  | .updateUserInfo uid _ _ _ => .users uid
  | .deleteUser uid => .users uid
  | .uploadPost _ _ _ _ _ postId => .posts postId
  | .editUserPost postId _ _ _ => .posts postId
  | .deletePost postId => .posts postId
  | .postComment _ _ _ _ commentId _ => .comments commentId

/-- The record at a place, and whether its id was given out. -/
def cell (db : Database) : Child → Option Record × Bool
  | .users uid => (db.users.lookup uid, uid ∈ db.uids)
  | .posts postId => (db.posts.lookup postId, postId ∈ db.postIds)
  | .comments commentId => (db.comments.lookup commentId, commentId ∈ db.commentIds)

/-- What a call makes of its record. -/
def write (c : Option Record × Bool) : Call → Option (Option Record × Bool)
  | .createUser email username _ =>
    if c.2 then none else some (some (Table.ofList (createUserValues email username)), true)
  | .updateUserInfo _ username title repo =>
    some (some ((c.1.getD ∅).merge (updateUserInfoValues username title repo)), c.2)
  | .deleteUser _ => some (none, c.2)
  | .uploadPost title detailPost date username userId postId =>
    if c.2 then none
    else some
      (some (Table.ofList (uploadPostValues title detailPost date username userId postId)), true)
  | .editUserPost _ title detailPost date =>
    some (some ((c.1.getD ∅).merge (editUserPostValues title detailPost date)), c.2)
  | .deletePost _ => some (none, c.2)
  | .postComment user userId comment postId commentId date =>
    if comment = "" then some c
    else if c.2 then none
    else some
      (some (Table.ofList (postCommentValues user userId comment postId commentId date)), true)

theorem keyed : Keyed step cell Call.child write where
  own db c db' h := by
    cases c with
    | createUser | uploadPost =>
      simp only [step] at h
      split_ifs at h with hid
      cases h
      simp [cell, write, Call.child, hid]
    | updateUserInfo | deleteUser | editUserPost | deletePost =>
      cases h
      simp [cell, write, Call.child, updateChildValues]
    | postComment user userId comment postId commentId date =>
      simp only [step] at h
      split_ifs at h with hempty hid <;> cases h
      · simp [write, hempty]
      · simp [cell, write, Call.child, hempty, hid]
  other db c db' h k hk := by
    cases c with
    | createUser | uploadPost =>
      simp only [step] at h
      split_ifs at h
      cases h
      cases k <;> simp_all [cell, Call.child, Table.lookup_set]
    | updateUserInfo | editUserPost =>
      cases h
      cases k <;> simp_all [cell, Call.child, Table.lookup_set]
    | deleteUser | deletePost =>
      cases h
      cases k <;> simp_all [cell, Call.child, Table.lookup_erase_of_ne]
    | postComment user userId comment postId commentId date =>
      simp only [step] at h
      split_ifs at h <;> cases h
      · rfl
      · cases k <;> simp_all [cell, Call.child, Table.lookup_set]
  enabled db c h := by
    cases c with
    | createUser | uploadPost | postComment =>
      simp only [write, cell, Call.child] at h
      simp only [step]
      split_ifs at h ⊢ <;> simp_all
    | updateUserInfo | deleteUser | editUserPost | deletePost => rfl

theorem tables_unique (h : Path step anyStep db₀ calls db) {db' : Database}
    (h' : Path step anyStep db₀ calls' db')
    (hsame : ∀ k, eventsOf Call.child k calls' = eventsOf Call.child k calls) :
    db'.users = db.users ∧ db'.posts = db.posts ∧ db'.comments = db.comments := by
  obtain ⟨db'', hpath, hcell⟩ := keyed.reorder h hsame
  obtain rfl := hpath.unique h'
  exact ⟨Table.ext_lookup fun uid => congrArg Prod.fst (hcell (.users uid)),
    Table.ext_lookup fun postId => congrArg Prod.fst (hcell (.posts postId)),
    Table.ext_lookup fun commentId => congrArg Prod.fst (hcell (.comments commentId))⟩

/-- The calls of a run can reach the database in every other order in which the calls on each
record keep theirs: none of them is refused, and the tables are the same in the end. -/
theorem order_free (h : Path step anyStep db₀ calls db)
    (hsame : ∀ k, eventsOf Call.child k calls' = eventsOf Call.child k calls) :
    ∃ db', Path step anyStep db₀ calls' db' ∧ db'.users = db.users ∧ db'.posts = db.posts ∧
      db'.comments = db.comments := by
  obtain ⟨db', hpath, -⟩ := keyed.reorder h hsame
  exact ⟨db', hpath, tables_unique h hpath hsame⟩

/-- A post is edited and another one deleted, with their calls interleaved in another way. -/
theorem order_free_run :
    let upload (postId : String) : Call :=
      .uploadPost "Swift" "text" "Jun 1, 2020 at 9:00 AM" "ann" "a" postId
    let edit : Call := .editUserPost "p1" "Swift 5" "text" "Updated on Jun 3, 2020 at 9:00 AM"
    let calls := [upload "p1", edit, upload "p2", .deletePost "p2"]
    let calls' := [upload "p2", upload "p1", .deletePost "p2", edit]
    ∃ db db', Path step anyStep {} calls db ∧ Path step anyStep {} calls' db' ∧
      db'.users = db.users ∧ db'.posts = db.posts ∧ db'.comments = db.comments := by
  intro upload edit calls calls'
  have h : Path step anyStep {} calls _ := .of_exec_get (by decide)
  have hsame : ∀ k, eventsOf Call.child k calls' = eventsOf Call.child k calls := by
    intro k
    by_cases h₁ : .posts "p1" = k
    · subst h₁
      decide
    by_cases h₂ : .posts "p2" = k
    · subst h₂
      decide
    simp [eventsOf, calls, calls', upload, edit, Call.child, h₁, h₂]
  obtain ⟨db', hdb'⟩ := order_free h hsame
  exact ⟨_, db', h, hdb'⟩

end Database

namespace Network

open Database Device

variable {F F' : Foundation} {ι ι' : Type*} [DecidableEq ι] [Fintype ι] [DecidableEq ι']
  [Fintype ι'] {s : ι → Device} {s' : ι' → Device} {evs : List (ι × Device.Event)}
  {evs' : List (ι' × Device.Event)}

/-- Two histories, of whatever devices, with the same calls on each record: the tables behind
every feed and My Comments are the same in both, and a thread on a post shows the same comments
once nothing is on its way. -/
theorem histories_agree (h : Path (Network F).all anyStep launch evs s)
    (h' : Path (Network F').all anyStep launch evs' s')
    (hsame : ∀ k, eventsOf Call.child k (calls F' evs') = eventsOf Call.child k (calls F evs))
    (i : ι) (i' : ι') :
    (s' i').feed.hub.node = (s i).feed.hub.node ∧ (s' i').mine.hub.node = (s i).mine.hub.node ∧
      ∀ c ∈ (s i).threads.screens, ∀ c' ∈ (s' i').threads.screens, ∀ post post' : Posts,
        c.post = some post → c'.post = some post' → post'.postId = post.postId →
          (s i).threads.hub.queue = [] → (s' i').threads.hub.queue = [] →
            c'.comments.Perm c.comments := by
  obtain ⟨db, hpath, hcopies⟩ := copies_run h
  obtain ⟨db', hpath', hcopies'⟩ := copies_run h'
  obtain ⟨-, hposts, hcomments⟩ := tables_unique hpath hpath' hsame
  refine ⟨?_, ?_, fun c hc c' hc' post post' hp hp' hid hquiet hquiet' => ?_⟩
  · rw [(hcopies' i').feed.1, hposts, (hcopies i).feed.1]
  · rw [(hcopies' i').mine.1, hposts, (hcopies i).mine.1]
  · have hshown := ((hcopies i).thread (sound_run h i) hc hp).2 hquiet
    have hshown' := ((hcopies' i').thread (sound_run h' i') hc' hp').2 hquiet'
    have hon : db'.commentsOn post' = db.commentsOn post := by
      simp only [commentsOn, hcomments, hid]
    exact (hon ▸ hshown').trans hshown.symm

/-- Two posts in the one or the other order, and a comment before or after the second. -/
theorem histories_agree_run :
    let nice : Device.Event :=
      .handleSubmitComment 0 "nice" (some "ann") "c1" "Jun 1, 2020 at 9:30 AM"
    let first : Device.Event :=
      .handleSubmit "Swift" "text" "Jun 1, 2020 at 9:00 AM" (some "ann") "p1"
    let second : Device.Event :=
      .handleSubmit "Lean" "text" "Jun 2, 2020 at 9:00 AM" (some "bob") "p2"
    let evs : List (Fin 2 × Device.Event) :=
      [(0, .mine (.signIn "a")), (1, .mine (.signIn "b")), (0, .feed .viewDidLoad), (0, first),
        (0, .feed .runMain), (0, .feed .runMain), (0, .didSelectItemAt 0), (0, nice),
        (0, .runThreads), (1, second)]
    let evs' : List (Fin 2 × Device.Event) :=
      [(1, .mine (.signIn "b")), (1, second), (0, .mine (.signIn "a")), (0, .feed .viewDidLoad),
        (0, first), (0, .feed .runMain), (0, .feed .runMain), (0, .feed .runMain),
        (0, .feed .runMain), (0, .didSelectItemAt 1), (0, nice), (0, .runThreads)]
    ∃ s s', Path (Network .ascii).all anyStep launch evs s ∧
      Path (Network .ascii).all anyStep launch evs' s' ∧
      (s' 0).threads.screens.map (fun c => c.comments.map (·.comment)) = [["nice"]] ∧
      (s' 0).feed.hub.node = (s 0).feed.hub.node ∧ (s' 0).mine.hub.node = (s 0).mine.hub.node ∧
        ∀ c ∈ (s 0).threads.screens, ∀ c' ∈ (s' 0).threads.screens, ∀ post post' : Posts,
          c.post = some post → c'.post = some post' → post'.postId = post.postId →
            (s 0).threads.hub.queue = [] → (s' 0).threads.hub.queue = [] →
              c'.comments.Perm c.comments := by
  intro nice first second evs evs'
  have hcalls : calls .ascii evs =
      [.uploadPost "Swift" "text" "Jun 1, 2020 at 9:00 AM" "ann" "a" "p1",
        .postComment "ann" "a" "nice" "p1" "c1" "Jun 1, 2020 at 9:30 AM",
        .uploadPost "Lean" "text" "Jun 2, 2020 at 9:00 AM" "bob" "b" "p2"] := by decide
  have hcalls' : calls .ascii evs' =
      [.uploadPost "Lean" "text" "Jun 2, 2020 at 9:00 AM" "bob" "b" "p2",
        .uploadPost "Swift" "text" "Jun 1, 2020 at 9:00 AM" "ann" "a" "p1",
        .postComment "ann" "a" "nice" "p1" "c1" "Jun 1, 2020 at 9:30 AM"] := by decide
  have hsame : ∀ k, eventsOf Call.child k (calls .ascii evs') =
      eventsOf Call.child k (calls .ascii evs) := by
    intro k
    rw [hcalls, hcalls']
    by_cases hsecond : .posts "p2" = k
    · subst hsecond
      decide
    · simp [eventsOf, List.filter_cons, Call.child, hsecond]
  refine ⟨_, _, .of_exec_get (by decide), .of_exec_get (by decide), by decide, ?_⟩
  exact histories_agree (.of_exec_get (by decide)) (.of_exec_get (by decide)) hsame 0 0

end Network

end DevPost
