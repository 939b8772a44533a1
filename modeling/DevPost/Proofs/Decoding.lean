import DevPost.Spec.Database

/-! What the decoders read back. A record starts with its creating write and is never
created again, since its id is not given out again; every other write to it merges all the
fields that can change. So a decoded record has the fields of the creating write, but for
those of the last update, which are all there. -/

namespace DevPost

open Lib FirebaseServices

namespace Database

variable {s₀ s₁ s s' : Database} {c : Call}

/-- The call does not delete the record of this id. -/
def Leaves (id : String) (_ : Database) : Call → Prop
  | .deleteUser uid => uid ≠ id
  | .deletePost postId => postId ≠ id
  | _ => True

instance (id : String) (s : Database) (c : Call) : Decidable (Leaves id s c) := by
  unfold Leaves
  split <;> infer_instance

/-- The title, the text and the date that a call writes into a post. -/
def Call.edit (id : String) : Call → Option (String × String × String)
  | .editUserPost postId title detailPost date =>
    if postId = id then some (title, detailPost, date) else none
  | _ => none

/-- The username, the title and the repo that a call writes into a user. -/
def Call.update (id : Uid) : Call → Option (String × String × String)
  | .updateUserInfo uid username title repo =>
    if uid = id then some (username, title, repo) else none
  | _ => none

/-- The last of the updates that the calls make. -/
def last (update : Call → Option (String × String × String)) (cs : List Call) :
    Option (String × String × String) :=
  (cs.filterMap update).getLast?

def edited (post : Posts) : Option (String × String × String) → Posts
  | none => post
  | some (title, detailPost, date) => { post with title, detailPost, date := "Updated on " ++ date }

def updated (user : User) : Option (String × String × String) → User
  | none => user
  | some (username, title, repo) => { user with username, title, repo }

theorem last_append (update : Call → Option (String × String × String)) (cs : List Call) (c : Call) :
    last update (cs ++ [c]) = (update c).or (last update cs) := by
  rw [last, List.filterMap_append, List.filterMap_cons, List.filterMap_nil]
  cases update c <;> simp [last]

theorem lookup_posts_step {id : String} {dict : Record} (h : step s c = some s')
    (hok : Leaves id s c) (hid : id ∈ s.postIds) (hpost : s.posts.lookup id = some dict) :
    id ∈ s'.postIds ∧ ∃ dict', s'.posts.lookup id = some dict' ∧
      Posts.init dict' = edited (Posts.init dict) (c.edit id) := by
  cases c with
  | uploadPost title detailPost date username userId postId =>
    simp only [step] at h
    split_ifs at h with hnew
    cases h
    have hne : id ≠ postId := fun he => hnew (he ▸ hid)
    exact ⟨List.mem_cons_of_mem _ hid, dict, by simp [Table.lookup_set_of_ne _ _ hne, hpost], rfl⟩
  | editUserPost postId title detailPost date =>
    cases h
    refine ⟨hid, ?_⟩
    by_cases he : postId = id
    · subst he
      refine ⟨_, Table.lookup_set_self .., ?_⟩
      simp [updateChildValues, hpost, init_editUserPost, Call.edit, edited]
    · exact ⟨dict, by simp [Table.lookup_set_of_ne _ _ (Ne.symm he), hpost],
        by simp [Call.edit, he, edited]⟩
  | deletePost postId =>
    cases h
    have hne : id ≠ postId := Ne.symm hok
    exact ⟨hid, dict, by simp [Table.lookup_erase_of_ne _ hne, hpost], rfl⟩
  | createUser =>
    simp only [step] at h
    split_ifs at h
    cases h
    exact ⟨hid, dict, hpost, rfl⟩
  | postComment =>
    simp only [step] at h
    split_ifs at h <;> cases h <;> exact ⟨hid, dict, hpost, rfl⟩
  | updateUserInfo | deleteUser => cases h; exact ⟨hid, dict, hpost, rfl⟩

theorem lookup_users_step {id : Uid} {dict : Record} (h : step s c = some s')
    (hok : Leaves id s c) (hid : id ∈ s.uids) (huser : s.users.lookup id = some dict) :
    id ∈ s'.uids ∧ ∃ dict', s'.users.lookup id = some dict' ∧
      User.init dict' = updated (User.init dict) (c.update id) := by
  cases c with
  | createUser email username uid =>
    simp only [step] at h
    split_ifs at h with hnew
    cases h
    have hne : id ≠ uid := fun he => hnew (he ▸ hid)
    exact ⟨List.mem_cons_of_mem _ hid, dict, by simp [Table.lookup_set_of_ne _ _ hne, huser], rfl⟩
  | updateUserInfo uid username title repo =>
    cases h
    refine ⟨hid, ?_⟩
    by_cases he : uid = id
    · subst he
      refine ⟨_, Table.lookup_set_self .., ?_⟩
      simp [updateChildValues, huser, init_updateUserInfo, Call.update, updated]
    · exact ⟨dict, by simp [Table.lookup_set_of_ne _ _ (Ne.symm he), huser],
        by simp [Call.update, he, updated]⟩
  | deleteUser uid =>
    cases h
    have hne : id ≠ uid := Ne.symm hok
    exact ⟨hid, dict, by simp [Table.lookup_erase_of_ne _ hne, huser], rfl⟩
  | uploadPost =>
    simp only [step] at h
    split_ifs at h
    cases h
    exact ⟨hid, dict, huser, rfl⟩
  | postComment =>
    simp only [step] at h
    split_ifs at h <;> cases h <;> exact ⟨hid, dict, huser, rfl⟩
  | editUserPost | deletePost => cases h; exact ⟨hid, dict, huser, rfl⟩

/-- Nothing is ever written to a comment again. -/
theorem lookup_comments_step {id : String} {dict : Record} (h : step s c = some s')
    (hid : id ∈ s.commentIds) (hcomment : s.comments.lookup id = some dict) :
    id ∈ s'.commentIds ∧ s'.comments.lookup id = some dict := by
  cases c with
  | postComment user userId comment postId commentId date =>
    simp only [step] at h
    split_ifs at h with hempty hnew
    · cases h; exact ⟨hid, hcomment⟩
    · cases h
      have hne : id ≠ commentId := fun he => hnew (he ▸ hid)
      exact ⟨List.mem_cons_of_mem _ hid, by simp [Table.lookup_set_of_ne _ _ hne, hcomment]⟩
  | createUser | uploadPost =>
    simp only [step] at h
    split_ifs at h
    cases h
    exact ⟨hid, hcomment⟩
  | updateUserInfo | deleteUser | editUserPost | deletePost => cases h; exact ⟨hid, hcomment⟩

theorem edited_edited (post : Posts) (x y : Option (String × String × String)) :
    edited (edited post y) x = edited post (x.or y) := by
  cases x <;> cases y <;> rfl

theorem updated_updated (user : User) (x y : Option (String × String × String)) :
    updated (updated user y) x = updated user (x.or y) := by
  cases x <;> cases y <;> rfl

/-- A post is the post it was before a run, with the last edit of the run. -/
theorem run_posts {id : String} {dict : Record} {cs : List Call} (h : Path step (Leaves id) s₁ cs s)
    (hid : id ∈ s₁.postIds) (hpost : s₁.posts.lookup id = some dict) :
    id ∈ s.postIds ∧ ∃ dict', s.posts.lookup id = some dict' ∧
      Posts.init dict' = edited (Posts.init dict) (last (·.edit id) cs) := by
  induction h with
  | nil => exact ⟨hid, dict, hpost, rfl⟩
  | snoc _ hok hs ih =>
    obtain ⟨hid, dict₁, hpost, h₁⟩ := ih
    obtain ⟨hid, dict₂, hpost, h₂⟩ := lookup_posts_step hs hok hid hpost
    exact ⟨hid, dict₂, hpost, by rw [h₂, h₁, edited_edited, last_append]⟩

theorem run_users {id : Uid} {dict : Record} {cs : List Call} (h : Path step (Leaves id) s₁ cs s)
    (hid : id ∈ s₁.uids) (huser : s₁.users.lookup id = some dict) :
    id ∈ s.uids ∧ ∃ dict', s.users.lookup id = some dict' ∧
      User.init dict' = updated (User.init dict) (last (·.update id) cs) := by
  induction h with
  | nil => exact ⟨hid, dict, huser, rfl⟩
  | snoc _ hok hs ih =>
    obtain ⟨hid, dict₁, huser, h₁⟩ := ih
    obtain ⟨hid, dict₂, huser, h₂⟩ := lookup_users_step hs hok hid huser
    exact ⟨hid, dict₂, huser, by rw [h₂, h₁, updated_updated, last_append]⟩

/-- Each kind of record, after its creating write and any calls that do not delete it: the
decoder gives back what the creating write had, with the last update in one piece. -/
theorem decodes_last :
    (∀ s₀ s₁ s cs title detailPost date username userId postId,
      step s₀ (.uploadPost title detailPost date username userId postId) = some s₁ →
      Path step (Leaves postId) s₁ cs s →
      (s.posts.lookup postId).map Posts.init =
        some (edited ⟨title, detailPost, date, username, userId, postId⟩
          (last (·.edit postId) cs))) ∧
    (∀ s₀ s₁ s cs user userId comment postId commentId date, comment ≠ "" →
      step s₀ (.postComment user userId comment postId commentId date) = some s₁ →
      Path step anyStep s₁ cs s →
      (s.comments.lookup commentId).map Comments.init =
        some ⟨user, comment, date, postId, userId, commentId⟩) ∧
    ∀ s₀ s₁ s cs email username uid, step s₀ (.createUser email username uid) = some s₁ →
      Path step (Leaves uid) s₁ cs s →
      (s.users.lookup uid).map User.init =
        some (updated ⟨username, email, "", ""⟩ (last (·.update uid) cs)) := by
  refine ⟨?_, ?_, ?_⟩
  · intro s₀ s₁ s cs title detailPost date username userId postId h₁ h
    simp only [step] at h₁
    split_ifs at h₁
    cases h₁
    obtain ⟨-, dict, hpost, hinit⟩ := run_posts h List.mem_cons_self (Table.lookup_set_self ..)
    rw [hpost, Option.map_some, hinit, init_uploadPost]
  · intro s₀ s₁ s cs user userId comment postId commentId date hne h₁ h
    simp only [step, if_neg hne] at h₁
    split_ifs at h₁
    cases h₁
    have hs := h.invariant
      (fun s => commentId ∈ s.commentIds ∧ s.comments.lookup commentId =
        some (Table.ofList (postCommentValues user userId comment postId commentId date)))
      ⟨List.mem_cons_self, Table.lookup_set_self ..⟩
      fun _ _ _ hs _ h => lookup_comments_step h hs.1 hs.2
    rw [hs.2, Option.map_some, init_postComment]
  · intro s₀ s₁ s cs email username uid h₁ h
    simp only [step] at h₁
    split_ifs at h₁
    cases h₁
    obtain ⟨-, dict, huser, hinit⟩ := run_users h List.mem_cons_self (Table.lookup_set_self ..)
    rw [huser, Option.map_some, hinit, init_createUser]

/-- A post with two edits, a comment on it and a user with one update, between each other. -/
theorem decodes_last_run :
    ∃ s₁ s, step {} (.uploadPost "Swift" "text" "Jun 1, 2020 at 9:00 AM" "ann" "a" "p1") = some s₁ ∧
      Path step (Leaves "p1") s₁
        [.createUser "ann@dev.io" "ann" "a", .editUserPost "p1" "Lean" "text" "Jun 2, 2020 at 9:00 AM",
          .postComment "bob" "b" "good" "p1" "c1" "Jun 3, 2020 at 9:00 AM",
          .updateUserInfo "a" "ann" "dev" "git", .editUserPost "p2" "" "" "",
          .editUserPost "p1" "Lean 4" "more" "Jun 4, 2020 at 9:00 AM"] s ∧
      (s.posts.lookup "p1").map Posts.init =
        some ⟨"Lean 4", "more", "Updated on Jun 4, 2020 at 9:00 AM", "ann", "a", "p1"⟩ :=
  ⟨_, _, rfl, .of_exec_get (by decide),
    decodes_last.1 {} _ _ _ _ _ _ _ _ _ rfl (.of_exec_get (by decide))⟩

end Database

end DevPost
