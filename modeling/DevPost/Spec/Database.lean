import DevPost.Lib.Path
import DevPost.Spec.Records

/-! The whole database under the writes of the app. A `Call` is a call of
`FirebaseServices`, or of the database itself, by any client; a `Submission` is a button of
one of the screens, with whatever was typed, and makes at most one call. Auth and UUID
give every account, post and comment an id of its own. -/

namespace DevPost

open Lib FirebaseServices

structure Database where
  users : Table Uid Record := ∅
  posts : Table String Record := ∅
  comments : Table String Record := ∅
  /-- the ids given out so far -/
  uids : List Uid := []
  postIds : List String := []
  commentIds : List String := []
deriving DecidableEq

namespace Database

inductive Call
  /-- `createUser` once Auth has accepted it -/
  | createUser (email username : String) (uid : Uid)
  | updateUserInfo (uid : Uid) (username title repo : String)
  | deleteUser (uid : Uid)
  | uploadPost (title detailPost date username userId postId : String)
  | editUserPost (postId title detailPost date : String)
  /-- `removeValue` in `deletePost(with:)` -/
  | deletePost (postId : String)
  | postComment (user userId comment postId commentId date : String)
deriving DecidableEq

def step (s : Database) : Call → Option Database
  | .createUser email username uid =>
    if uid ∈ s.uids then none
    else some { s with
      users := s.users.set uid (Table.ofList (createUserValues email username))
      uids := uid :: s.uids }
  | .updateUserInfo uid username title repo =>
    some { s with
      users := s.users.set uid
        (updateChildValues s.users uid (updateUserInfoValues username title repo)) }
  | .deleteUser uid => some { s with users := s.users.erase uid }
  | .uploadPost title detailPost date username userId postId =>
    if postId ∈ s.postIds then none
    else some { s with
      posts := s.posts.set postId
        (Table.ofList (uploadPostValues title detailPost date username userId postId))
      postIds := postId :: s.postIds }
  | .editUserPost postId title detailPost date =>
    some { s with
      posts := s.posts.set postId
        (updateChildValues s.posts postId (editUserPostValues title detailPost date)) }
  | .deletePost postId => some { s with posts := s.posts.erase postId }
  | .postComment user userId comment postId commentId date =>
    if comment = "" then some s
    else if commentId ∈ s.commentIds then none
    else some { s with
      comments := s.comments.set commentId
        (Table.ofList (postCommentValues user userId comment postId commentId date))
      commentIds := commentId :: s.commentIds }

/-- A button, with the texts of the form and what the screen knows: who is signed in, the
username it was told, the post it was presented with. -/
inductive Submission
  | handleSignup (email password username : String) (uid : Uid)
  /-- OK after Update Profile -/
  | handleUpdateProfile (currentUser : Option Uid) (username title repo : String)
  /-- OK in the dialog of `handleDeleteAccount` -/
  | handleDeleteAccount (currentUser : Option Uid)
  | handleSubmit (currentUser : Option Uid) (user : Option String)
      (title detailPost date postId : String)
  /-- OK after Edit Post -/
  | handleEditUserPost (userPost : Option Posts) (title detailPost date : String)
  /-- OK in the dialog of `deleteIconTapped` -/
  | deletePost (post : Option Posts)
  | handleSubmitComment (currentUser : Option Uid) (user : Option String) (post : Option Posts)
      (comment commentId date : String)
deriving DecidableEq

/-- The call that a submission makes, if the screen's own checks let it through. -/
def Submission.call : Submission → Option Call
  | .handleSignup email password username uid =>
    if email = "" ∨ password = "" ∨ username = "" then none
    else some (.createUser email username uid)
  | .handleUpdateProfile currentUser username title repo =>
    if username = "" then none
    else currentUser.map fun uid => .updateUserInfo uid username title repo
  | .handleDeleteAccount currentUser => currentUser.map .deleteUser
  | .handleSubmit currentUser user title detailPost date postId =>
    if title = "" ∨ detailPost = "" then none
    else currentUser.bind fun userId => user.map fun username =>
      .uploadPost title detailPost date username userId postId
  | .handleEditUserPost userPost title detailPost date =>
    userPost.map fun post => .editUserPost post.postId title detailPost date
  | .deletePost post => post.map fun post => .deletePost post.postId
  | .handleSubmitComment currentUser user post comment commentId date =>
    currentUser.bind fun userId => user.bind fun user => post.map fun post =>
      .postComment user userId comment post.postId commentId date

def submit (s : Database) (x : Submission) : Option Database :=
  match x.call with
  | none => some s
  | some call => s.step call

end Database

end DevPost
