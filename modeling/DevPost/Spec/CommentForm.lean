import DevPost.Spec.Accounts
import DevPost.Spec.Database
import DevPost.Spec.PostForm

/-! The comment form: one `PostCommentController` over the database, from `viewDidLoad` on.
Like the post form it gets its username from `fetchUser`; unlike it, it is closed by the
function that writes. It is a sheet, which a swipe takes down without telling the controller.
The other screens and devices go on calling the database. -/

namespace DevPost

open Lib FirebaseServices

structure CommentForm where
  db : Database
  session : Option Uid
  post : Option Posts
  /-- the accounts whose records the form listens to -/
  listeners : List Uid := []
  queue : List PostForm.Callback := []
  user : Option String := none
  /-- the form is presented -/
  isOpen : Bool := true
  /-- the comments that the form has sent -/
  sent : List Database.Call := []
  effects : List Accounts.Effect := []

namespace CommentForm

inductive Event
  | signIn (uid : Uid)
  | signOut
  /-- a call of another screen or device -/
  | call (call : Database.Call)
  | run
  | handleSubmitComment (comment commentId date : String)
  | handleDismiss
  /-- the sheet is swiped down -/
  | swipeDown
deriving DecidableEq

/-- `handlerPostComment`, and `viewDidLoad`; a new auth-state listener is called with the
current user. -/
def viewDidLoad (db : Database) (session : Option Uid) (post : Option Posts) : CommentForm :=
  { db, session, post, queue := [.auth] }

def stateDidChange (s : CommentForm) (user : Option Uid) : CommentForm :=
  { s with
    session := user
    queue := s.queue ++ if s.session = user then [] else [.auth] }

/-- The value events of a change of the records, one for each listener to a changed one. -/
def raised (s : CommentForm) (users : Table Uid Record) : List PostForm.Callback :=
  s.listeners.filterMap fun uid =>
    if users.lookup uid = s.db.users.lookup uid then none
    else some (.value uid (users.lookup uid))

/-- The database after a call, which the listeners hear of. -/
def setDatabase (s : CommentForm) (db : Database) : CommentForm :=
  { s with db, queue := s.queue ++ s.raised db.users }

/-- The closure of `fetchUser`'s auth-state listener reads the current user itself. -/
def runAuth (s : CommentForm) : CommentForm :=
  match s.session with
  | none => s
  | some uid =>
    { s with
      listeners := s.listeners ++ [uid]
      queue := s.queue ++ [.value uid (s.db.users.lookup uid)] }

/-- The closure of `getCurrentUser`; the value listener passes on a dictionary only. -/
def runValue (s : CommentForm) (dict : Option Record) : CommentForm :=
  match dict with
  | none => s
  | some dict => { s with user := some (User.init dict).username }

def shows (s : CommentForm) (effects : List Accounts.Effect) : CommentForm :=
  { s with effects := s.effects ++ effects }

def dismissView (s : CommentForm) : CommentForm := { s.shows [.dismiss] with isOpen := false }

/-- `FirebaseServices.postComment`, with the form as `vc`. -/
def send (s : CommentForm) (user userId comment postId commentId date : String) :
    Option CommentForm :=
  if comment = "" then some (s.shows [.showError "Please enter a comment"])
  else
    let call := .postComment user userId comment postId commentId date
    (s.db.step call).map fun db =>
      { s.setDatabase db with sent := s.sent ++ [call] }.dismissView

def postComment (s : CommentForm) (comment commentId date : String) : Option CommentForm :=
  match s.session, s.user, s.post with
  | some userId, some user, some post => s.send user userId comment post.postId commentId date
  | _, _, _ => some s

def step (s : CommentForm) : Event → Option CommentForm
  | .signIn uid => some (s.stateDidChange (some uid))
  | .signOut => some (s.stateDidChange none)
  | .call call => (s.db.step call).map s.setDatabase
  | .run =>
    match s.queue with
    | [] => none
    | .auth :: q => some ({ s with queue := q }.runAuth)
    | .value _ dict :: q => some ({ s with queue := q }.runValue dict)
  | .handleSubmitComment comment commentId date =>
    if s.isOpen then s.postComment comment commentId date else none
  | .handleDismiss => if s.isOpen then some s.dismissView else none
  | .swipeDown => if s.isOpen then some { s with isOpen := false } else none

end CommentForm

end DevPost
