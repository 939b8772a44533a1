import DevPost.Lib.Path
import DevPost.Spec.Accounts

/-! The post form: one `PostController`, from `viewDidLoad` on. Its username comes from
`fetchUser`: an auth-state listener, whose callbacks register a value listener on the
record of the account that is signed in when they run; neither is ever removed. The
callbacks run in FIFO order on the main queue, and the session and the records may change
while the form is open. -/

namespace DevPost

open Lib FirebaseServices

namespace PostForm

inductive Callback
  /-- an auth-state change -/
  | auth
  /-- the value of `users/uid` -/
  | value (uid : Uid) (dict : Option Record)
deriving DecidableEq

end PostForm

open PostForm in
structure PostForm where
  users : Table Uid Record
  posts : Table String Record
  session : Option Uid
  listeners : List Uid := []
  queue : List Callback := []
  username : Option String := none
  /-- the form is presented -/
  isOpen : Bool := true
  effects : List Accounts.Effect := []
deriving DecidableEq

namespace PostForm

inductive Event
  | signIn (uid : Uid)
  | signOut
  /-- a record is written or removed by another screen or device -/
  | write (uid : Uid) (dict : Option Record)
  | run
  | handleSubmit (title detailPost date postId : String)
  | handleDismiss
deriving DecidableEq

/-- `viewDidLoad`; a new auth-state listener is called with the current user. -/
def viewDidLoad (users : Table Uid Record) (posts : Table String Record)
    (session : Option Uid) : PostForm :=
  { users, posts, session, queue := [.auth] }

def stateDidChange (s : PostForm) (user : Option Uid) : PostForm :=
  { s with
    session := user
    queue := s.queue ++ if s.session = user then [] else [.auth] }

def setRecord (s : PostForm) (uid : Uid) (dict : Option Record) : PostForm :=
  if s.users.lookup uid = dict then s
  else { s with
    users := match dict with
      | some dict => s.users.set uid dict
      | none => s.users.erase uid
    queue := s.queue ++ (s.listeners.filter (· = uid)).map fun uid => .value uid dict }

/-- The closure of `fetchUser`'s auth-state listener reads the current user itself. -/
def runAuth (s : PostForm) : PostForm :=
  match s.session with
  | none => s
  | some uid =>
    { s with
      listeners := s.listeners ++ [uid]
      queue := s.queue ++ [.value uid (s.users.lookup uid)] }

/-- The closure of the value listener passes on a dictionary only. -/
def runValue (s : PostForm) (dict : Option Record) : PostForm :=
  match dict with
  | none => s
  | some dict => { s with username := some (User.init dict).username }

def shows (s : PostForm) (effects : List Accounts.Effect) : PostForm :=
  { s with effects := s.effects ++ effects }

def uploadPost (s : PostForm) (title detailPost date postId : String) : PostForm :=
  match s.session, s.username with
  | some userId, some username =>
    { s with
      posts := s.posts.set postId
        (Table.ofList (uploadPostValues title detailPost date username userId postId)) }
  | _, _ => s

def handleSubmit (s : PostForm) (title detailPost date postId : String) : PostForm :=
  if title = "" ∨ detailPost = "" then
    s.shows [.showError "Please enter valid information to create a post"]
  else
    { ((s.shows [.showError "Posting..."]).uploadPost title detailPost date postId).shows
        [.showSuccess "Post Success", .dismiss] with
      isOpen := false }

def step (s : PostForm) : Event → Option PostForm
  | .signIn uid => some (s.stateDidChange (some uid))
  | .signOut => some (s.stateDidChange none)
  | .write uid dict => if dict = some ∅ then none else some (s.setRecord uid dict)
  | .run =>
    match s.queue with
    | [] => none
    | .auth :: q => some ({ s with queue := q }.runAuth)
    | .value _ dict :: q => some ({ s with queue := q }.runValue dict)
  | .handleSubmit title detailPost date postId =>
    -- a new `UUID` is no key yet
    if s.isOpen ∧ s.posts.lookup postId = none then
      some (s.handleSubmit title detailPost date postId)
    else none
  | .handleDismiss => if s.isOpen then some { s with isOpen := false } else none

end PostForm

end DevPost
