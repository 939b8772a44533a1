import DevPost.Lib.Hub
import DevPost.Lib.Path
import DevPost.Lib.Sorting
import DevPost.Spec.Records

/-! The comment threads: the screens `CommentsController` opened so far, on top of the
comments node and the main queue. Each screen with a post registers a child-added listener
that is never removed and hears of the comments on all posts. The closure of
`fetchComments` runs in the handler of the event itself. -/

namespace DevPost

open Lib FirebaseServices

/-- What a key of the comments node can hold. -/
inductive Child
  | dict (record : Record)
  | leaf (value : Value)
deriving DecidableEq

/-- `snapshot.value as? [String:Any]`, decoded -/
def Child.comments : Child → Option Comments
  | .dict record => some (Comments.init record)
  | .leaf _ => none

/-- `$0.date.compare($1.date) == .orderedAscending` -/
def orderedAscending (a b : Comments) : Bool := compare a.date b.date = .lt

structure CommentsController where
  post : Option Posts
  comments : List Comments := []
  /-- the row count the table view last obtained -/
  rows : ℕ := 0
deriving DecidableEq

namespace CommentsController

def numberOfRowsInSection (c : CommentsController) : ℕ := c.comments.length

def reloadData (c : CommentsController) : CommentsController :=
  { c with rows := c.numberOfRowsInSection }

/-- The closure of `fetchPosts`. -/
def fetchPosts (c : CommentsController) (comment : Option Comments) : CommentsController :=
  match comment with
  | none => c
  | some comment =>
    { c with comments := stableSort orderedAscending (c.comments ++ [comment]) }.reloadData

/-- The handler of `fetchComments`. -/
def fetchComments (c : CommentsController) (child : Child) : CommentsController :=
  match child.comments with
  | none => c
  | some comment =>
    c.fetchPosts (if c.post.map (·.postId) = some comment.postId then some comment else none)

end CommentsController

/-- The screens are numbered in the order in which they were presented; there is no other work
on the main queue. -/
structure Threads where
  hub : Hub String ℕ Child Comments Empty
  screens : List CommentsController := []

namespace Threads

inductive Event
  /-- `didSelectItemAt` of the main feed, and `viewDidLoad` -/
  | present (post : Option Posts)
  /-- Submit in the form that the Comment button of a screen presented, with the uid that is
  signed in and the username that `fetchUser` delivered to the form -/
  | handleSubmitComment (screen : ℕ) (userId : Option Uid) (comment : String)
      (user : Option String) (commentId date : String)
  /-- a comment from another device -/
  | postComment (user userId comment postId commentId date : String)
  | runMain
deriving DecidableEq

/-- The app starts on any content of the node. -/
def launch (node : Table String Child) : Threads := { hub := ⟨node, [], []⟩ }

/-- `FirebaseServices.postComment`; a new `UUID` is no key yet. -/
def postComment (s : Threads) (user userId comment postId commentId date : String) :
    Option Threads :=
  if comment = "" then some s
  else if s.hub.node.lookup commentId = none then
    some { s with
      hub := s.hub.put commentId
        (.dict (Table.ofList (postCommentValues user userId comment postId commentId date))) }
  else none

def step (s : Threads) : Event → Option Threads
  | .present post =>
    some { s with
      hub := if post = none then s.hub else s.hub.observe s.screens.length
      screens := s.screens ++ [{ post }] }
  | .handleSubmitComment screen userId comment user commentId date =>
    s.screens[screen]?.bind fun c =>
      match userId, user, c.post with
      | some userId, some user, some post =>
        s.postComment user userId comment post.postId commentId date
      | _, _, _ => some s
  | .postComment user userId comment postId commentId date =>
    s.postComment user userId comment postId commentId date
  | .runMain =>
    match s.hub.queue with
    | .event screen child :: q =>
      some { s with
        hub := { s.hub with queue := q }
        screens := s.screens.modify screen (·.fetchComments child) }
    | _ => none

/-- The comments stored at the moment, decoded. -/
def stored (s : Threads) : List Comments := s.hub.node.entries.filterMap (·.2.comments)

end Threads

end DevPost
