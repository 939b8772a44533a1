import DevPost.Lib.Board
import DevPost.Lib.Hub
import DevPost.Lib.Path
import DevPost.Spec.Records

/-! The My Comments screen: `MyCommentsController`, its table view and the dialogs it
presents, on top of the posts node, the auth state and the main queue. The controller
is a child of the root tab bar and lives as long as the process. `viewDidLoad` and
every `refreshData` add an auth-state listener; each callback of one that carries a
user registers a child-added listener with that uid; neither kind is ever removed.
A step of the machine is an action of the user, a change of the auth state, a write
to the posts node from anywhere, a layout pass, or the main queue running its first
task. -/

namespace DevPost

open Lib FirebaseServices

structure MyCommentsCell where
  post : Option Posts := none
  /-- what `indexPath(for:)` returns for the cell -/
  indexPath : Option ℕ := none
deriving DecidableEq

/-- The rows a layout pass asks for, each with the cell object dequeued for it. -/
abbrev Layout := List (ℕ × ℕ)

structure MyCommentsController where
  myPost : List Posts := []
  /-- the row count the table view last obtained -/
  rows : ℕ := 0
  /-- the live cell objects -/
  cells : ℕ → MyCommentsCell := fun _ => {}

namespace MyCommentsController

def numberOfRowsInSection (c : MyCommentsController) : ℕ := c.myPost.length

/-- `cell` is the object that `dequeueReusableCell` hands out. -/
def cellForRowAt (c : MyCommentsController) (row cell : ℕ) : MyCommentsController :=
  { c with cells := Function.update c.cells cell ⟨c.myPost[row]?, some row⟩ }

/-- A layout pass: every cell leaves its row, and rows below the known count get cells. -/
def layout (c : MyCommentsController) (l : Layout) : MyCommentsController :=
  l.foldl (fun c b => if b.1 < c.rows then c.cellForRowAt b.1 b.2 else c)
    { c with cells := fun i => { c.cells i with indexPath := none } }

def reloadData (c : MyCommentsController) (l : Layout) : MyCommentsController :=
  { c with rows := c.numberOfRowsInSection }.layout l

/-- `deleteRows` of one row; the table view throws when its data source disagrees. -/
def deleteRows (c : MyCommentsController) : Option MyCommentsController :=
  if c.numberOfRowsInSection + 1 = c.rows then some { c with rows := c.numberOfRowsInSection }
  else none

/-- The closure of `fetchPostForCurrentUser`. -/
def fetchPostForCurrentUser (c : MyCommentsController) (post : Posts) (l : Layout) :
    MyCommentsController :=
  { c with myPost := sort orderedDescending (c.myPost ++ [post]) }.reloadData l

/-- The closure of `refreshData`, after it appended to the array it captured. -/
def refreshData (c : MyCommentsController) (newPosts : List Posts) (l : Layout) :
    MyCommentsController :=
  { c with myPost := newPosts }.reloadData l

/-- `deletePost(with:)` after the removal from the database; `none` is a crash. -/
def deletePost (c : MyCommentsController) (cell : ℕ) (l : Layout) : Option MyCommentsController :=
  match (c.cells cell).indexPath with
  | none => some c
  | some row =>
    if row < c.myPost.length then
      (deleteRows { c with myPost := c.myPost.eraseIdx row }).map fun c => c.reloadData l
    else none

end MyCommentsController

structure EditUserPostController where
  userPost : Option Posts

/-- What the screen presents. UIKit presents one view controller at a time. -/
inductive Presented
  /-- the confirmation of `deleteIconTapped`, which keeps the cell; `shown` only records
  the post of its row at the tap -/
  | deleteAlert (cell : ℕ) (shown : Posts)
  | editUserPost (vc : EditUserPostController)

namespace MyComments

/-- The closure a post listener runs in the end: `fetchPostForCurrentUser` appends to
`myPost`, the `r`-th `refreshData` works on the array it captured. -/
abbrev Closure := Feeder

@[match_pattern] abbrev Closure.fetchPostForCurrentUser : Closure := .append
@[match_pattern] abbrev Closure.refreshData (r : ℕ) : Closure := .rebuild r

/-- A child-added listener with the uid it captured. -/
structure Observer where
  closure : Closure
  user : Uid
deriving DecidableEq

/-- A callback of an auth-state listener. -/
structure AuthCallback where
  closure : Closure
  user : Option Uid
deriving DecidableEq

/-- A deletion or an edit that was sent: the session it was sent under, and the post the
screen took the id from. -/
structure Write where
  session : Option Uid
  post : Posts
deriving DecidableEq

end MyComments

structure MyComments where
  hub : Hub String MyComments.Observer Record Posts MyComments.AuthCallback := .idle
  session : Option Uid := none
  /-- the post ids generated so far -/
  ids : List String := []
  loaded : Bool := false
  authListeners : List MyComments.Closure := []
  refreshes : ℕ := 0
  newPosts : ℕ → List Posts := fun _ => []
  vc : MyCommentsController := {}
  presented : Option Presented := none
  /-- the writes sent so far -/
  sent : List MyComments.Write := []
  /-- the ids that `deletePost` removed both from the database and from `myPost` -/
  removed : List String := []

namespace MyComments

inductive Event
  | viewDidLoad
  | signIn (uid : Uid)
  | signOut
  | uploadPost (title detailPost date username userId postId : String)
  /-- an edit from another screen or device -/
  | remoteEdit (postId title detailPost date : String)
  /-- a deletion from another device -/
  | remoteDelete (postId : String)
  | refreshData
  | deleteIconTapped (cell : ℕ)
  | editIconTapped (cell : ℕ)
  /-- the handler of OK in the confirmation of `deleteIconTapped`, which runs once the
  confirmation is dismissed -/
  | deletePost (l : Layout)
  /-- OK in the confirmation of `handleEditUserPost`, with the texts of the form -/
  | editUserPost (title detailPost date : String)
  | cancel
  | layout (l : Layout)
  | runMain (l : Layout)
deriving DecidableEq

/-- Every auth-state listener is called with the new user. -/
def stateDidChange (s : MyComments) (user : Option Uid) : MyComments :=
  { s with
    session := user
    hub := s.hub.post (if s.session = user then [] else s.authListeners.map (⟨·, user⟩)) }

/-- A new auth-state listener is called with the current user. -/
def addStateDidChangeListener (s : MyComments) (closure : Closure) : MyComments :=
  { s with
    authListeners := s.authListeners ++ [closure]
    hub := s.hub.post [⟨closure, s.session⟩] }

/-- `present` does nothing while something is presented. -/
def present (s : MyComments) (p : Presented) : MyComments :=
  { s with presented := s.presented.or (some p) }

/-- A tap on an icon reaches a cell that is on screen. -/
def tapped (s : MyComments) (cell : ℕ) : Option Posts :=
  (s.vc.cells cell).indexPath.bind fun _ => (s.vc.cells cell).post

def deletePost (s : MyComments) (cell : ℕ) (l : Layout) : Option MyComments :=
  match (s.vc.cells cell).post with
  | none => some s
  | some post =>
    (s.vc.deletePost cell l).map fun vc => { s with
      hub := s.hub.remove post.postId
      sent := s.sent ++ [⟨s.session, post⟩]
      removed := if (s.vc.cells cell).indexPath = none then s.removed
        else post.postId :: s.removed
      vc }

def handleEditUserPost (s : MyComments) (c : EditUserPostController)
    (title detailPost date : String) : Option MyComments :=
  c.userPost.map fun post => { s with
    hub := s.hub.put post.postId
      (updateChildValues s.hub.node post.postId (editUserPostValues title detailPost date))
    sent := s.sent ++ [⟨s.session, post⟩]
    presented := none }

def runClosure (s : MyComments) (post : Posts) (l : Layout) : Closure → MyComments
  | .fetchPostForCurrentUser => { s with vc := s.vc.fetchPostForCurrentUser post l }
  | .refreshData r =>
    let newPosts := s.newPosts r ++ [post]
    { s with
      newPosts := Function.update s.newPosts r newPosts
      vc := s.vc.refreshData newPosts l }

/-- Run the first task of the main queue. -/
def runMain (s : MyComments) (l : Layout) : Option MyComments :=
  match s.hub.queue with
  | [] => none
  | .event o snapshot :: q =>
    some { s with hub := { s.hub with queue := q ++ handle observeUserPost o snapshot } }
  | .block o post :: q =>
    let s := { s with hub := { s.hub with queue := q } }
    some (if o.user = post.userId then s.runClosure post l o.closure else s)
  | .other t :: q =>
    let hub := { s.hub with queue := q }
    match t.user with
    | none => some { s with hub }
    | some user => some { s with hub := hub.observe ⟨t.closure, user⟩ }

def step (s : MyComments) : Event → Option MyComments
  | .viewDidLoad =>
    if s.loaded then none
    else some { s.addStateDidChangeListener .fetchPostForCurrentUser with loaded := true }
  | .signIn uid => some (s.stateDidChange (some uid))
  | .signOut => some (s.stateDidChange none)
  | .uploadPost title detailPost date username userId postId =>
    if postId ∈ s.ids then none
    else some { s with
      ids := postId :: s.ids
      hub := s.hub.put postId
        (Table.ofList (uploadPostValues title detailPost date username userId postId)) }
  | .remoteEdit postId title detailPost date =>
    if postId ∈ s.ids then
      some { s with
        hub := s.hub.put postId
          (updateChildValues s.hub.node postId (editUserPostValues title detailPost date)) }
    else none
  | .remoteDelete postId => some { s with hub := s.hub.remove postId }
  | .refreshData =>
    if s.loaded then
      -- `newPosts` of a new number is still empty
      some { s.addStateDidChangeListener (.refreshData s.refreshes) with
        refreshes := s.refreshes + 1 }
    else none
  | .deleteIconTapped cell => (s.tapped cell).map fun post => s.present (.deleteAlert cell post)
  | .editIconTapped cell => (s.tapped cell).map fun post => s.present (.editUserPost ⟨some post⟩)
  | .deletePost l =>
    match s.presented with
    | some (.deleteAlert cell _) => { s with presented := none }.deletePost cell l
    | _ => none
  | .editUserPost title detailPost date =>
    match s.presented with
    | some (.editUserPost vc) => s.handleEditUserPost vc title detailPost date
    | _ => none
  | .cancel => some { s with presented := none }
  | .layout l => some { s with vc := s.vc.layout l }
  | .runMain l => s.runMain l

/-- The posts stored at the moment, decoded. -/
def stored (s : MyComments) : List Posts := s.hub.node.entries.map fun e => Posts.init e.2

/-- The posts stored at the moment that `uid` wrote. -/
def storedBy (s : MyComments) (uid : Uid) : List Posts :=
  s.stored.filter fun p => uid = p.userId

/-- The visible list and the captured arrays. -/
def board (s : MyComments) : Board Posts := ⟨s.vc.myPost, s.newPosts⟩

/-- The deliveries that a listener lets through. -/
def accepted (ds : List (Observer × Posts)) : List (Closure × Posts) :=
  ds.filterMap fun d => if d.1.user = d.2.userId then some (d.1.closure, d.2) else none

/-- The posts on their way to the closures, in the order in which they will arrive. -/
def pending (s : MyComments) : List (Closure × Posts) :=
  accepted (inflight observeUserPost s.hub.queue)

end MyComments

end DevPost
