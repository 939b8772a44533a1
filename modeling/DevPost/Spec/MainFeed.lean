import DevPost.Lib.Board
import DevPost.Lib.Hub
import DevPost.Lib.Path
import DevPost.Spec.Records

/-! The main feed: `MainController` on top of the posts node and the main queue.
`observeUser`, called once by `viewDidLoad`, and every `refreshData` register a
child-added listener that is never removed. Posts are written by this device or
by any other; an event of the machine is one such write, one action of the user,
or the main queue running its first task. -/

namespace DevPost

open Lib FirebaseServices

/-- The closure a listener of the feed runs: the one of `observeUser` appends to
`posts`, the one of the `r`-th `refreshData` works on the array it captured. -/
abbrev Closure := Feeder

@[match_pattern] abbrev Closure.observeUser : Closure := .append
@[match_pattern] abbrev Closure.refreshData (r : ℕ) : Closure := .rebuild r

structure MainController where
  posts : List Posts := []
  filteredPosts : List Posts := []
  showResult : Bool := false
  /-- the row count the collection view last obtained -/
  rows : ℕ := 0
deriving DecidableEq

namespace MainController

def numberOfItemsInSection (c : MainController) : ℕ :=
  if c.showResult then c.filteredPosts.length else c.posts.length

/-- What `cellForItemAt` takes the posts from. -/
def shown (c : MainController) : List Posts := if c.showResult then c.filteredPosts else c.posts

def reloadData (c : MainController) : MainController :=
  { c with rows := c.numberOfItemsInSection }

def observeUser (c : MainController) (post : Posts) : MainController :=
  { c with posts := sort orderedDescending (c.posts ++ [post]) }.reloadData

/-- The closure of `refreshData`, after it appended to the array it captured. -/
def refreshData (c : MainController) (newPosts : List Posts) : MainController :=
  { c with posts := newPosts }.reloadData

def textDidChange (F : Foundation) (c : MainController) (searchText : String) : MainController :=
  { c with
    filteredPosts := c.posts.filter fun p =>
      F.hasRange (F.lowercased p.title) (F.lowercased searchText)
    showResult := searchText ≠ "" }.reloadData

end MainController

/-- The feed of one device. The other work on the main queue is the registration that
`refreshData` dispatches, with the number of its captured array. -/
structure Feed where
  hub : Hub String Closure Record Posts ℕ := .idle
  /-- the post ids generated so far -/
  ids : List String := []
  loaded : Bool := false
  refreshes : ℕ := 0
  newPosts : ℕ → List Posts := fun _ => []
  main : MainController := {}

namespace Feed

inductive Event
  | viewDidLoad
  | uploadPost (title detailPost date username userId postId : String)
  | editUserPost (postId title detailPost date : String)
  | deletePost (postId : String)
  | refreshData
  | textDidChange (searchText : String)
  | runMain
deriving DecidableEq

def runClosure (s : Feed) (post : Posts) : Closure → Feed
  | .observeUser => { s with main := s.main.observeUser post }
  | .refreshData r =>
    let newPosts := s.newPosts r ++ [post]
    { s with
      newPosts := Function.update s.newPosts r newPosts
      main := s.main.refreshData newPosts }

/-- Run the first task of the main queue. -/
def runMain (s : Feed) : Option Feed :=
  match s.hub.queue with
  | [] => none
  | .event l snapshot :: q =>
    some { s with hub := { s.hub with queue := q ++ handle observeUserPost l snapshot } }
  | .block l post :: q => some ({ s with hub := { s.hub with queue := q } }.runClosure post l)
  | .other r :: q =>
    some { s with hub := ({ s.hub with queue := q }).observe (.refreshData r) }

def step (F : Foundation) (s : Feed) : Event → Option Feed
  | .viewDidLoad =>
    if s.loaded then none
    else some { s with loaded := true, hub := s.hub.observe .observeUser }
  | .uploadPost title detailPost date username userId postId =>
    if postId ∈ s.ids then none
    else some { s with
      ids := postId :: s.ids
      hub := s.hub.put postId
        (Table.ofList (uploadPostValues title detailPost date username userId postId)) }
  | .editUserPost postId title detailPost date =>
    -- a client edits a post it has seen, which may be gone by now
    if postId ∈ s.ids then
      some { s with
        hub := s.hub.put postId
          (updateChildValues s.hub.node postId (editUserPostValues title detailPost date)) }
    else none
  | .deletePost postId => some { s with hub := s.hub.remove postId }
  | .refreshData =>
    if s.loaded then
      -- `newPosts` of a new number is still empty
      some { s with refreshes := s.refreshes + 1, hub := s.hub.post [s.refreshes] }
    else none
  | .textDidChange searchText => some { s with main := s.main.textDidChange F searchText }
  | .runMain => s.runMain

/-- The posts stored at the moment, decoded. -/
def stored (s : Feed) : List Posts := s.hub.node.entries.map fun e => Posts.init e.2

/-- The visible list and the captured arrays. -/
def board (s : Feed) : Board Posts := ⟨s.main.posts, s.newPosts⟩

/-- The posts on their way to the closures, in the order in which they will arrive. -/
def pending (s : Feed) : List (Closure × Posts) := inflight observeUserPost s.hub.queue

end Feed

/-- The feed and the text in its search bar. -/
structure SearchedFeed where
  feed : Feed := {}
  searchText : String := ""

namespace SearchedFeed

def step (F : Foundation) (s : SearchedFeed) (e : Feed.Event) : Option SearchedFeed :=
  (s.feed.step F e).map fun feed => { s with
    feed
    searchText :=
      match e with
      | .textDidChange searchText => searchText
      | _ => s.searchText }

end SearchedFeed

end DevPost
