import DevPost.Lib.Peers
import DevPost.Spec.Comments
import DevPost.Spec.DataSource
import DevPost.Spec.Database
import DevPost.Spec.MyComments

/-! Devices that share the database. A device runs the main feed, My Comments and the comment
threads it opened; its user is the one My Comments hears of. A button that writes makes one
call, which every screen of every device hears of: the tables change at once, the events wait
on each screen's queue. How the queues of one device are interleaved is left open. -/

namespace DevPost

open Lib FirebaseServices

namespace Database.Call

/-- What the main feed hears of a call. -/
def feed : Call → Option Feed.Event
  | .uploadPost title detailPost date username userId postId =>
    some (.uploadPost title detailPost date username userId postId)
  | .editUserPost postId title detailPost date => some (.editUserPost postId title detailPost date)
  | .deletePost postId => some (.deletePost postId)
  | _ => none

/-- What My Comments hears of a call that it did not make. -/
def mine : Call → Option MyComments.Event
  | .uploadPost title detailPost date username userId postId =>
    some (.uploadPost title detailPost date username userId postId)
  | .editUserPost postId title detailPost date => some (.remoteEdit postId title detailPost date)
  | .deletePost postId => some (.remoteDelete postId)
  | _ => none

/-- What the threads hear of a call that they did not make. -/
def threads : Call → Option Threads.Event
  | .postComment user userId comment postId commentId date =>
    some (.postComment user userId comment postId commentId date)
  | _ => none

end Database.Call

structure Device where
  feed : Feed := {}
  mine : MyComments := {}
  threads : Threads := {hub := .idle}

namespace Device

inductive Event
  | feed (e : Feed.Event)
  | mine (e : MyComments.Event)
  /-- a tap on an item of the main feed -/
  | didSelectItemAt (item : ℕ)
  /-- the main queue runs an event of a thread -/
  | runThreads
  /-- Submit in the post form, with the username that `fetchUser` delivered to it -/
  | handleSubmit (title detailPost date : String) (user : Option String) (postId : String)
  /-- Submit in the comment form of a thread, with the username delivered to it -/
  | handleSubmitComment (screen : ℕ) (comment : String) (user : Option String)
      (commentId date : String)
  /-- a call of another device -/
  | call (call : Database.Call)
deriving DecidableEq

/-- The button behind an event, with what its screen knows. -/
def submission (d : Device) : Event → Option Database.Submission
  | .handleSubmit title detailPost date user postId =>
    some (.handleSubmit d.mine.session user title detailPost date postId)
  | .mine (.deletePost _) =>
    match d.mine.presented with
    | some (.deleteAlert cell _) => some (.deletePost (d.mine.vc.cells cell).post)
    | _ => none
  | .mine (.editUserPost title detailPost date) =>
    match d.mine.presented with
    | some (.editUserPost vc) => some (.handleEditUserPost vc.userPost title detailPost date)
    | _ => none
  | .handleSubmitComment screen comment user commentId date =>
    d.threads.screens[screen]?.map fun c =>
      .handleSubmitComment d.mine.session user c.post comment commentId date
  | _ => none

/-- The call behind an event. -/
def call (d : Device) : Event → Option Database.Call
  | .call call => some call
  | e => (d.submission e).bind (·.call)

/-- The screens hear of calls from the database only; the users records are not theirs. -/
def Event.admissible : Event → Bool
  | .feed (.uploadPost ..) | .feed (.editUserPost ..) | .feed (.deletePost _) => false
  | .mine (.uploadPost ..) | .mine (.remoteEdit ..) | .mine (.remoteDelete _) => false
  | .call (.createUser ..) | .call (.updateUserInfo ..) | .call (.deleteUser _) => false
  | _ => true

/-- Only an item that the collection view has a row for can be tapped, and a subscript out of
range is a crash. -/
def canSelect (d : Device) : Event → Bool
  | .didSelectItemAt item =>
    item < d.feed.main.rows ∧ d.feed.main.didSelectItemAt item ≠ none
  | _ => true

def feedEvent (d : Device) : Event → Option Feed.Event
  | .feed e => some e
  | e => (d.call e).bind (·.feed)

def mineEvent (d : Device) : Event → Option MyComments.Event
  | .mine e => some e
  | e => (d.call e).bind (·.mine)

def threadsEvent (d : Device) : Event → Option Threads.Event
  | .didSelectItemAt item => (d.feed.main.didSelectItemAt item).map fun c => .present c.post
  | .runThreads => some .runMain
  | .handleSubmitComment screen comment user commentId date =>
    some (.handleSubmitComment screen d.mine.session comment user commentId date)
  | e => (d.call e).bind (·.threads)

/-- Each screen takes its part of an event. -/
def step (F : Foundation) (d : Device) (e : Event) : Option Device :=
  if e.admissible ∧ d.canSelect e then
    (follow (Feed.step F) d.feed (d.feedEvent e)).bind fun feed =>
      (follow MyComments.step d.mine (d.mineEvent e)).bind fun mine =>
        (follow Threads.step d.threads (d.threadsEvent e)).map fun threads =>
          { feed, mine, threads }
  else none

end Device

/-- The other devices hear of a device's calls. -/
def Network (F : Foundation) : Peer Device Device.Event where
  step := Device.step F
  echo d e := (d.call e).map .call

end DevPost
