import DevPost.Spec.Comments
import DevPost.Spec.MainFeed
import DevPost.Spec.MyComments
import Mathlib.Data.Rat.Defs

/-! The row, height and selection callbacks of the three lists, and the collection view of the
main feed. A callback subscripts an array with the row it is asked for; `none` is the crash of
a subscript out of range. Lengths are exact. -/

namespace DevPost

open Lib

/-- What the callbacks measure: the width of the screen, and the height of the rectangle in
which `boundingRect` sets a text, given a size. -/
structure Measures where
  width : ℚ
  boundingRect : ℚ × ℚ → String → ℚ

/-- The height of `estimateFrameForText(text:)`, which the three screens share. -/
def Measures.estimateFrameForText (M : Measures) (text : String) : ℚ :=
  M.boundingRect (M.width, 1000) text

namespace MainController

/-- The post of the cell. -/
def cellForItemAt (c : MainController) (item : ℕ) : Option Posts :=
  if c.showResult then c.filteredPosts[item]? else c.posts[item]?

def sizeForItemAt (M : Measures) (c : MainController) (item : ℕ) : Option (ℚ × ℚ) :=
  let padding := 60
  if c.showResult then
    c.filteredPosts[item]?.map fun p => (M.width, M.estimateFrameForText p.detailPost + padding)
  else c.posts[item]?.map fun p => (M.width, M.estimateFrameForText p.detailPost + padding)

/-- The screen that a tap on an item presents. -/
def didSelectItemAt (c : MainController) (item : ℕ) : Option CommentsController :=
  if c.showResult then c.filteredPosts[item]?.map fun p => { post := some p }
  else c.posts[item]?.map fun p => { post := some p }

end MainController

def MyCommentsController.heightForRowAt (M : Measures) (c : MyCommentsController) (row : ℕ) :
    Option ℚ :=
  let padding := 60
  c.myPost[row]?.map fun p => M.estimateFrameForText p.detailPost + padding

namespace CommentsController

/-- The comment of the cell. -/
def cellForRowAt (c : CommentsController) (row : ℕ) : Option Comments := c.comments[row]?

def heightForRowAt (M : Measures) (c : CommentsController) (row : ℕ) : Option ℚ :=
  let padding := 30
  c.comments[row]?.map fun x => M.estimateFrameForText x.comment + padding

end CommentsController

/-- The steps of the feed that call `reloadData`. -/
def Feed.reloads (s : Feed) : Feed.Event → Bool
  | .textDidChange _ => true
  | .runMain =>
    match s.hub.queue with
    | .block .. :: _ => true
    | _ => false
  | _ => false

/-- The feed with the cells of its collection view. -/
structure FeedView where
  feed : Feed := {}
  /-- the post that the row callback put into the cell of an item since the last reload -/
  cells : ℕ → Option Posts := fun _ => none

namespace FeedView

inductive Event
  | feed (e : Feed.Event)
  /-- the items a layout pass asks for -/
  | layout (items : List ℕ)
deriving DecidableEq

def cellForItemAt (s : FeedView) (item : ℕ) : FeedView :=
  { s with cells := Function.update s.cells item (s.feed.main.cellForItemAt item) }

/-- A layout pass: items below the known count get cells. -/
def layout (s : FeedView) (items : List ℕ) : FeedView :=
  items.foldl (fun s item => if item < s.feed.main.rows then s.cellForItemAt item else s) s

/-- A reload discards the cells. -/
def step (F : Foundation) (s : FeedView) : Event → Option FeedView
  | .feed e =>
    (s.feed.step F e).map fun feed =>
      { feed, cells := if s.feed.reloads e then fun _ => none else s.cells }
  | .layout items => some (s.layout items)

end FeedView

end DevPost
