import DevPost.Sanity.Posts
import DevPost.Sanity.TableView
import DevPost.Spec.Comments
import DevPost.Spec.MainFeed

/-! What the callbacks that append and sort leave of the posts and comments they are told:
the elements in the order of their dates, the first told first among those of one date. -/

namespace DevPost

open Lib

theorem orderedAscending_iff (a b : Comments) :
    orderedAscending a b = true ↔ a.date < b.date := by
  simp [orderedAscending, compare_lt_iff_lt]

theorem sort_orderedAscending (l : List Comments) :
    stableSort orderedAscending l = sortOn (·.date) l :=
  stableSort_eq_sortOn orderedAscending_iff l

theorem posts_foldl_observeUser (c : MainController) (xs : List Posts) :
    (xs.foldl MainController.observeUser c).posts = feed latest c.posts xs := by
  have h := view_foldl_eq_feed latest MainController.posts MainController.observeUser id
    (fun c x => sort_orderedDescending (c.posts ++ [x])) c xs
  rwa [List.map_id] at h

theorem myPost_foldl_fetchPostForCurrentUser (c : MyCommentsController)
    (xs : List (Posts × Layout)) :
    (xs.foldl (fun c x => c.fetchPostForCurrentUser x.1 x.2) c).myPost =
      feed latest c.myPost (xs.map (·.1)) := by
  refine view_foldl_eq_feed latest MyCommentsController.myPost _ (·.1) (fun c x => ?_) c xs
  rw [MyCommentsController.fetchPostForCurrentUser, MyCommentsController.reloadData_myPost]
  exact sort_orderedDescending _

theorem comments_foldl_fetchPosts (c : CommentsController) (xs : List Comments) :
    (xs.foldl (fun c x => c.fetchPosts (some x)) c).comments = feed (·.date) c.comments xs := by
  have h := view_foldl_eq_feed (·.date) CommentsController.comments
    (fun c x => c.fetchPosts (some x)) id
    (fun c x => sort_orderedAscending (c.comments ++ [x])) c xs
  rwa [List.map_id] at h

end DevPost
