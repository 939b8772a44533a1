import DevPost.Lib.Path
import DevPost.Spec.Records

/-! The posts node and the clients that write it. A client knows the posts its
child-added listeners told it of, in any order and arbitrarily late, and no client is
told of removals or changes. A listener of My Comments lets through the posts of the
uid it captured, and the screen sends an edit or a deletion for any post it holds. -/

namespace DevPost

open Lib FirebaseServices

structure Clients where
  posts : Table String Record := ∅
  /-- which account uploaded the post of each id generated so far -/
  uploader : Table String Uid := ∅
  /-- the snapshots of the children added so far -/
  added : List Record := []
  /-- what each client was told of, and its list, a cell or a form may still hold -/
  told : ℕ → List Posts := fun _ => []

namespace Clients

inductive Event
  /-- `PostController.uploadPost` under `userId`, with a fresh id -/
  | uploadPost (userId : Uid) (title detailPost date username postId : String)
  /-- a listener for `user` gets the `i`-th added child -/
  | childAdded (client : ℕ) (user : Uid) (i : ℕ)
  | editUserPost (client i : ℕ) (title detailPost date : String)
  | deletePost (client i : ℕ)
deriving DecidableEq

/-- Write a child; a key that was absent is an addition. -/
def put (s : Clients) (postId : String) (r : Record) : Clients :=
  { s with
    posts := s.posts.set postId r
    added := s.added ++ if s.posts.lookup postId = none then [r] else [] }

def step (s : Clients) : Event → Option Clients
  | .uploadPost userId title detailPost date username postId =>
    if s.uploader.lookup postId = none then
      some { s.put postId
          (Table.ofList (uploadPostValues title detailPost date username userId postId)) with
        uploader := s.uploader.set postId userId }
    else none
  | .childAdded client user i =>
    (s.added[i]?.bind observeUserPost).map fun post =>
      -- no account has the empty uid
      if user ≠ "" ∧ user = post.userId then
        { s with told := Function.update s.told client (s.told client ++ [post]) }
      else s
  | .editUserPost client i title detailPost date =>
    (s.told client)[i]?.map fun post =>
      s.put post.postId
        (updateChildValues s.posts post.postId (editUserPostValues title detailPost date))
  | .deletePost client i =>
    (s.told client)[i]?.map fun post => { s with posts := s.posts.erase post.postId }

end Clients

end DevPost
