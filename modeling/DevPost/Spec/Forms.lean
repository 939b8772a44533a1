import DevPost.Lib.Session
import DevPost.Spec.Records

/-! The two screens that edit a record that is there. Each fills its text fields once, in
`viewDidLoad`, from the copy it was presented with, and on OK writes all of them. -/

namespace DevPost

open Lib FirebaseServices

inductive ProfileField
  | username
  | title
  | repo
deriving DecidableEq

inductive PostField
  | title
  | detailPost
deriving DecidableEq

/-- `EditProfileController`, on the record of the account. -/
def editProfileController : Form Record ProfileField String Unit where
  read dict
    | .username => (User.init dict).username
    | .title => (User.init dict).title
    | .repo => (User.init dict).repo
  write dict texts _ :=
    dict.merge (updateUserInfoValues (texts .username) (texts .title) (texts .repo))
  blank _ := ""
  accepts _ texts := texts .username ≠ ""
  read_write dict texts _ := by
    funext f
    simp only [User.init, updateUserInfoValues, str_merge]
    cases f <;> rfl

/-- `EditUserPostController`, on the record of a post; the date is that of the edit. -/
def editUserPostController : Form Record PostField String String where
  read dict
    | .title => (Posts.init dict).title
    | .detailPost => (Posts.init dict).detailPost
  write dict texts date :=
    dict.merge (editUserPostValues (texts .title) (texts .detailPost) date)
  blank _ := ""
  -- without a post there is no `postId`
  accepts version _ := version.isSome
  read_write dict texts date := by
    funext f
    rw [init_editUserPost]
    cases f <;> rfl

end DevPost
