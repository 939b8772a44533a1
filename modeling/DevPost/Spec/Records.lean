import DevPost.Lib.Table
import Mathlib.Data.List.Infix
import Mathlib.Data.String.Basic

/-! The records of the database and the values the app writes to them. A record is
a dictionary; the decoders read string keys and turn a missing or mistyped value
into the empty string. `FirebaseServices` holds the dictionaries of each write;
`TimeString.setDate()` reads the clock, so the date it returns is an argument. -/

namespace DevPost

open Lib

abbrev Uid := String

/-- The string functions of Foundation that the code calls. -/
structure Foundation where
  lowercased : String → String
  /-- `range(of:) != nil` -/
  hasRange : String → String → Bool

/-- Foundation on ASCII text. -/
def Foundation.ascii : Foundation where
  lowercased := fun s => String.ofList (s.toList.map Char.toLower)
  hasRange := fun text pattern => pattern ≠ "" && decide (pattern.toList <:+: text.toList)

/-- What a key of a stored dictionary can hold. -/
inductive Value
  | string (s : String)
  | number (n : ℤ)
  | bool (b : Bool)
deriving DecidableEq

/-- A dictionary `[String:Any]`. -/
abbrev Record := Table String Value

/-- `dict[key] as? String ?? ""` -/
def Record.str (dict : Record) (key : String) : String :=
  match dict.lookup key with
  | some (.string s) => s
  | _ => ""

/-- The key is there, with a string. -/
def Record.has (dict : Record) (key : String) : Bool :=
  match dict.lookup key with
  | some (.string _) => true
  | _ => false

/-- `snapshot.exists()`: the database keeps no empty dictionary. -/
def Record.exists (dict : Record) : Bool := dict ≠ ∅

structure User where
  username : String
  email : String
  title : String
  repo : String
deriving DecidableEq

def User.init (dict : Record) : User where
  username := dict.str "username"
  email := dict.str "email"
  title := dict.str "title"
  repo := dict.str "repo"

structure Posts where
  title : String
  detailPost : String
  date : String
  username : String
  userId : String
  postId : String
deriving DecidableEq

def Posts.init (dict : Record) : Posts where
  title := dict.str "title"
  detailPost := dict.str "detailPost"
  date := dict.str "date"
  username := dict.str "username"
  userId := dict.str "userId"
  postId := dict.str "postId"

structure Comments where
  user : String
  comment : String
  date : String
  postId : String
  userId : String
  commentId : String
deriving DecidableEq

def Comments.init (dict : Record) : Comments where
  user := dict.str "by"
  comment := dict.str "comment"
  date := dict.str "date"
  postId := dict.str "postId"
  userId := dict.str "userId"
  commentId := dict.str "commentId"

/-- `$0.date.compare($1.date) == .orderedDescending` -/
def orderedDescending (a b : Posts) : Bool := compare a.date b.date = .gt

/-- `sort(by:)`, which is stable: an element stays before the elements it is not
ordered after. -/
def sort (areInIncreasingOrder : Posts → Posts → Bool) (l : List Posts) : List Posts :=
  l.insertionSort fun a b => ¬ areInIncreasingOrder b a

theorem sort_perm (lt : Posts → Posts → Bool) (l : List Posts) : (sort lt l).Perm l :=
  List.perm_insertionSort _ l

/-- A dictionary literal of strings. -/
def strings (vals : List (String × String)) : List (String × Value) :=
  vals.map fun v => (v.1, .string v.2)

/-- `updateChildValues`: merge the given keys into the child, which is created when it
does not exist. -/
def updateChildValues (node : Table String Record) (child : String)
    (vals : List (String × Value)) : Record :=
  ((node.lookup child).getD ∅).merge vals

namespace FirebaseServices

def createUserValues (email username : String) : List (String × Value) :=
  strings [("username", username), ("email", email)]

def updateUserInfoValues (username title repo : String) : List (String × Value) :=
  strings [("username", username), ("title", title), ("repo", repo)]

def uploadPostValues (title detailPost date username userId postId : String) :
    List (String × Value) :=
  strings [("title", title), ("detailPost", detailPost), ("date", date),
    ("username", username), ("userId", userId), ("postId", postId)]

def editUserPostValues (title detailPost date : String) : List (String × Value) :=
  strings [("title", title), ("detailPost", detailPost), ("date", "Updated on " ++ date)]

def postCommentValues (user userId comment postId commentId date : String) :
    List (String × Value) :=
  strings [("by", user), ("userId", userId), ("comment", comment), ("postId", postId),
    ("commentId", commentId), ("date", date)]

/-- The handler of `observeUserPost`: a snapshot that exists is decoded, and its post
is handed to the closure by another block on the main queue. -/
def observeUserPost (snapshot : Record) : Option Posts :=
  if snapshot.exists then some (Posts.init snapshot) else none

end FirebaseServices

open FirebaseServices

theorem lookup_merge_strings (dict : Record) (vals : List (String × String)) (key : String) :
    Table.lookup (dict.merge (strings vals)) key =
      ((vals.reverse.lookup key).map .string).or (dict.lookup key) := by
  have hl : (strings vals).reverse.lookup key = (vals.reverse.lookup key).map .string := by
    rw [strings, ← List.map_reverse]
    induction vals.reverse with
    | nil => rfl
    | cons v vs ih =>
      rw [List.map_cons, List.lookup_cons, List.lookup_cons]
      by_cases hk : key = v.1
      · simp [hk]
      · simpa [beq_false_of_ne hk] using ih
  rw [Table.lookup_merge, hl]

theorem str_merge (dict : Record) (vals : List (String × String)) (key : String) :
    Record.str (dict.merge (strings vals)) key =
      (vals.reverse.lookup key).getD (dict.str key) := by
  unfold Record.str
  rw [lookup_merge_strings]
  cases vals.reverse.lookup key <;> rfl

theorem has_merge (dict : Record) (vals : List (String × String)) (key : String) :
    Record.has (dict.merge (strings vals)) key =
      ((vals.reverse.lookup key).isSome || dict.has key) := by
  unfold Record.has
  rw [lookup_merge_strings]
  cases vals.reverse.lookup key <;> rfl

theorem init_uploadPost (title detailPost date username userId postId : String) :
    Posts.init (Table.ofList (uploadPostValues title detailPost date username userId postId)) =
      ⟨title, detailPost, date, username, userId, postId⟩ := by
  simp only [Posts.init, uploadPostValues, Table.ofList, str_merge]
  rfl

/-- An edit changes the title, the text and the date, and nothing else. -/
theorem init_editUserPost (dict : Record) (title detailPost date : String) :
    Posts.init (dict.merge (editUserPostValues title detailPost date)) =
      { Posts.init dict with title, detailPost, date := "Updated on " ++ date } := by
  simp only [Posts.init, editUserPostValues, str_merge]
  rfl

theorem init_createUser (email username : String) :
    User.init (Table.ofList (createUserValues email username)) = ⟨username, email, "", ""⟩ := by
  simp only [User.init, createUserValues, Table.ofList, str_merge]
  rfl

/-- An update of the profile keeps the email. -/
theorem init_updateUserInfo (dict : Record) (username title repo : String) :
    User.init (dict.merge (updateUserInfoValues username title repo)) =
      { User.init dict with username, title, repo } := by
  simp only [User.init, updateUserInfoValues, str_merge]
  rfl

/-- What the decoder reads from a stored comment: `user` was written as `by`. -/
theorem init_postComment (user userId comment postId commentId date : String) :
    Comments.init
        (Table.ofList (postCommentValues user userId comment postId commentId date)) =
      ⟨user, comment, date, postId, userId, commentId⟩ := by
  simp only [Comments.init, postCommentValues, Table.ofList, str_merge]
  rfl

theorem exists_merge (dict : Record) {vals : List (String × Value)} (h : vals ≠ []) :
    Record.exists (dict.merge vals) := by
  obtain ⟨vs, v, rfl⟩ := (List.eq_nil_or_concat' vals).resolve_left h
  have hlast : dict.merge (vs ++ [v]) = (dict.merge vs).set v.1 v.2 := by
    simp [Table.merge, List.foldl_append]
  simp [Record.exists, hlast, Table.set_ne_empty]

end DevPost
