import DevPost.Lib.Path
import DevPost.Spec.Records

/-! The accounts: the authentication backend, the users node and the calls of
`FirebaseServices` that change them. Each call of Auth is an operation that the backend
completes later, in any order, with success or with an error, which may also come when
the backend has done what it was asked. `loginUser` observes a query on the users node and
never removes the listener, so it hears of every later change of the result as well. -/

namespace DevPost

open Lib FirebaseServices

structure Account where
  uid : Uid
  email : String
  password : String
deriving DecidableEq

namespace Accounts

/-- The listener of one call of `loginUser`, with what it captured. -/
structure LoginListener where
  tap : ℕ
  email : String
  password : String
deriving DecidableEq

/-- A call of Auth, with what its completion captured. -/
inductive Operation
  | createUser (email password username : String)
  | signIn (l : LoginListener)
  | updatePassword (uid : Uid) (newPassword : String)
  | delete (uid : Uid)
deriving DecidableEq

/-- What the user gets to see. -/
inductive Effect
  | showStatus (status : String)
  | showError (status : String)
  | showSuccess (status : String)
  | dismissStatus
  /-- the screen that made the call dismisses itself -/
  | dismiss
  /-- the login screen, presented while `user` is signed in -/
  | presentLogin (user : Option Uid)
deriving DecidableEq

end Accounts

open Accounts in
structure Accounts where
  accounts : List Account
  users : Table Uid Record
  session : Option Uid
  listeners : List LoginListener := []
  /-- the value events on their way: the listener, and whether the result exists -/
  snapshots : List (LoginListener × Bool) := []
  /-- the calls of Auth that have not completed, numbered -/
  operations : List (ℕ × Operation) := []
  taps : ℕ := 0
  calls : ℕ := 0
  /-- the login tap behind each call of `Auth.signIn` so far -/
  signIns : List ℕ := []
  /-- what was shown so far, and for which call of Auth -/
  effects : List (Option ℕ × Effect) := []
deriving DecidableEq

namespace Accounts

inductive Event
  | loginTap (email password : String)
  | signUpTap (email password username : String)
  /-- the Google sign-in of `uid` completes -/
  | googleSignIn (uid : Uid)
  /-- OK in the logout dialog; `signOut` may throw -/
  | logOut (throws : Bool)
  | updateUserInfo (username title repo : String)
  | updatePassword (newPassword : String)
  /-- OK in the dialog of `handleDeleteAccount` -/
  | deleteAccount
  /-- another device writes or removes a users record -/
  | remoteUsers (uid : Uid) (dict : Option Record)
  /-- the `i`-th value event arrives -/
  | deliver (i : ℕ)
  /-- the backend accepts the `i`-th operation; a new account gets `uid` -/
  | succeed (i : ℕ) (uid : Uid)
  | fail (i : ℕ) (error : String)
  /-- the backend accepts the `i`-th operation, and the call ends in an error all the same -/
  | failLate (i : ℕ) (uid : Uid) (error : String)
deriving DecidableEq

/-- `queryOrdered(byChild: "email").queryEqual(toValue: email)` -/
def query (users : Table Uid Record) (email : String) : List (Uid × Record) :=
  users.entries.filter fun e => e.2.lookup "email" = some (.string email)

/-- The value events of a write, one for each listener whose result it changes. -/
def raised (s : Accounts) (users : Table Uid Record) : List (LoginListener × Bool) :=
  s.listeners.filterMap fun l =>
    if query users l.email = query s.users l.email then none
    else some (l, decide (query users l.email ≠ []))

def setUsers (s : Accounts) (users : Table Uid Record) : Accounts :=
  { s with users, snapshots := s.snapshots ++ s.raised users }

def shows (s : Accounts) (call : Option ℕ) (effects : List Effect) : Accounts :=
  { s with effects := s.effects ++ effects.map (call, ·) }

/-- Call Auth. -/
def call (s : Accounts) (op : Operation) : Accounts :=
  { s with operations := s.operations ++ [(s.calls, op)], calls := s.calls + 1 }

/-- The account Auth knows by an email, whose letter case it ignores. -/
def account (F : Foundation) (s : Accounts) (email : String) : Option Account :=
  s.accounts.find? fun a => F.lowercased a.email = F.lowercased email

/-- The error's description, if there is an error. -/
def handleError (error : Option String) : List Effect :=
  match error with
  | some error => [.showError error]
  | none => []

def createUser (s : Accounts) (email password username : String) : Accounts :=
  (s.shows (some s.calls) [.showStatus "Sign up"]).call (.createUser email password username)

def loginUser (s : Accounts) (email password : String) : Accounts :=
  let l : LoginListener := ⟨s.taps, email, password⟩
  { s.shows none [.showStatus "Login up"] with
    taps := s.taps + 1
    listeners := s.listeners ++ [l]
    snapshots := s.snapshots ++ [(l, decide (query s.users email ≠ []))] }

/-- The closure of `loginUser` on a value event. -/
def loginSnapshot (s : Accounts) (l : LoginListener) (exist : Bool) : Accounts :=
  if exist then { s.call (.signIn l) with signIns := s.signIns ++ [l.tap] }
  else s.shows none
    [.showError "User does not exist\n Please signup with username and email"]

def updatePassword (s : Accounts) (newPassword : String) : Accounts :=
  match s.session with
  | none => s
  | some uid => s.call (.updatePassword uid newPassword)

def updateUserInfo (s : Accounts) (username title repo : String) : Accounts :=
  match s.session with
  | none => s
  | some uid =>
    (s.setUsers (s.users.set uid
      (updateChildValues s.users uid (updateUserInfoValues username title repo)))).shows none
      [.showSuccess "User updated"]

/-- `handleDeleteAccount`: `deleteUser`, and at once `logoutAfterDeleteAccount`. -/
def handleDeleteAccount (s : Accounts) : Accounts :=
  match s.session with
  | none => s.shows none [.presentLogin none]
  | some uid => (s.shows (some s.calls) [.presentLogin (some uid)]).call (.delete uid)

def logOutUser (s : Accounts) (throws : Bool) : Accounts :=
  if throws then s else { s with session := none }.shows none [.presentLogin none]

/-- The completions, called with a user, an error or neither: what they show and the users
node they leave. -/
def completion (users : Table Uid Record) (user : Option Uid) (error : Option String) :
    Operation → List Effect × Table Uid Record
  | .createUser email _ username =>
    match user with
    | none => (handleError error, users)
    | some uid =>
      (handleError error ++ [.dismissStatus, .dismiss],
        users.set uid (Table.ofList (createUserValues email username)))
  | .signIn _ =>
    match user with
    | none => ([], users)
    | some uid =>
      ((if uid = "" then handleError error else []) ++ [.dismissStatus, .dismiss], users)
  | .updatePassword _ _ =>
    (handleError error ++ [.showSuccess
      "Password has been updated. Please logout and login again. Thank you!"], users)
  | .delete uid => (handleError error, users.erase uid)

/-- What the backend does when it accepts an operation: the accounts, the session and the
user it completes with. -/
def accept (F : Foundation) (s : Accounts) (uid : Uid) :
    Operation → Option (List Account × Option Uid × Option Uid)
  | .createUser email password _ =>
    if s.account F email = none ∧ uid ≠ "" ∧ ∀ a ∈ s.accounts, a.uid ≠ uid then
      some (s.accounts ++ [⟨uid, email, password⟩], some uid, some uid)
    else none
  | .signIn l =>
    (s.account F l.email).bind fun a =>
      if a.password = l.password then some (s.accounts, some a.uid, some a.uid) else none
  | .updatePassword uid password =>
    some (s.accounts.map fun a => if a.uid = uid then { a with password } else a, s.session, none)
  | .delete uid =>
    some (s.accounts.filter (·.uid ≠ uid), if s.session = some uid then none else s.session, none)

/-- Run the completion of the operation `n`, the `i`-th that is waiting. -/
def complete (s : Accounts) (i n : ℕ) (op : Operation) (user : Option Uid)
    (error : Option String) : Accounts :=
  let r := completion s.users user error op
  ({ s with operations := s.operations.eraseIdx i }.setUsers r.2).shows (some n) r.1

def step (F : Foundation) (s : Accounts) : Event → Option Accounts
  | .loginTap email password =>
    some (if email = "" ∨ password = "" then
        s.shows none [.showError "Please enter valid email & password"]
      else s.loginUser email password)
  | .signUpTap email password username =>
    some (if email = "" ∨ password = "" ∨ username = "" then
        s.shows none [.showError "To sign up, you must enter all fields please!"]
      else s.createUser email password username)
  | .googleSignIn uid => some ({ s with session := some uid }.shows none [.dismiss])
  | .logOut throws => some (s.logOutUser throws)
  | .updateUserInfo username title repo => some (s.updateUserInfo username title repo)
  | .updatePassword newPassword => some (s.updatePassword newPassword)
  | .deleteAccount => some s.handleDeleteAccount
  | .remoteUsers uid dict =>
    match dict with
    | none => some (s.setUsers (s.users.erase uid))
    | some dict => if dict = ∅ then none else some (s.setUsers (s.users.set uid dict))
  | .deliver i =>
    s.snapshots[i]?.map fun p =>
      { s with snapshots := s.snapshots.eraseIdx i }.loginSnapshot p.1 p.2
  | .succeed i uid =>
    s.operations[i]?.bind fun op =>
      (s.accept F uid op.2).map fun r =>
        { s with accounts := r.1, session := r.2.1 }.complete i op.1 op.2 r.2.2 none
  | .fail i error => s.operations[i]?.map fun op => s.complete i op.1 op.2 none (some error)
  | .failLate i uid error =>
    s.operations[i]?.bind fun op =>
      (s.accept F uid op.2).map fun r =>
        -- a user that could not be fetched is not signed in
        { s with
          accounts := r.1
          session := if r.2.2 = none then r.2.1 else s.session }.complete i op.1 op.2 none
            (some error)

end Accounts

end DevPost
