import DevPost.Lib.Path
import DevPost.Spec.Records

/-! The current user's record on the screens. `fetchUser` adds an auth-state listener,
whose callbacks register a value listener on the record of the account that is signed in
when they run; neither is ever removed. Two screens keep what they are told:
`MainController` the username in its title, `ProfileController` its `userInfo`, which fills
the form of `EditProfileController`. Callbacks run in FIFO order on the main queue. -/

namespace DevPost

open Lib FirebaseServices

/-- The calls of `fetchUser` whose closure writes a field that lasts. -/
inductive Sink
  | setNavUsername
  | fetchUserInfo
deriving DecidableEq

namespace Profiles

inductive Callback
  /-- an auth-state change, for the listener of a call of `fetchUser` -/
  | auth (sink : Sink)
  /-- the value of `users/uid`, for a listener that the call registered -/
  | value (sink : Sink) (uid : Uid) (dict : Option Record)
deriving DecidableEq

/-- A user a screen was told of; the uid only records whose record it was. -/
abbrev Told := Uid × User

/-- The form of `EditProfileController`, with the user it was presented with. -/
structure EditProfileController where
  user : Option Told
deriving DecidableEq

end Profiles

open Profiles in
structure Profiles where
  users : Table Uid Record
  session : Option Uid
  /-- the screens whose `viewDidLoad` has run -/
  loaded : List Sink := []
  listeners : List (Sink × Uid) := []
  queue : List Callback := []
  told : Sink → Option Told := fun _ => none
  form : Option EditProfileController := none
  /-- for each unmodified form saved so far, whose record filled it and whose it went to -/
  copied : List (Uid × Uid) := []

namespace Profiles

inductive Event
  | viewDidLoad (sink : Sink)
  /-- an email or Google sign-in, or a sign-up -/
  | signIn (uid : Uid)
  | signOut
  /-- a record is written or removed by another screen or device -/
  | write (uid : Uid) (dict : Option Record)
  | handleEditProfile
  /-- OK after Update Profile, with the form as it was filled or with other texts -/
  | handleUpdateProfile (texts : Option (String × String × String))
  | cancel
  | run
deriving DecidableEq

/-- The label of the title. -/
def navUsername (s : Profiles) : Option String := (s.told .setNavUsername).map (·.2.username)

/-- What `fetchUserInfo` leaves for the form. -/
def userInfo (s : Profiles) : Option Told := s.told .fetchUserInfo

/-- A change of a record; a write of the value that is there changes nothing. -/
def setRecord (s : Profiles) (uid : Uid) (dict : Option Record) : Profiles :=
  if s.users.lookup uid = dict then s
  else { s with
    users := match dict with
      | some dict => s.users.set uid dict
      | none => s.users.erase uid
    queue := s.queue ++ (s.listeners.filter (·.2 = uid)).map fun l => .value l.1 uid dict }

/-- Every auth-state listener is called. -/
def stateDidChange (s : Profiles) (user : Option Uid) : Profiles :=
  { s with
    session := user
    queue := s.queue ++ if s.session = user then [] else s.loaded.map .auth }

/-- The closure of `fetchUser`'s auth-state listener reads the current user itself. -/
def runAuth (s : Profiles) (sink : Sink) : Profiles :=
  match s.session with
  | none => s
  | some uid =>
    { s with
      listeners := s.listeners ++ [(sink, uid)]
      queue := s.queue ++ [.value sink uid (s.users.lookup uid)] }

/-- The closure of the value listener passes on a dictionary only. -/
def runValue (s : Profiles) (sink : Sink) (uid : Uid) (dict : Option Record) : Profiles :=
  match dict with
  | none => s
  | some dict => { s with told := Function.update s.told sink (some (uid, User.init dict)) }

/-- What `viewDidLoad` puts into the text fields. -/
def EditProfileController.fields (vc : EditProfileController) : String × String × String :=
  match vc.user with
  | none => ("", "", "")
  | some u => (u.2.username, u.2.title, u.2.repo)

def updateUserInfo (s : Profiles) (texts : String × String × String) : Profiles :=
  match s.session with
  | none => s
  | some uid => s.setRecord uid (some (updateChildValues s.users uid
      (updateUserInfoValues texts.1 texts.2.1 texts.2.2)))

def handleUpdateProfile (s : Profiles) (vc : EditProfileController)
    (texts : Option (String × String × String)) : Profiles :=
  let fields := texts.getD vc.fields
  if fields.1 = "" then s
  else { s.updateUserInfo fields with
    form := none
    copied := s.copied ++ match texts, vc.user, s.session with
      | none, some u, some uid => [(u.1, uid)]
      | _, _, _ => [] }

def step (s : Profiles) : Event → Option Profiles
  | .viewDidLoad sink =>
    if sink ∈ s.loaded then none
    else some { s with loaded := s.loaded ++ [sink], queue := s.queue ++ [.auth sink] }
  | .signIn uid => some (s.stateDidChange (some uid))
  | .signOut => some (s.stateDidChange none)
  | .write uid dict => if dict = some ∅ then none else some (s.setRecord uid dict)
  | .handleEditProfile =>
    if s.form = none then some { s with form := some ⟨s.userInfo⟩ } else none
  | .handleUpdateProfile texts => s.form.map fun vc => s.handleUpdateProfile vc texts
  | .cancel => some { s with form := none }
  | .run =>
    match s.queue with
    | [] => none
    | .auth sink :: q => some ({ s with queue := q }.runAuth sink)
    | .value sink uid dict :: q => some ({ s with queue := q }.runValue sink uid dict)

end Profiles

end DevPost
