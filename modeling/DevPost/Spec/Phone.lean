import DevPost.Spec.Accounts
import DevPost.Spec.Network

/-! One phone: the accounts and the screens. Auth is one object for the whole app, and the
auth-state listeners of the screens hear of its user from it alone; what other devices write
reaches the accounts and the screens as before. -/

namespace DevPost

open Lib FirebaseServices

structure Phone where
  accounts : Accounts
  device : Device

namespace Phone

inductive Event
  | account (e : Accounts.Event)
  | screen (e : Device.Event)
deriving DecidableEq

/-- The app starts with the session that Auth kept, if it kept one. -/
def launch (accounts : List Account) (users : Table Uid Record) (session : Option Uid) : Phone where
  accounts := { accounts, users, session }
  device := { mine := MyComments.stateDidChange {} session }

/-- The screens hear of the session from Auth only. -/
def Event.admissible : Event → Bool
  | .screen (.mine (.signIn _)) | .screen (.mine .signOut) => false
  | _ => true

/-- What the auth-state listeners hear when the user changes. -/
def authEvent (before after : Option Uid) : Option Device.Event :=
  if before = after then none
  else some <| .mine <|
    match after with
    | some uid => .signIn uid
    | none => .signOut

def step (F : Foundation) (p : Phone) (e : Event) : Option Phone :=
  if e.admissible then
    match e with
    | .account e =>
      (p.accounts.step F e).bind fun accounts =>
        (follow (Device.step F) p.device (authEvent p.accounts.session accounts.session)).map
          fun device => { accounts, device }
    | .screen e => (p.device.step F e).map fun device => { p with device }
  else none

end Phone

end DevPost
