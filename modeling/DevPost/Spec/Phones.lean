import DevPost.Spec.Phone

/-! Phones that share the backend. Auth and the database are one service: what a phone makes of
the accounts and of the users node is what the others find, and their login listeners hear of a
change; the calls of its screens reach the screens of the others. The session is the phone's own,
and stays open when another phone deletes the account. -/

namespace DevPost

open Lib FirebaseServices

namespace Phone

/-- The event is the phone's own. -/
def Event.own : Event → Bool
  | .screen (.call _) | .account (.remoteUsers ..) => false
  | _ => true

/-- The call of a screen behind an event. -/
def call (p : Phone) : Event → Option Database.Call
  | .screen e => p.device.call e
  | .account _ => none

/-- The screens of the other phones hear of a screen's call. -/
def peer (F : Foundation) : Peer Phone Event where
  step := Phone.step F
  echo p e := (p.call e).map fun c => .screen (.call c)

/-- The phone after a step that left the backend as `b` has it. -/
def sync (p : Phone) (b : Accounts) : Phone :=
  { p with accounts := { p.accounts.setUsers b.users with accounts := b.accounts } }

end Phone

namespace Phones

variable {ι : Type*} [DecidableEq ι]

def launch (accounts : List Account) (users : Table Uid Record) (sessions : ι → Option Uid) :
    ι → Phone := fun i => .launch accounts users (sessions i)

def step [Fintype ι] (F : Foundation) (s : ι → Phone) (a : ι × Phone.Event) :
    Option (ι → Phone) :=
  ((Phone.peer F).all s a).map fun s' j => if j = a.1 then s' j else (s' j).sync (s' a.1).accounts

end Phones

end DevPost
