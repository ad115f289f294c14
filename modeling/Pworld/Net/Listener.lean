import Pworld.Net.Session
import Pworld.Support.Loop

/-! The Linux listener: its calls, each as it runs without another thread between its
statements. -/
namespace Pworld.Net

inductive ListenerStatus where
  | uninit
  | running
  | error
  | closing
  | preclosed
  | closed
  deriving DecidableEq,Repr

def ListenerStatus.rank : ListenerStatus → Nat
  | .uninit => 0
  | .running => 1
  | .error => 2
  | .closing => 3
  | .preclosed => 4
  | .closed => 5

inductive AcceptRet where
  | socket (fd : Nat)
  | intr
  | connAborted
  | again
  | err (errno : Nat)
  deriving DecidableEq,Repr

/-- The results of accept4 after which `_post_accept` calls `on_accept` or `_on_accept_error`. -/
def AcceptRet.decides : AcceptRet → Bool
  | .socket _ => true
  | .err _ => true
  | _ => false

structure Listener where
  _listener : Int
  _error : Nat
  _status : ListenerStatus
  _accept_pending : Bool
  registered : Bool  -- in epoll, with a callback still to come
  deriving DecidableEq,Repr

/-- How the system calls of `Init` end. -/
inductive InitRet where
  | noSocket
  | badAddress (errno : Nat)
  | noBind (errno : Nat)
  | noListen (errno : Nat)
  | listening (accepts : List AcceptRet)
  deriving DecidableEq,Repr

namespace Listener

def new : Listener := ⟨-1,0,.uninit,false,false⟩

def Active (l : Listener) : Bool := l._status == .running
def Disposable (l : Listener) : Bool := l._status == .closed

-- `g_net_close_socket(_listener)`
def closeSocket (l : Listener) : Listener := {l with _listener := -1}

def _on_accept_error (l : Listener) (err : Nat) : Listener :=
  {l with _error := err, _status := .error}

-- the registration fails once the descriptor is closed
def registerHandler (l : Listener) : Listener :=
  {l with _accept_pending := true, registered := l.registered || l._listener != -1}

/-- `_post_accept` with the sockets it hands to `on_accept`. -/
def _post_accept : List AcceptRet → Listener → Option (List Nat × Bool × Listener)
  | rets,l =>
    if l._status ≠ .running then some ([],true,l)
    else
      match rets with
      | [] => none
      | .intr::rets => _post_accept rets l
      | .connAborted::rets => _post_accept rets l
      | .again::_ => some ([],true,l.registerHandler)
      | .err errno::_ => some ([],false,l._on_accept_error errno)
      | .socket fd::rets => (_post_accept rets l).map fun r => (fd::r.1,r.2)

def Init (l : Listener) (fd : Nat) : InitRet → Option (List Nat × Bool × Listener)
  | .noSocket => some ([],false,{l with _status := .closed, _listener := -1})
  | .badAddress errno | .noBind errno | .noListen errno =>
    some ([],false,{l with _status := .closed, _listener := -1, _error := errno})
  | .listening accepts => _post_accept accepts {l with _status := .running, _listener := fd}

def Close (l : Listener) : Listener :=
  if l._status = .running then {l.closeSocket with _status := .closing} else l

def Update (l : Listener) : Listener :=
  match l._status with
  | .error => {l with _status := .preclosed}
  | .closing => {l with _status := .preclosed}
  | .preclosed => {l.closeSocket with _status := .closed}
  | _ => l

/-- `__listener_cb__`; `sockErr` is what `g_net_socket_error` gives. -/
def listenerCb (l : Listener) (events sockErr : Nat) (accepts : List AcceptRet) :
    Option (List Nat × Listener) :=
  let l := {l with _accept_pending := false, registered := false}
  if has events epollErr then some ([],l._on_accept_error sockErr)
  else if has events epollIn then (l._post_accept accepts).map fun r => (r.1,r.2.2)
  else some ([],l)

end Listener

end Pworld.Net
