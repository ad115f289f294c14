import Pworld.Net.Session

/-! The Linux connector. Its methods stop where they call `on_connect`, which a subclass
overrides: what comes after that call is a definition of its own. -/
namespace Pworld.Net

inductive ConnectorStatus where
  | uninit
  | connecting
  | error
  | closed
  deriving DecidableEq,Repr

inductive ConnectRet where
  | done
  | inProgress  -- EINPROGRESS or EWOULDBLOCK
  | intr
  | err (errno : Nat)
  deriving DecidableEq,Repr

def ebadf : Nat := 9

structure Connector where
  _socket : Int
  _status : ConnectorStatus
  _key : Bool
  _error : Nat
  _events : Nat
  registered : Bool  -- in epoll, with a callback still to come
  deriving DecidableEq,Repr

/-- Where a method stops: `connected` where it calls `on_connect`, else with what
`_post_connect` returns. -/
inductive Posted where
  | connected
  | returned (ok : Bool)
  deriving DecidableEq,Repr

/-- How the system calls of `Connect` end. -/
inductive ConnectIn where
  | noSocket
  | noBind (errno : Nat)
  | badAddress (errno : Nat)
  | connects (fd : Nat) (rets : List ConnectRet)
  deriving DecidableEq,Repr

/-- What `Update` meets: whether `try_lock` succeeds, the error pending on the socket and
the results of connect. -/
structure ConnectorIn where
  free : Bool
  sockErr : Nat
  rets : List ConnectRet
  deriving DecidableEq,Repr

namespace Connector

-- the constructor leaves `_events` as the memory has it
def new (_events : Nat) : Connector := ⟨-1,.uninit,false,0,_events,false⟩

def Disposable (c : Connector) : Bool := c._status == .closed || c._status == .uninit

-- `g_net_close_socket(_socket)`
def closeSocket (c : Connector) : Connector := {c with _socket := -1}

def DetachSocket (c : Connector) : Connector := {c with _socket := -1, _key := false}

/-- `~Connector` -/
def destroy (c : Connector) : Connector := {c.closeSocket with _key := false}

/-- connect on `_socket`, which fails once the descriptor is closed. -/
def connect (c : Connector) (ret : ConnectRet) : ConnectRet :=
  if c._socket = -1 then .err ebadf else ret

-- getsockopt on a closed descriptor fails and leaves the 0 that it is given
def socketError (c : Connector) (sockErr : Nat) : Nat := if c._socket = -1 then 0 else sockErr

def _on_connect_error (c : Connector) (err : Nat) : Connector :=
  {c with _error := err, _status := .error}

def _post_connect : List ConnectRet → Connector → Option (Posted × Connector)
  | rets,c =>
    if c._status ≠ .connecting then some (.returned true,c)
    else
      match rets with
      | [] => none
      | ret::rets =>
        match c.connect ret with
        | .inProgress => some (.returned true,{c with registered := true})
        | .intr => _post_connect rets c
        | .err errno => some (.returned false,c._on_connect_error errno)
        | .done => some (.connected,c)

def Connect (c : Connector) : ConnectIn → Option (Posted × Connector)
  | .noSocket => some (.returned false,{c with _status := .closed, _socket := -1})
  | .noBind errno | .badAddress errno =>
    some (.returned false,{c with _status := .closed, _socket := -1, _error := errno})
  | .connects fd rets =>
    _post_connect rets {c with _status := .connecting, _socket := fd, _key := true}

-- the end of `_post_connect` after `on_connect`
def connectDone (c : Connector) : Connector := {c with _status := .closed}

/-- `Update` up to the end of its `_post_connect`, with the mutex locked. -/
def handleEvents (c : Connector) (i : ConnectorIn) : Option (Posted × Connector) :=
  if c._events = 0 then some (.returned true,c)
  else if has c._events epollOut then
    let err := c.socketError i.sockErr
    if err = 0 then _post_connect i.rets c
    else some (.returned true,{c with _error := err, _status := .error})
  else some (.returned true,c)

/-- The rest of `Update`: `_events = 0` and the switch. -/
def finishUpdate (c : Connector) : Connector :=
  match c._status with
  | .error => {c with _events := 0, _status := .closed}
  | _ => {c with _events := 0}

def Abort (c : Connector) : Connector :=
  if c._status = .connecting then c.closeSocket else c

/-- `__connector_cb__` -/
def connectorCb (c : Connector) (events : Nat) : Connector :=
  {c with _events := events, registered := false}

/-- The first connect that is not interrupted succeeds. -/
def succeeds : List ConnectRet → Bool
  | .done::_ => true
  | .intr::rets => succeeds rets
  | _ => false

/-- `Update` gets as far as connect. -/
def Asks (c : Connector) (i : ConnectorIn) : Prop :=
  has c._events epollOut = true ∧ c._status = .connecting ∧ c._socket ≠ -1 ∧ i.sockErr = 0

instance (c : Connector) (i : ConnectorIn) : Decidable (c.Asks i) := by
  unfold Asks
  infer_instance

/-- What is left when a method has not called `on_connect`: the socket is the same, and only
a connector that was connecting still is. -/
structure Stays (c d : Connector) : Prop where
  socket : d._socket = c._socket
  status : d._status = .connecting → c._status = .connecting

theorem Stays.refl (c : Connector) : c.Stays c := ⟨rfl,id⟩

theorem Stays.trans {c d e : Connector} (first : c.Stays d) (second : d.Stays e) : c.Stays e where
  socket := second.socket.trans first.socket
  status := first.status ∘ second.status

/-- `_post_connect` reaches `on_connect` exactly by a connect that succeeds. -/
theorem post_connect_cases {rets : List ConnectRet} {c d : Connector} {posted : Posted}
    (done : _post_connect rets c = some (posted,d)) :
    (posted = .connected ∧ d = c ∧ c._status = .connecting ∧ c._socket ≠ -1 ∧
      succeeds rets = true) ∨
    (posted ≠ .connected ∧ c.Stays d ∧
      (c._status = .connecting → c._socket ≠ -1 → succeeds rets = false)) := by
  induction rets with
  | nil =>
    unfold _post_connect at done
    split at done
    next other =>
      cases done
      exact .inr ⟨by simp,.refl c,fun same => absurd same other⟩
    next => contradiction
  | cons ret rets ih =>
    unfold _post_connect at done
    split at done
    next other =>
      cases done
      exact .inr ⟨by simp,.refl c,fun same => absurd same other⟩
    next connecting =>
      have connecting := Classical.not_not.mp connecting
      by_cases closed : c._socket = -1
      · simp only [connect,if_pos closed] at done
        cases done
        exact .inr ⟨by simp,⟨rfl,nofun⟩,fun _ socket => absurd closed socket⟩
      · simp only [connect,if_neg closed] at done
        cases ret with
        | done =>
          cases done
          exact .inl ⟨rfl,rfl,connecting,closed,rfl⟩
        | inProgress =>
          cases done
          exact .inr ⟨by simp,⟨rfl,id⟩,fun _ _ => rfl⟩
        | intr => exact ih done
        | err errno =>
          cases done
          exact .inr ⟨by simp,⟨rfl,nofun⟩,fun _ _ => rfl⟩

theorem handleEvents_cases {c d : Connector} {i : ConnectorIn} {posted : Posted}
    (done : c.handleEvents i = some (posted,d)) :
    (posted = .connected ∧ d = c ∧ c.Asks i ∧ succeeds i.rets = true) ∨
    (posted ≠ .connected ∧ c.Stays d ∧ (c.Asks i → succeeds i.rets = false)) := by
  unfold handleEvents at done
  split at done
  next none =>
    cases done
    refine .inr ⟨by simp,.refl c,fun asks => ?_⟩
    have ready := asks.1
    rw [none] at ready
    exact absurd ready (by decide)
  next =>
    split at done
    next ready =>
      simp only at done
      split at done
      next quiet =>
        rcases post_connect_cases done with ⟨rfl,same,connecting,socket,success⟩ | ⟨other,stays,fails⟩
        · refine .inl ⟨rfl,same,⟨ready,connecting,socket,?_⟩,success⟩
          simpa [socketError,socket] using quiet
        · exact .inr ⟨other,stays,fun asks => fails asks.2.1 asks.2.2.1⟩
      next error =>
        cases done
        refine .inr ⟨by simp,⟨rfl,nofun⟩,fun asks => ?_⟩
        simp [socketError,asks.2.2.1,asks.2.2.2] at error
    next other =>
      cases done
      exact .inr ⟨by simp,.refl c,fun asks => absurd asks.1 other⟩

theorem finishUpdate_stays (c : Connector) : c.Stays c.finishUpdate := by
  unfold finishUpdate
  split
  · exact ⟨rfl,nofun⟩
  · exact ⟨rfl,id⟩

/-- `Connect` reaches `on_connect` exactly by a connect that succeeds. -/
theorem connect_cases {c d : Connector} {i : ConnectIn} {posted : Posted}
    (done : c.Connect i = some (posted,d)) :
    (posted = .connected ∧ ∃ fd rets, i = .connects fd rets ∧ succeeds rets = true) ∨
    (posted ≠ .connected ∧ ∀ fd rets, i = .connects fd rets → succeeds rets = false) := by
  cases i with
  | noSocket =>
    cases done
    exact .inr ⟨by simp,by simp⟩
  | noBind errno =>
    cases done
    exact .inr ⟨by simp,by simp⟩
  | badAddress errno =>
    cases done
    exact .inr ⟨by simp,by simp⟩
  | connects fd rets =>
    rcases post_connect_cases done with ⟨rfl,_,_,_,success⟩ | ⟨other,_,fails⟩
    · exact .inl ⟨rfl,fd,rets,rfl,success⟩
    · refine .inr ⟨other,fun fd' rets' same => ?_⟩
      cases same
      exact fails rfl (by simp)

end Connector

end Pworld.Net
