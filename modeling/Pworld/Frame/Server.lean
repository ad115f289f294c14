import Pworld.Net.Receive
import Pworld.Support.Runs

/-! The frame loop of the server with its client sessions, the poller thread and the
kernel's registrations. The two threads take turns between the critical sections:
a callback, an `Update`, a `delete` and a handled message are one step each. -/
namespace Pworld.Frame

open Net

inductive Phase where
  | idle
  | visiting (n : Nat)  -- `CNetMgr::Update` is at client `n`
  | disposing (n : Nat)  -- its `Update` has returned
  | dispatching
  deriving DecidableEq,Repr

/-- A use of a `CompletionKey` by the poller thread. -/
structure Access where
  key : Nat
  alive : Bool
  deriving DecidableEq,Repr

structure Dispatch where
  msg : Message
  alive : Bool
  deriving DecidableEq

structure Server where
  clients : List Session
  env : Env
  phase : Phase
  t1 : Nat
  interval : Nat
  next : Nat
  armed : List Nat
  batch : List (Nat × Nat)  -- keys and masks out of `epoll_wait`, not yet called back
  current : Option Nat  -- called back, `key->status` not yet written
  accesses : List Access
  dispatched : List Dispatch
  deriving DecidableEq

inductive ServerOp where
  | accept (socket : Int) (now : Nat)
  | collect (ready : List (Nat × Nat))
  | callback
  | complete
  | frame (t1 : Nat)
  | visit (i : UpdateIn)
  | dispose
  | leave
  | dispatch (tick : Nat)
  deriving DecidableEq

def maxEventCount : Nat := 128

namespace Server

def start (interval : Nat) : Server where
  clients := []
  env := .initial
  phase := .idle
  t1 := 0
  interval := interval
  next := 0
  armed := []
  batch := []
  current := none
  accesses := []
  dispatched := []

/-- The object with this key is still in `m_lstClients`, which only `delete` leaves. -/
def keyAlive (s : Server) (key : Nat) : Bool := s.clients.any fun c => c.key == some key

def alive (s : Server) (ptr : Option Nat) : Bool := s.clients.any fun c => some c.id == ptr

-- the descriptor's registration goes with the descriptor
def poll (c : Session) (armed : List Nat) : Call → List Nat
  | .register (some key) _ => if key ∈ armed then armed else armed ++ [key]
  | .close => armed.filter fun key => c.key ≠ some key
  | _ => armed

def onAccepted (s : Server) (socket : Int) (now : Nat) : Server :=
  {s with
    clients := s.clients ++ [(Ctx.attached s.next s.next now socket none s.next s.env).self]
    next := s.next + 1}

def find (s : Server) (ptr : Option Nat) : Option (Nat × Session) :=
  (s.clients.findIdx? fun c => some c.id == ptr).bind fun n => (s.clients[n]?).map fun c => (n,c)

def onMsg (s : Server) (m : Message) : Option Server :=
  let log := s.dispatched ++ [⟨m,s.alive m.ptr⟩]
  if m.opcode = 0 then some {s with dispatched := log}
  else
    match s.find m.ptr with
    | none => some {s with dispatched := log}  -- `Send` on a deleted session: not described
    | some (n,c) =>
      match (⟨c,s.env⟩ : Ctx).send m.bytes with
      | none => none
      | some d => some {s with
          clients := s.clients.set n d.self, env := d.env, dispatched := log}

def freeMsg (s : Server) (m : Message) : Server :=
  {s with env := {s.env with recvQue := s.env.recvQue.freeMessage m}}

/-- Client `n` is deleted if it is `Disposable`. -/
def dispose (s : Server) (n : Nat) (c : Session) : Server :=
  if c.Disposable then {s with
    clients := s.clients.eraseIdx n
    env := (⟨c,s.env⟩ : Ctx).destroy.env
    phase := .visiting n}
  else {s with phase := .visiting (n+1)}

def step (s : Server) : ServerOp → Option Server
  -- `_mutex_clients` is free and the socket is one that `accept4` returned
  | .accept socket now =>
    if 0 ≤ socket ∧ (s.phase = .idle ∨ s.phase = .dispatching) then some (s.onAccepted socket now)
    else none
  | .collect ready =>
    if s.batch = [] ∧ s.current = none ∧ ready.length ≤ maxEventCount ∧
        (ready.map Prod.fst).Nodup ∧ ∀ e ∈ ready, e.1 ∈ s.armed ∧ e.2 ≠ 0 then
      some {s with
        armed := s.armed.filter fun key => key ∉ ready.map Prod.fst
        batch := ready}
    else none
  | .callback =>
    match s.batch,s.current with
    | (key,events)::rest,none => some {s with
        clients := s.clients.map fun c => if c.key = some key then c.sessionCb events else c
        batch := rest
        current := some key
        accesses := s.accesses ++ [⟨key,s.keyAlive key⟩]}
    | _,_ => none
  | .complete =>
    match s.current with
    | some key => some {s with
        current := none
        accesses := s.accesses ++ [⟨key,s.keyAlive key⟩]}
    | none => none
  | .frame t1 =>
    if s.phase = .idle then some {s with phase := .visiting 0, t1 := t1} else none
  | .visit i =>
    match s.phase with
    | .visiting n =>
      match s.clients[n]? with
      | none => none
      | some c =>
        match (⟨c,s.env⟩ : Ctx).update i with
        | none => none
        | some d => some {s with
            clients := s.clients.set n d.self
            env := d.env
            phase := .disposing n
            armed := (d.self.trace.drop c.trace.length).foldl (poll c) s.armed}
    | _ => none
  | .dispose =>
    match s.phase with
    | .disposing n => (s.clients[n]?).map (s.dispose n)
    | _ => none
  | .leave =>
    match s.phase with
    | .visiting n => if s.clients.length ≤ n then some {s with phase := .dispatching} else none
    | _ => none
  | .dispatch tick =>
    if s.phase = .dispatching then
      match s.env.recvQue.popMessage with
      | (none,_) => some {s with phase := .idle}
      | (some m,que) =>
        (({s with env := {s.env with recvQue := que}} : Server).onMsg m).map fun s =>
          {s.freeMsg m with
            phase := if s.interval ≤ u64 (tick + 2^64 - u64 s.t1) then .idle else .dispatching}
    else none

end Server

end Pworld.Frame
