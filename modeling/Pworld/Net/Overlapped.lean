import Pworld.Net.Message

/-! An operation of the Windows poller: what a `PerIoData` holds, and how far the operation
that was started with it has come. -/
namespace Pworld.Net

inductive IoStatus where
  | idle
  | error
  | pending
  | completed
  deriving DecidableEq,Repr

inductive IoType where
  | connect
  | accept
  | send
  | recv
  | post
  | disconnect
  deriving DecidableEq,Repr

structure PerIoData where
  _type : IoType
  _status : IoStatus
  _err : Nat
  _succ : Bool
  _bytes : Nat
  _data : Bytes
  deriving DecidableEq,Repr

/-- How the kernel ends an operation. -/
inductive Done where
  | success (bytes : Nat)
  | failure (err bytes : Nat)
  deriving DecidableEq,Repr

/-- How many bytes it has put into the buffer of a read. -/
def Done.stored : Done → Nat
  | .success bytes => bytes
  | .failure _ _ => 0

/-- Where an operation is: with the kernel, in the completion port, or with a thread of the
poller that has filled the fields in, and then has called back. -/
inductive Flight where
  | none
  | kernel
  | queued (done : Done)
  | filled
  | called
  deriving DecidableEq,Repr

/-- A `PerIoData` and the operation that was started with it last. `doubled` tells that one
was started while another was under way. -/
structure Overlapped where
  io : PerIoData
  flight : Flight
  doubled : Bool
  deriving DecidableEq,Repr

/-- What the kernel and the threads of the poller do with an operation. -/
inductive PollOp where
  | complete (done : Done) (data : Bytes)
  | dequeue
  | callback
  | finish
  deriving DecidableEq,Repr

/-- The data of a read that has come with it. -/
def PollOp.brings : PollOp → Bytes
  | .complete _ data => data
  | _ => []

namespace Overlapped

-- what the memory holds is not read before it is written
def new (type : IoType) (size : Nat) : Overlapped :=
  ⟨⟨type,.idle,0,false,0,List.replicate size 0⟩,.none,false⟩

def Reset (o : Overlapped) : Overlapped :=
  {o with io := {o.io with _status := .pending, _err := 0, _succ := false, _bytes := 0}}

def Error (o : Overlapped) (err : Nat) : Overlapped :=
  {o with io := {o.io with _err := err, _status := .error}}

/-- `Reset`, the call, and `Error` where it fails other than with `WSA_IO_PENDING`. -/
def start (o : Overlapped) (ret : Option Nat) : Overlapped :=
  match ret with
  | none => {o.Reset with flight := .kernel, doubled := o.doubled || o.flight != .none}
  | some err => o.Reset.Error err

def idle (o : Overlapped) : Overlapped := {o with io := {o.io with _status := .idle}}

/-- One step of the kernel, or of a thread in the loop around `GetQueuedCompletionStatus`. -/
def poll (o : Overlapped) : PollOp → Option Overlapped
  | .complete done data =>
    if o.flight = .kernel ∧ data.length ≤ o.io._data.length ∧
        (o.io._type = .recv → data.length = done.stored) then
      some {o with
        io := {o.io with _data := Bytes.overwrite o.io._data 0 data}
        flight := .queued done}
    else none
  | .dequeue =>
    match o.flight with
    | .queued (.success bytes) => some {o with
        io := {o.io with _err := 0, _succ := true, _bytes := bytes}, flight := .filled}
    | .queued (.failure err bytes) => some {o with
        io := {o.io with _err := err, _succ := false, _bytes := bytes}, flight := .filled}
    | _ => none
  | .callback => if o.flight = .filled then some {o with flight := .called} else none
  | .finish =>
    if o.flight = .called then
      some {o with io := {o.io with _status := .completed}, flight := .none}
    else none

/-- It is under way exactly while its status is pending. -/
structure Ok (o : Overlapped) : Prop where
  pending : o.io._status = .pending ↔ o.flight ≠ .none
  single : o.doubled = false

theorem new_ok (type : IoType) (size : Nat) : (new type size).Ok := ⟨by simp [new],rfl⟩

theorem Ok.quiet {o : Overlapped} (ok : o.Ok) (status : o.io._status ≠ .pending) :
    o.flight = .none := by
  by_contra flying
  exact status (ok.pending.mpr flying)

theorem start_ok {o : Overlapped} (ok : o.Ok) (status : o.io._status = .idle) (ret : Option Nat) :
    (o.start ret).Ok := by
  have quiet : o.flight = .none := ok.quiet (by simp [status])
  cases ret with
  | none => exact ⟨by simp [start,Reset],by simp [start,Reset,quiet,ok.single]⟩
  | some err => exact ⟨by simp [start,Reset,Error,quiet],ok.single⟩

theorem idle_ok {o : Overlapped} (ok : o.Ok) (status : o.io._status = .completed) :
    o.idle.Ok :=
  ⟨by simp [idle,ok.quiet (by simp [status])],ok.single⟩

/-- What one step of the kernel or the poller does: it is taken only while the operation is
under way, and it is the last one that writes the status. -/
theorem poll_ok {o o' : Overlapped} {op : PollOp} (ok : o.Ok) (went : o.poll op = some o') :
    o'.Ok ∧ o.io._status = .pending ∧
      (o'.io._status = .pending ∨ o'.io._status = .completed) := by
  have flying (here : o.flight ≠ .none) : o.io._status = .pending := ok.pending.mpr here
  cases op with
  | complete done data =>
    simp only [poll] at went
    split at went
    next ready =>
      cases went
      have status := flying (by simp [ready.1])
      exact ⟨⟨by simp [status],ok.single⟩,status,.inl status⟩
    next => cases went
  | dequeue =>
    simp only [poll] at went
    split at went
    next bytes flight =>
      cases went
      have status := flying (by simp [flight])
      exact ⟨⟨by simp [status],ok.single⟩,status,.inl status⟩
    next err bytes flight =>
      cases went
      have status := flying (by simp [flight])
      exact ⟨⟨by simp [status],ok.single⟩,status,.inl status⟩
    next => cases went
  | callback =>
    simp only [poll] at went
    split at went
    next filled =>
      cases went
      have status := flying (by simp [filled])
      exact ⟨⟨by simp [status],ok.single⟩,status,.inl status⟩
    next => cases went
  | finish =>
    simp only [poll] at went
    split at went
    next called =>
      cases went
      exact ⟨⟨by simp,ok.single⟩,flying (by simp [called]),.inr rfl⟩
    next => cases went

/-- What the kernel has put into the buffer and the session has not looked at. -/
def undelivered (o : Overlapped) : Bytes :=
  match o.flight with
  | .kernel => []
  | .queued done => o.io._data.take done.stored
  | .filled | .called => if o.io._succ then o.io._data.take o.io._bytes else []
  | .none =>
    if o.io._status = .completed ∧ o.io._succ = true then o.io._data.take o.io._bytes else []

/-- Nothing has come with an operation that was not completed. -/
theorem Ok.undelivered {o : Overlapped} (ok : o.Ok) (status : o.io._status = .idle) (ret : Option Nat) :
    o.undelivered = [] ∧ (o.start ret).undelivered = [] := by
  have quiet := ok.quiet (by simp [status])
  refine ⟨by simp [Overlapped.undelivered,quiet,status],?_⟩
  cases ret with
  | none => rfl
  | some err => simp [Overlapped.undelivered,start,Reset,Error,quiet]

end Overlapped

end Pworld.Net
