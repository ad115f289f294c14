import Pworld.Net.Connector
import Pworld.Net.Overlapped
import Pworld.Support.Runs

/-! The Windows connector. `Connect` goes on only where its socket is not associated with the
completion port, and then no completion of `ConnectEx` comes. -/
namespace Pworld.Net

/-- How the calls of `Connect` end: before `RegisterHandler`, or with what that returns and then
`ConnectEx`. The first error is that of `WSAGetLastError` after a `true`. -/
inductive WinConnect where
  | fails (err : Nat)
  | registers (registered : Bool) (err : Nat) (ret : Option Nat)
  deriving DecidableEq,Repr

structure WinConnector where
  _socket : Bool
  _status : ConnectorStatus
  _error : Nat
  _io_connect : Overlapped
  associated : Bool
  posted : List Flight  -- the completions of `Abort`
  connects : Nat  -- calls of `on_connect`
  errors : List Nat  -- and of `on_connect_error`
  deriving DecidableEq

inductive WinConnectorOp where
  | update
  | abort
  | connect (op : PollOp)
  | posted (i : Nat) (op : PollOp)
  deriving DecidableEq

namespace WinConnector

def new : WinConnector := ⟨false,.uninit,0,.new .connect 0,false,[],0,[]⟩

def _on_connect_error (c : WinConnector) (err : Nat) : WinConnector :=
  {c with _error := err, _status := .error}

def Connect (c : WinConnector) : WinConnect → Bool × WinConnector
  | .fails err => (false,{c with _status := .closed, _error := err})
  | .registers true err _ =>
    (false,{c with _status := .closed, _socket := false, _error := err, associated := true})
  | .registers false _ ret =>
    let c := {c with
      _status := .connecting
      _socket := true
      _io_connect := c._io_connect.start ret}
    match ret with
    | none => (true,c)
    | some err => (false,c._on_connect_error err)

def Abort (c : WinConnector) : WinConnector :=
  if c._io_connect.io._status = .pending then {c with posted := c.posted ++ [.queued (.success 0)]}
  else c

def Update (c : WinConnector) : WinConnector :=
  match c._status with
  | .connecting =>
    if c._io_connect.io._status = .completed then
      if c._io_connect.io._succ then {c with connects := c.connects + 1, _status := .closed}
      else c._on_connect_error c._io_connect.io._err
    else c
  | .error => {c with errors := c.errors ++ [c._error], _socket := false, _status := .closed}
  | _ => c

def step (c : WinConnector) : WinConnectorOp → Option WinConnector
  | .update => some c.Update
  | .abort => some c.Abort
  -- only an associated handle has its completions queued
  | .connect op =>
    if c.associated then (c._io_connect.poll op).map fun o => {c with _io_connect := o} else none
  | .posted i op =>
    c.posted[i]?.bind fun flight =>
      ((⟨c._io_connect.io,flight,false⟩ : Overlapped).poll op).map fun o =>
        {c with
          _io_connect := {c._io_connect with io := o.io}
          posted := c.posted.set i o.flight}

def WinConnect.refused : WinConnect → List Nat
  | .registers false _ (some err) => [err]
  | _ => []

/-- A connection is reported only after `Abort`; an error is that of the call of `ConnectEx`; it is
one of the two at most, and none where the registration succeeds; and without `Abort` a connector
that waits goes on waiting. -/
structure Deaf (i : WinConnect) (c : WinConnector) : Prop where
  once : c.connects + c.errors.length ≤ 1
  connects : c.connects ≠ 0 → c.posted ≠ []
  errors : ∀ err ∈ c.errors, err ∈ WinConnect.refused i
  registered : ∀ err ret, i = .registers true err ret → c.connects = 0 ∧ c.errors = []
  waits : ∀ err, i = .registers false err none → c.posted = [] → c._status = .connecting

structure Inv (i : WinConnect) (c : WinConnector) : Prop where
  deaf : Deaf i c
  live : c._status ≠ .closed → c.connects = 0 ∧ c.errors = []
  error : c._status = .error → c._error ∈ WinConnect.refused i
  closed : ∀ err ret, i = .registers true err ret → c._status = .closed
  flights : ∀ f ∈ c.posted, f = .queued (.success 0) ∨ f = .filled ∨ f = .called ∨ f = .none
  succ : .filled ∈ c.posted ∨ .called ∈ c.posted ∨ c._io_connect.io._status = .completed →
    c._io_connect.io._succ = true
  silent : c.posted = [] → c._io_connect.io._status ≠ .completed
  associated : c.associated = true →
    c._io_connect.flight = .none ∧ c._io_connect.io._status = .idle ∧ c.posted = []

/-- Nothing has happened at the port, and nothing is reported. -/
theorem fresh_inv {i : WinConnect} {c : WinConnector} (posted : c.posted = [])
    (none_ : c.connects = 0) (empty : c.errors = []) (early : c._io_connect.io._status ≠ .completed)
    (waits : ∀ err, i = .registers false err none → c._status = .connecting)
    (error : c._status = .error → c._error ∈ WinConnect.refused i)
    (closed : ∀ err ret, i = .registers true err ret → c._status = .closed)
    (associated : c.associated = true →
      c._io_connect.flight = .none ∧ c._io_connect.io._status = .idle) : Inv i c where
  deaf := by
    refine ⟨?_,fun some_ => absurd none_ some_,?_,fun _ _ _ => ⟨none_,empty⟩,
      fun err same _ => waits err same⟩
    · rw [none_,empty]
      exact Nat.zero_le _
    · intro err member
      rw [empty] at member
      exact absurd member List.not_mem_nil
  live := fun _ => ⟨none_,empty⟩
  error := error
  closed := closed
  flights := by
    intro f member
    rw [posted] at member
    exact absurd member List.not_mem_nil
  succ := by
    rw [posted]
    rintro (filled | called | completed)
    · exact absurd filled List.not_mem_nil
    · exact absurd called List.not_mem_nil
    · exact absurd completed early
  silent := fun _ => early
  associated := fun there => ⟨(associated there).1,(associated there).2,posted⟩

theorem connect_inv (i : WinConnect) : Inv i (new.Connect i).2 := by
  cases i with
  | fails err => apply fresh_inv <;> simp [Connect,new,Overlapped.new]
  | registers registered err ret =>
    cases registered with
    | true => apply fresh_inv <;> simp [Connect,new,Overlapped.new]
    | false =>
      cases ret with
      | none => apply fresh_inv <;> simp [Connect,new,Overlapped.start,Overlapped.Reset]
      | some e =>
        apply fresh_inv <;> simp [Connect,new,Overlapped.start,Overlapped.Reset,Overlapped.Error,
          _on_connect_error,WinConnect.refused]

theorem update_inv {i : WinConnect} {c : WinConnector} (inv : Inv i c) : Inv i c.Update := by
  obtain ⟨⟨once,connects,errors,registered,waits⟩,live,error,closed,flights,succ,silent,
    associated⟩ := inv
  unfold Update
  split
  next connecting =>
    obtain ⟨none_,empty⟩ := live (by rw [connecting]; decide)
    have open_ (err : Nat) (ret : Option Nat) (same : i = .registers true err ret) : False :=
      absurd (connecting.symm.trans (closed err ret same)) (by decide)
    split
    next completed =>
      rw [if_pos (succ (.inr (.inr completed)))]
      have posted : c.posted ≠ [] := fun none_ => silent none_ completed
      refine ⟨⟨?_,fun _ => posted,errors,fun err ret same => (open_ err ret same).elim,
        fun _ _ none_ => absurd none_ posted⟩,fun other => absurd rfl other,nofun,fun _ _ _ => rfl,
        flights,succ,silent,associated⟩
      rw [none_,empty]
      exact Nat.le_refl _
    next =>
      exact ⟨⟨once,connects,errors,registered,waits⟩,live,error,closed,flights,succ,silent,associated⟩
  next failed =>
    obtain ⟨none_,empty⟩ := live (by rw [failed]; decide)
    have refused := error failed
    refine ⟨⟨?_,connects,?_,?_,?_⟩,fun other => absurd rfl other,nofun,fun _ _ _ => rfl,flights,succ,
      silent,associated⟩
    · rw [none_,empty]
      exact Nat.le_refl _
    · intro err member
      rw [empty,List.nil_append,List.mem_singleton] at member
      rw [member]
      exact refused
    · intro err ret same
      exact absurd (failed.symm.trans (closed err ret same)) (by decide)
    · intro err same
      rw [same] at refused
      cases refused
  next => exact ⟨⟨once,connects,errors,registered,waits⟩,live,error,closed,flights,succ,silent,
      associated⟩

/-- A completion of `Abort` on its way through the port. -/
theorem posted_spec {io : PerIoData} {flight : Flight} {op : PollOp} {o : Overlapped}
    (sent : flight = .queued (.success 0) ∨ flight = .filled ∨ flight = .called ∨ flight = .none)
    (succ : flight = .filled ∨ flight = .called → io._succ = true)
    (went : (⟨io,flight,false⟩ : Overlapped).poll op = some o) :
    (o.flight = .filled ∨ o.flight = .called ∨ o.flight = .none) ∧ o.io._succ = true ∧
      (o.io._status = io._status ∨ o.io._status = .completed) := by
  cases op with
  | complete done data =>
    simp only [Overlapped.poll] at went
    split at went
    next ready => simp [ready.1] at sent
    next => cases went
  | dequeue =>
    simp only [Overlapped.poll] at went
    split at went
    next =>
      cases went
      exact ⟨.inl rfl,rfl,.inl rfl⟩
    next => simp at sent
    next => cases went
  | callback =>
    simp only [Overlapped.poll] at went
    split at went
    next filled =>
      cases went
      exact ⟨.inr (.inl rfl),succ (.inl filled),.inl rfl⟩
    next => cases went
  | finish =>
    simp only [Overlapped.poll] at went
    split at went
    next called =>
      cases went
      exact ⟨.inr (.inr rfl),succ (.inr called),.inr rfl⟩
    next => cases went

theorem step_inv (i : WinConnect) (c : WinConnector) (op : WinConnectorOp) (c' : WinConnector)
    (inv : Inv i c) (stepped : c.step op = some c') : Inv i c' := by
  cases op with
  | update =>
    cases stepped
    exact update_inv inv
  | abort =>
    cases stepped
    unfold Abort
    split
    next pending =>
      obtain ⟨⟨once,connects,errors,registered,waits⟩,live,error,closed,flights,succ,silent,
        associated⟩ := inv
      have more : c.posted ++ [.queued (.success 0)] ≠ [] :=
        List.append_ne_nil_of_right_ne_nil _ (List.cons_ne_nil _ _)
      refine ⟨⟨once,fun _ => more,errors,registered,fun _ _ none_ => absurd none_ more⟩,live,error,
        closed,?_,?_,fun none_ => absurd none_ more,?_⟩
      · intro f member
        rcases List.mem_append.mp member with old | new
        · exact flights f old
        · exact .inl (List.mem_singleton.mp new)
      · simpa using succ
      · intro there
        exact absurd ((associated there).2.1.symm.trans pending) (by decide)
    next => exact inv
  | connect op =>
    simp only [step] at stepped
    split at stepped
    next there =>
      obtain ⟨o,went,_⟩ := Option.map_eq_some_iff.mp stepped
      have none_ := (inv.associated there).1
      cases op <;> simp [Overlapped.poll,none_] at went
    next => cases stepped
  | posted n op =>
    simp only [step] at stepped
    obtain ⟨flight,at_,stepped⟩ := Option.bind_eq_some_iff.mp stepped
    obtain ⟨o,went,rfl⟩ := Option.map_eq_some_iff.mp stepped
    obtain ⟨⟨once,connects,errors,registered,waits⟩,live,error,closed,flights,succ,silent,
      associated⟩ := inv
    have member := List.mem_of_getElem? at_
    have some_ : c.posted ≠ [] := List.ne_nil_of_mem member
    have more : c.posted.set n o.flight ≠ [] := by
      rw [← List.length_pos_iff,List.length_set,List.length_pos_iff]
      exact some_
    obtain ⟨sent,done,status⟩ := posted_spec (flights flight member) (by
      rintro (rfl | rfl)
      · exact succ (.inl member)
      · exact succ (.inr (.inl member))) went
    refine ⟨⟨once,fun _ => more,errors,registered,fun _ _ none_ => absurd none_ more⟩,live,error,
      closed,?_,fun _ => done,fun none_ => absurd none_ more,?_⟩
    · intro f there
      rcases List.mem_or_eq_of_mem_set there with old | new
      · exact flights f old
      · rw [new]
        exact .inr sent
    · exact fun there => absurd (associated there).2.2 some_

/-- In whatever order `Update`, `Abort` and the poller take turns. -/
theorem win_connector_deaf (i : WinConnect) (ops : List WinConnectorOp) :
    Runs.Always step (Deaf i) (new.Connect i).2 ops :=
  Runs.always_of_pres (Inv i) (fun _ inv => inv.deaf) (step_inv i) (connect_inv i)

end WinConnector

end Pworld.Net
