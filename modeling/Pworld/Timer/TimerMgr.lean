import Pworld.Support.Runs
import Mathlib.Algebra.Order.Group.Nat

/-! The timer manager. `Update` is a walk over `lstTimers` in which each callback may
create and cancel timers, so it is cut where a callback starts and returns. -/
namespace Pworld.Timing

def u16 (n : Nat) : Nat := n % 2^16
def u32 (n : Nat) : Nat := n % 2^32
def u64 (n : Nat) : Nat := n % 2^64

structure Timer where
  serial : Nat  -- the object: timers are numbered as they are made
  born : Option Nat  -- the pass of `Update` that it was made in, if any
  count_time : Nat
  interval : Nat
  tid : Nat
  once : Nat
  canceled : Bool
  func : Option Nat
  param : Nat
  cb : Option Nat
  deriving DecidableEq,Repr

namespace Timer

def SetOnce (t : Timer) (r : Nat) : Timer := {t with once := u16 r}
def SetCancel (t : Timer) : Timer := {t with canceled := true}
def SetInteval (t : Timer) (itv : Nat) : Timer := {t with interval := u32 itv}

def new (serial : Nat) (born : Option Nat) : Timer :=
  ⟨serial,born,0,0,0,1,false,none,0,none⟩

/-- There is something to call. -/
def callable (t : Timer) : Bool := t.func.isSome || t.cb.isSome

/-- `count_time + interval >= now` -/
def due (t : Timer) (now : Nat) : Bool := u64 (t.count_time + t.interval) ≥ now

end Timer

/-- Where `Update` is: not running, at the timer `i`, or in the callback of the timer `i`. -/
inductive Walk where
  | idle
  | scan (now i : Nat)
  | call (now i : Nat)
  deriving DecidableEq,Repr

inductive Event where
  | created (serial tick itv : Nat) (born : Option Nat)
  -- a timer with a callback and not cancelled was reached; `ran` if the callback was called
  | looked (serial now pass : Nat) (ran : Bool)
  | fired (serial now : Nat)  -- it stays, with its time counted from `now`
  deriving DecidableEq,Repr

def Event.serial : Event → Nat
  | .created serial _ _ _ => serial
  | .looked serial _ _ _ => serial
  | .fired serial _ => serial

structure TimerMgr where
  maker : Nat
  lstTimers : List Timer
  lstNewTimer : List Timer
  in_process : Bool
  walk : Walk
  pass : Nat  -- passes of `Update` begun
  clock : Nat  -- the last tick read
  made : Nat
  freed : List Nat
  log : List Event
  released : Bool
  deriving DecidableEq

inductive TimerOp where
  | createCb (tick itv : Nat) (cb : Option Nat) (once : Nat)
  | createFunc (tick itv : Nat) (func : Option Nat) (param once : Nat)
  | cancel (tid : Nat)
  | update (tick : Nat)
  | visit
  | ret
  | leave
  | release
  deriving DecidableEq,Repr

namespace TimerMgr

def new : TimerMgr := ⟨0,[],[],false,.idle,0,0,0,[],[],false⟩

def bornIn (s : TimerMgr) : Option Nat := if s.in_process then some s.pass else none

def newTimer (s : TimerMgr) (tick itv once : Nat) : Timer :=
  let t := {Timer.new s.made s.bornIn with count_time := tick}
  {(t.SetInteval itv).SetOnce once with tid := u32 (s.maker + 1)}

/-- Both `CreateTimer`: they differ in the fields that say what to call. -/
def createTimer (s : TimerMgr) (t : Timer) : TimerMgr :=
  let s := {s with
    maker := t.tid
    clock := t.count_time
    made := s.made + 1
    log := s.log ++ [Event.created s.made t.count_time t.interval s.bornIn]}
  if s.in_process then {s with lstNewTimer := s.lstNewTimer ++ [t]}
  else {s with lstTimers := s.lstTimers ++ [t]}

def CreateTimerCb (s : TimerMgr) (tick itv : Nat) (cb : Option Nat) (once : Nat) : TimerMgr :=
  s.createTimer {s.newTimer tick itv once with cb := cb}

def CreateTimerFunc (s : TimerMgr) (tick itv : Nat) (func : Option Nat) (param once : Nat) :
    TimerMgr :=
  s.createTimer {s.newTimer tick itv once with func := func, param := param}

/-- The place of a timer in the one list or else in the other. -/
def GetTimer (s : TimerMgr) (tid : Nat) : Option (Nat ⊕ Nat) :=
  match s.lstTimers.findIdx? (fun t => t.tid == tid) with
  | some i => some (.inl i)
  | none => (s.lstNewTimer.findIdx? (fun t => t.tid == tid)).map .inr

def CancelTimer (s : TimerMgr) (tid : Nat) : TimerMgr :=
  match s.GetTimer tid with
  | some (.inl i) => {s with lstTimers := s.lstTimers.modify i Timer.SetCancel}
  | some (.inr i) => {s with lstNewTimer := s.lstNewTimer.modify i Timer.SetCancel}
  | none => s

/-- `delete pTimer; it = lstTimers.erase(it); continue;` -/
def erase (s : TimerMgr) (now i : Nat) (t : Timer) : TimerMgr :=
  {s with lstTimers := s.lstTimers.eraseIdx i, freed := s.freed ++ [t.serial], walk := .scan now i}

/-- What follows the call of a callback. -/
def after (s : TimerMgr) (now i : Nat) (t : Timer) : TimerMgr :=
  if t.once ≠ 0 then s.erase now i t
  else {s with
    lstTimers := s.lstTimers.set i {t with count_time := now}
    walk := .scan now (i+1)
    log := s.log ++ [.fired t.serial now]}

def look (s : TimerMgr) (now : Nat) (t : Timer) (ran : Bool) : TimerMgr :=
  if t.callable then {s with log := s.log ++ [.looked t.serial now s.pass ran]} else s

def visit (s : TimerMgr) (now i : Nat) (t : Timer) : TimerMgr :=
  if t.canceled then s.erase now i t
  else if t.due now then
    let s := s.look now t true
    if t.callable then {s with walk := .call now i} else s.after now i t
  else {s.look now t false with walk := .scan now (i+1)}

/-- The callback has returned. -/
def ret (s : TimerMgr) (now i : Nat) (t : Timer) : TimerMgr := s.after now i t

def leave (s : TimerMgr) : TimerMgr :=
  {s with
    in_process := false
    walk := .idle
    lstTimers := s.lstTimers ++ s.lstNewTimer
    lstNewTimer := []}

def _release (s : TimerMgr) : TimerMgr :=
  {s with
    freed := s.freed ++ s.lstTimers.map Timer.serial ++ s.lstNewTimer.map Timer.serial
    lstTimers := []
    lstNewTimer := []
    released := true}

/-- Code outside runs: none of `Update` does, or one of its callbacks. -/
def outside (s : TimerMgr) : Bool :=
  match s.walk with
  | .scan _ _ => false
  | _ => !s.released

def readTick (s : TimerMgr) (tick : Nat) : Prop := s.clock ≤ tick ∧ tick < 2^64

instance (s : TimerMgr) (tick : Nat) : Decidable (s.readTick tick) :=
  inferInstanceAs (Decidable (_ ∧ _))

def step (s : TimerMgr) : TimerOp → Option TimerMgr
  | .createCb tick itv cb once =>
    if s.outside ∧ s.readTick tick then some (s.CreateTimerCb tick itv cb once) else none
  | .createFunc tick itv func param once =>
    if s.outside ∧ s.readTick tick then some (s.CreateTimerFunc tick itv func param once) else none
  | .cancel tid => if s.outside then some (s.CancelTimer tid) else none
  | .update tick =>
    if s.walk = .idle ∧ s.outside ∧ s.readTick tick then
      some {s with in_process := true, walk := .scan tick 0, pass := s.pass + 1, clock := tick}
    else none
  | .visit =>
    match s.walk with
    | .scan now i => (s.lstTimers[i]?).map (s.visit now i)
    | _ => none
  | .ret =>
    match s.walk with
    | .call now i => (s.lstTimers[i]?).map (s.ret now i)
    | _ => none
  | .leave =>
    match s.walk with
    | .scan _ i => if s.lstTimers.length ≤ i then some s.leave else none
    | _ => none
  | .release => if s.walk = .idle ∧ s.outside then some s._release else none

end TimerMgr

end Pworld.Timing
