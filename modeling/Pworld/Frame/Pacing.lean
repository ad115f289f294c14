import Pworld.Net.Message
import Pworld.Support.Runs
import Mathlib.Algebra.Order.Group.Nat
import Mathlib.Data.List.Chain

/-! The clock of the frame loop: when frames begin, what time `on_update` is told has passed, and
how many messages a frame leaves for the next. -/
namespace Pworld.Frame.Pacing

open Net (u32 u64)

/-- One frame: the messages that come before `on_update` returns, and what `get_current_tick`
gives at its beginning, after every message, at the end, and after `on_update_idle`. -/
structure FrameIn (α : Type) where
  arrived : List α
  t1 : Nat
  ticks : List Nat
  t2 : Nat
  t3 : Nat
  deriving DecidableEq,Repr

structure FrameLoop (α : Type) where
  m_interval : UInt32
  _prev_tick : Nat
  queue : List α
  now : Nat  -- when `Sleep` was due to return
  arrived : List α
  handled : List α
  starts : List Nat
  dts : List Nat
  deriving DecidableEq,Repr

/-- A `uint64` difference. -/
def elapsed (later earlier : Nat) : Nat := u64 (later + 2^64 - u64 earlier)

/-- The clock does not go back, and its values are `uint64`. -/
def reads (now tick : Nat) : Bool := decide (now ≤ tick) && decide (tick < 2^64)

variable {α : Type}

/-- The loop around `PopMessage`: the messages handled, those left and the last reading. -/
def pump (interval t1 : Nat) : Nat → List α → List Nat → Option (List α × List α × Nat)
  | now,[],[] => some ([],[],now)
  | now,m::ms,tick::ticks =>
    if reads now tick then
      if interval ≤ elapsed tick t1 then
        match ticks with
        | [] => some ([m],ms,tick)
        | _::_ => none
      else (pump interval t1 tick ms ticks).map fun (done,rest,now) => (m::done,rest,now)
    else none
  | _,_,_ => none

/-- `td` and the reading it is from. -/
def measure (i : FrameIn α) : Nat × Nat :=
  if elapsed i.t2 i.t1 < 5 then (elapsed i.t3 i.t1,i.t3) else (elapsed i.t2 i.t1,i.t2)

/-- What `Sleep` is called with, or zero where the frame is busy. `td` is cut to 32 bits. -/
def pause (interval td : Nat) : Nat := if u32 td < interval then interval - u32 td else 0

def frame (s : FrameLoop α) (i : FrameIn α) : Option (FrameLoop α) :=
  if reads s.now i.t1 then
    match pump s.m_interval.toNat i.t1 i.t1 (s.queue ++ i.arrived) i.ticks with
    | none => none
    | some (done,rest,now) =>
      if reads now i.t2 && (decide (5 ≤ elapsed i.t2 i.t1) || reads i.t2 i.t3) then
        let m := measure i
        some {s with
          _prev_tick := i.t1
          queue := rest
          now := m.2 + pause s.m_interval.toNat m.1
          arrived := s.arrived ++ i.arrived
          handled := s.handled ++ done
          starts := s.starts ++ [i.t1]
          dts := s.dts ++ [elapsed i.t1 s._prev_tick]}
      else none
  else none

/-- After `on_start`. -/
def start (α : Type) (m_interval : UInt32) (tick : Nat) : FrameLoop α :=
  ⟨m_interval,tick,[],tick,[],[],[],[]⟩

namespace FrameLoop

/-- Three messages, the first of which spends the budget of its frame. -/
def crowded : List (FrameIn Nat) := [⟨[1,2,3],1000,[1045],1046,0⟩]

/-- A frame with some time left, and one in which nothing happens. -/
def calm : List (FrameIn Nat) := [⟨[],1050,[1051,1060],1061,0⟩,⟨[],1090,[],1090,1092⟩]

end FrameLoop

end Pworld.Frame.Pacing
