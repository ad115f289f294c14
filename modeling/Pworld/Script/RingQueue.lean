import Pworld.Support.Machine
import Mathlib.Tactic.NormNum

/-! The ring queue of the world scripts, over the 64-bit integers of Lua, and the
bounded queue that it is meant to be. -/
namespace Pworld.Script

/-- Integer arithmetic of Lua wraps around. -/
def wrap (n : Int) : Int := (n + 2^63) % 2^64 - 2^63

def maxInteger : Int := 2^63 - 1

theorem wrap_small {n : Int} (low : -2^63 ≤ n) (high : n < 2^63) : wrap n = n := by
  unfold wrap
  omega

inductive QueueOp (α : Type) where
  | push (e : Option α)  -- `none` is nil
  | pop
  | head
  | size
  | full
  | empty

inductive QueueRet (α : Type) where
  | nothing
  | bool (b : Bool)
  | integer (n : Int)
  | value (e : Option α)
  deriving DecidableEq

variable {α : Type}

structure RingQueue (α : Type) where
  _head : Int
  _tail : Int
  _QMAX : Int
  slots : Int → Option α  -- `self[i]`

namespace RingQueue

def ctor (n : Option Int) : RingQueue α := ⟨-1,-1,n.getD 8,fun _ => none⟩

def ptr_inc (self : RingQueue α) (ptr : Int) : Int :=
  let ptr := wrap (ptr + 1)
  if ptr > self._QMAX then 1 else ptr

def empty (self : RingQueue α) : Bool := self._head == -1

def full (self : RingQueue α) : Bool := self.ptr_inc self._tail == self._head

def push (self : RingQueue α) (e : Option α) : Bool × RingQueue α :=
  if self.full then (false,self)
  else
    let self := if self.empty then {self with _head := 1, _tail := 1}
      else {self with _tail := self.ptr_inc self._tail}
    (true,{self with slots := Function.update self.slots self._tail e})

def pop (self : RingQueue α) : RingQueue α :=
  if self.empty then self
  else if self._head = self._tail then {self with _head := -1, _tail := -1}
  else {self with _head := self.ptr_inc self._head}

def head (self : RingQueue α) : Option α :=
  if self.empty then none else self.slots self._head

def size (self : RingQueue α) : Int :=
  if self.empty then 0
  else
    let n := wrap (self._tail - self._head)
    let n := if n < 0 then wrap (n + self._QMAX) else n
    wrap (n + 1)

def step (self : RingQueue α) : QueueOp α → QueueRet α × RingQueue α
  | .push e => (.bool (self.push e).1,(self.push e).2)
  | .pop => (.nothing,self.pop)
  | .head => (.value self.head,self)
  | .size => (.integer self.size,self)
  | .full => (.bool self.full,self)
  | .empty => (.bool self.empty,self)

end RingQueue

/-- A queue of at most `n` elements, the oldest one first. -/
structure Fifo (α : Type) (n : Nat) where
  items : List (Option α)
  bounded : items.length ≤ n

namespace Fifo

variable {n : Nat}

def new (α : Type) (n : Nat) : Fifo α n := ⟨[],Nat.zero_le n⟩

def step (q : Fifo α n) : QueueOp α → QueueRet α × Fifo α n
  | .push e =>
    if room : q.items.length < n then
      (.bool true,⟨q.items ++ [e],by rw [List.length_append]; exact room⟩)
    else (.bool false,q)
  | .pop => (.nothing,⟨q.items.tail,by have := q.bounded; rw [List.length_tail]; omega⟩)
  | .head => (.value q.items.head?.join,q)
  | .size => (.integer q.items.length,q)
  | .full => (.bool (q.items.length == n),q)
  | .empty => (.bool q.items.isEmpty,q)

end Fifo

namespace RingQueue

/-- The index of the element number `i` of a ring of `n` slots from `head` on. -/
def slot (n head i : Nat) : Nat := if head + i ≤ n then head + i else head + i - n

theorem slot_inj {n head i j : Nat} (first : i < n) (second : j < n)
    (same : slot n head i = slot n head j) : i = j := by
  unfold slot at same
  split_ifs at same <;> omega

theorem slot_range {n head i : Nat} (low : 1 ≤ head) (high : head ≤ n) (inside : i < n) :
    1 ≤ slot n head i ∧ slot n head i ≤ n := by
  unfold slot
  split_ifs <;> omega

/-- What the fields say of the elements held. -/
inductive Holds (n : Nat) (self : RingQueue α) : List (Option α) → Prop where
  | empty (head : self._head = -1) (tail : self._tail = -1) : Holds n self []
  | filled {items : List (Option α)} (first : Nat) (low : 1 ≤ first) (high : first ≤ n)
    (some_ : 0 < items.length) (room : items.length ≤ n) (head : self._head = first)
    (tail : self._tail = slot n first (items.length-1))
    (slots : ∀ i, (inside : i < items.length) → self.slots (slot n first i) = items[i]) :
    Holds n self items

/-- The ring with capacity `n` and the queue of `n` elements that it stands for. -/
structure Refines {n : Nat} (self : RingQueue α) (q : Fifo α n) : Prop where
  qmax : self._QMAX = n
  holds : Holds n self q.items

section Simulation

variable {n : Nat} {self : RingQueue α} {items : List (Option α)}

theorem ptr_inc_slot (fits : n < 2^63-1) (qmax : self._QMAX = n) {first i : Nat}
    (low : 1 ≤ first) (high : first ≤ n) (inside : i < n) :
    self.ptr_inc (slot n first i) = slot n first (i+1) := by
  have range := slot_range low high inside
  rw [ptr_inc,wrap_small (by omega) (by omega),qmax]
  unfold slot at *
  split_ifs at * <;> omega

theorem filled_valid {first : Nat} (head : self._head = first) : self.empty = false := by
  rw [empty,beq_eq_false_iff_ne]
  omega

theorem empty_eq (holds : Holds n self items) : self.empty = items.isEmpty := by
  cases holds with
  | empty head tail => simp [empty,head]
  | filled first low high some_ room head tail slots =>
    have nonempty : items ≠ [] := List.length_pos_iff.mp some_
    simp [filled_valid head,nonempty]

/-- The slot after the last element is the first one again exactly in a ring with
no slot left. -/
theorem full_eq (one : 1 ≤ n) (fits : n < 2^63-1) (qmax : self._QMAX = n)
    (holds : Holds n self items) : self.full = (items.length == n) := by
  cases holds with
  | empty head tail =>
    have after : self.ptr_inc self._tail = 0 := by
      rw [ptr_inc,tail,wrap_small (by omega) (by omega),qmax]
      exact if_neg (by omega)
    have other : (0 == n) = false := by
      rw [beq_eq_false_iff_ne]
      omega
    rw [full,after,head,List.length_nil,other]
    rfl
  | filled first low high some_ room head tail slots =>
    have after : self.ptr_inc self._tail = slot n first items.length := by
      rw [tail,ptr_inc_slot fits qmax low high (by omega),Nat.sub_add_cancel some_]
    rw [full,after,head,Bool.eq_iff_iff,beq_iff_eq,beq_iff_eq]
    unfold slot
    split_ifs <;> omega

theorem head_eq (holds : Holds n self items) : self.head = items.head?.join := by
  cases holds with
  | empty head tail => simp [RingQueue.head,empty,head]
  | filled first low high some_ room head tail slots =>
    have here : slot n first 0 = first := by
      unfold slot
      split_ifs <;> omega
    obtain ⟨e,rest,same⟩ := List.exists_cons_of_length_pos some_
    subst same
    have value := slots 0 some_
    rw [here] at value
    rw [RingQueue.head,filled_valid head,head,value]
    rfl

theorem size_eq (fits : n < 2^63-1) (qmax : self._QMAX = n) (holds : Holds n self items) :
    self.size = items.length := by
  cases holds with
  | empty head tail => simp [size,empty,head]
  | filled first low high some_ room head tail slots =>
    have range := slot_range low high (show items.length-1 < n by omega)
    have distance : wrap (self._tail - self._head) = slot n first (items.length-1) - first := by
      rw [tail,head]
      exact wrap_small (by omega) (by omega)
    have count : (if (slot n first (items.length-1) - first : Int) < 0 then
        wrap ((slot n first (items.length-1) - first : Int) + n)
        else (slot n first (items.length-1) - first : Int)) = items.length - 1 := by
      by_cases around : first + (items.length-1) ≤ n
      · have here : slot n first (items.length-1) = first + (items.length-1) := if_pos around
        rw [here,if_neg (by omega)]
        omega
      · have here : slot n first (items.length-1) = first + (items.length-1) - n := if_neg around
        rw [here,if_pos (by omega),wrap_small (by omega) (by omega)]
        omega
    simp only [size,filled_valid head,distance,qmax,count,Bool.false_eq_true,if_false]
    rw [wrap_small (by omega) (by omega)]
    omega

theorem push_full (one : 1 ≤ n) (fits : n < 2^63-1) (qmax : self._QMAX = n)
    (holds : Holds n self items) (none_left : items.length = n) (e : Option α) :
    self.push e = (false,self) := by
  rw [push,full_eq one fits qmax holds,none_left,beq_self_eq_true]
  rfl

theorem push_room (one : 1 ≤ n) (fits : n < 2^63-1) (qmax : self._QMAX = n)
    (holds : Holds n self items) (room : items.length < n) (e : Option α) :
    (self.push e).1 = true ∧ (self.push e).2._QMAX = n ∧
      Holds n (self.push e).2 (items ++ [e]) := by
  have open_ : self.full = false := by
    rw [full_eq one fits qmax holds,beq_eq_false_iff_ne]
    omega
  cases holds with
  | empty head tail =>
    have vacant : self.empty = true := by rw [empty,head]; rfl
    have pushed : self.push e = (true,⟨1,1,self._QMAX,Function.update self.slots 1 e⟩) := by
      simp [push,open_,vacant]
    rw [pushed]
    refine ⟨rfl,qmax,.filled 1 (Nat.le_refl 1) one (by simp) (by simpa using one) rfl ?_ ?_⟩
    · simp [slot,one]
    · intro i inside
      have first : i = 0 := by simpa using inside
      subst first
      simp [slot,one]
  | filled first low high some_ bound head tail slots =>
    have next : self.ptr_inc self._tail = slot n first items.length := by
      rw [tail,ptr_inc_slot fits qmax low high (by omega),Nat.sub_add_cancel some_]
    have pushed : self.push e = (true,⟨self._head,slot n first items.length,self._QMAX,
        Function.update self.slots (slot n first items.length) e⟩) := by
      simp [push,open_,filled_valid head,next]
    rw [pushed]
    refine ⟨rfl,qmax,.filled first low high (by simp) ?_ head ?_ ?_⟩
    · rw [List.length_append]
      exact room
    · simp
    · intro i inside
      rw [List.length_append,List.length_singleton] at inside
      by_cases last : i = items.length
      · subst last
        simp
      · -- the new element takes none of the slots in use
        have before : i < items.length := by omega
        have apart : (slot n first i : Int) ≠ slot n first items.length := by
          intro same
          exact last (slot_inj (by omega) room (Int.ofNat_inj.mp same))
        rw [List.getElem_append_left before,← slots i before]
        exact Function.update_of_ne apart e self.slots

theorem slot_next {first i : Nat} (high : first ≤ n) (inside : i + 1 < n) :
    slot n (slot n first 1) i = slot n first (i+1) := by
  unfold slot
  split_ifs <;> omega

theorem pop_holds (fits : n < 2^63-1) (qmax : self._QMAX = n) (holds : Holds n self items) :
    self.pop._QMAX = n ∧ Holds n self.pop items.tail := by
  cases holds with
  | empty head tail =>
    have vacant : self.empty = true := by rw [empty,head]; rfl
    have popped : self.pop = self := by simp [pop,vacant]
    rw [popped]
    exact ⟨qmax,.empty head tail⟩
  | filled first low high some_ room head tail slots =>
    have here : slot n first 0 = first := by
      unfold slot
      split_ifs <;> omega
    by_cases last : items.length = 1
    · have same : self._head = self._tail := by rw [tail,head,last,here]
      have popped : self.pop = {self with _head := -1, _tail := -1} := by
        rw [pop,filled_valid head,if_neg Bool.false_ne_true,if_pos same]
      have nothing : items.tail = [] := by
        rw [← List.length_eq_zero_iff,List.length_tail,last]
      rw [popped,nothing]
      exact ⟨qmax,.empty rfl rfl⟩
    · have apart : self._head ≠ self._tail := by
        rw [tail,head]
        intro same
        have zero := slot_inj (by omega) (by omega) (here.trans (Int.ofNat_inj.mp same))
        omega
      have next : self.ptr_inc self._head = slot n first 1 := by
        have inc := ptr_inc_slot fits qmax low high (show 0 < n by omega)
        rwa [here,← head] at inc
      have popped : self.pop = {self with _head := slot n first 1} := by
        rw [pop,filled_valid head,if_neg Bool.false_ne_true,if_neg apart,next]
      have range := slot_range low high (show 1 < n by omega)
      have size : items.tail.length = items.length - 1 := List.length_tail
      rw [popped]
      refine ⟨qmax,.filled _ range.1 range.2 (by omega) (by omega) rfl ?_ ?_⟩
      · simp only
        rw [tail,size,slot_next high (by omega)]
        congr 2
        omega
      · intro i inside
        simp only
        rw [slot_next high (by omega),slots (i+1) (by omega),List.getElem_tail]

theorem refines_step {q : Fifo α n} (one : 1 ≤ n) (fits : n < 2^63-1) (refines : self.Refines q)
    (op : QueueOp α) :
    (self.step op).1 = (q.step op).1 ∧ (self.step op).2.Refines (q.step op).2 := by
  obtain ⟨qmax,holds⟩ := refines
  have bounded := q.bounded
  cases op with
  | push e =>
    by_cases room : q.items.length < n
    · obtain ⟨done,qmax',holds'⟩ := push_room one fits qmax holds room e
      simp only [step,Fifo.step,dif_pos room,done]
      exact ⟨trivial,qmax',holds'⟩
    · have refused := push_full one fits qmax holds (by omega) e
      simp only [step,Fifo.step,dif_neg room,refused]
      exact ⟨trivial,qmax,holds⟩
  | pop => exact ⟨rfl,(pop_holds fits qmax holds).1,(pop_holds fits qmax holds).2⟩
  | head => exact ⟨congrArg _ (head_eq holds),qmax,holds⟩
  | size => exact ⟨congrArg _ (size_eq fits qmax holds),qmax,holds⟩
  | full => exact ⟨congrArg _ (full_eq one fits qmax holds),qmax,holds⟩
  | empty => exact ⟨congrArg _ (empty_eq holds),qmax,holds⟩

end Simulation

/-- The ring queue answers every sequence of calls as the bounded queue does. -/
theorem ring_fifo (n : Nat) (one : 1 ≤ n) (fits : (n : Int) < maxInteger) (ops : List (QueueOp α)) :
    Machine.answers step (ctor (some n)) ops = Machine.answers Fifo.step (Fifo.new α n) ops := by
  have start : (ctor (some (n : Int)) : RingQueue α).Refines (Fifo.new α n) :=
    ⟨rfl,.empty rfl rfl⟩
  have small : n < 2^63-1 := by simp only [maxInteger] at fits; omega
  exact (Machine.answers_sim Refines (fun _ _ op related => refines_step one small related op)
    start ops).1

/-- Two elements, then one in and one out again and again, until the indices have
gone once round the integers. -/
def circling : List (QueueOp Nat) :=
  [.push (some 1),.push (some 2)] ++
    (List.replicate (2^64-2) [.push (some 3),.pop]).flatten

/-- Two elements held, `j` places on from where a queue starts. -/
structure Circled (j : Nat) (ring : RingQueue Nat) : Prop where
  head : ring._head = wrap (1+j)
  tail : ring._tail = wrap (2+j)
  qmax : ring._QMAX = maxInteger

/-- The ring of `maxInteger` slots does not come round by itself. -/
theorem ptr_inc_max {self : RingQueue α} (qmax : self._QMAX = maxInteger) (ptr : Int) :
    self.ptr_inc ptr = wrap (ptr + 1) := by
  rw [ptr_inc,qmax]
  apply if_neg
  simp only [wrap,maxInteger]
  omega

theorem wrap_succ (n : Int) : wrap (wrap n + 1) = wrap (n + 1) := by
  simp only [wrap]
  omega

theorem circled_push {j : Nat} {self : RingQueue Nat} (below : j < 2^64-2)
    (circled : Circled j self) (e : Option Nat) :
    (self.push e).2._head = wrap (1+j) ∧ (self.push e).2._tail = wrap (3+j) ∧
      (self.push e).2._QMAX = maxInteger := by
  obtain ⟨head,tail,qmax⟩ := circled
  have next : self.ptr_inc self._tail = wrap (3+j) := by
    rw [ptr_inc_max qmax,tail,wrap_succ]
    exact congrArg wrap (by omega)
  have open_ : self.full = false := by
    rw [full,next,head,beq_eq_false_iff_ne]
    simp only [wrap]
    omega
  have valid : self.empty = false := by
    rw [empty,head,beq_eq_false_iff_ne]
    simp only [wrap]
    omega
  simp only [push,open_,valid,Bool.false_eq_true,if_false,next]
  exact ⟨head,trivial,qmax⟩

theorem circled_round {j : Nat} {self : RingQueue Nat} (below : j < 2^64-2)
    (circled : Circled j self) (e : Option Nat) :
    Circled (j+1) (Machine.final step self [.push e,.pop]) := by
  obtain ⟨head,tail,qmax⟩ := circled_push below circled e
  have valid : (self.push e).2.empty = false := by
    rw [empty,head,beq_eq_false_iff_ne]
    simp only [wrap]
    omega
  have apart : (self.push e).2._head ≠ (self.push e).2._tail := by
    rw [head,tail]
    simp only [wrap]
    omega
  have after : Machine.final step self [.push e,.pop] = (self.push e).2.pop := rfl
  rw [after,pop,valid,if_neg Bool.false_ne_true,if_neg apart]
  refine ⟨?_,?_,qmax⟩
  · rw [ptr_inc_max qmax,head,wrap_succ]
    exact congrArg wrap (by omega)
  · rw [tail]
    exact congrArg wrap (by omega)

theorem circled_circling :
    Circled (2^64-2) (Machine.final step (ctor (some maxInteger)) circling) := by
  rw [circling,Machine.final_append]
  exact Machine.final_rounds _ Circled (fun j _ below circled => circled_round below circled _)
    ⟨by decide,by decide,rfl⟩

theorem circling_length {n : Nat} (three : 3 ≤ n) :
    (Machine.final Fifo.step (Fifo.new Nat n) circling).items.length = 2 := by
  rw [circling,Machine.final_append]
  refine Machine.final_rounds _ (fun _ (q : Fifo Nat n) => q.items.length = 2) ?_ ?_
  · intro j q _ two
    have room : 2 < n := by omega
    simp [Machine.final,Fifo.step,room,two]
  · have one : 0 < n := by omega
    have two : 1 < n := by omega
    simp [Machine.final,Fifo.step,Fifo.new,one,two]

/-- With as many slots as the largest integer, the index of the oldest element comes
to be the mark of the empty queue. -/
theorem ring_fifo_circling : Machine.answers step (ctor (some maxInteger)) (circling ++ [.empty]) ≠
    Machine.answers Fifo.step (Fifo.new Nat maxInteger.toNat) (circling ++ [.empty]) := by
  intro same
  rw [Machine.answers_append,Machine.answers_append] at same
  have last := (List.append_inj same (by rw [Machine.answers_length,Machine.answers_length])).2
  have ring : (Machine.final step (ctor (some maxInteger)) circling).empty = true := by
    rw [empty,circled_circling.head]
    decide
  have length := circling_length (n := maxInteger.toNat) (by decide)
  have fifo : (Machine.final Fifo.step (Fifo.new Nat maxInteger.toNat) circling).items.isEmpty =
      false := by
    rw [List.isEmpty_eq_false_iff_exists_mem]
    exact List.exists_mem_of_length_pos (by omega)
  simp only [Machine.answers,step,Fifo.step,ring,fifo] at last
  cases last

theorem ring_fifo_small : Machine.answers step (ctor (some 2))
    [.push (some 1),.push none,.push (some 3),.pop,.push (some 3),.head,.size] =
    Machine.answers Fifo.step (Fifo.new Nat 2)
      [.push (some 1),.push none,.push (some 3),.pop,.push (some 3),.head,.size] :=
  ring_fifo 2 (by decide) (by decide) _

end RingQueue

end Pworld.Script
