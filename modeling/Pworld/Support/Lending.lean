import Mathlib.Data.List.Perm.Basic
import Mathlib.Data.List.Nodup

/-! Numbers that are given out, and given out again once they are back. What the places of a
program hold is what is out, each number in one place, and only numbers that are out come back. -/
namespace Pworld

universe u
variable {α : Type u}

/-- The numbers that are out, and each return with whether the number was out. -/
structure Lending (α : Type u) where
  out : List α
  returns : List (α × Bool)
  deriving DecidableEq

namespace Lending

def none : Lending α := ⟨[],[]⟩

def lend (l : Lending α) (n : α) : Lending α := {l with out := n::l.out}

def back [DecidableEq α] (l : Lending α) (n : α) : Lending α where
  out := l.out.erase n
  returns := l.returns ++ [(n,decide (n ∈ l.out))]

structure Holds (l : Lending α) (held : List α) : Prop where
  same : held.Perm l.out
  once : l.out.Nodup
  own : ∀ r ∈ l.returns, r.2 = true

variable {l : Lending α} {held held' : List α} {n : α}

theorem holds_none : (none : Lending α).Holds [] :=
  ⟨.refl [],List.nodup_nil,fun _ member => absurd member List.not_mem_nil⟩

theorem Holds.perm (holds : l.Holds held) (same : held'.Perm held) : l.Holds held' :=
  ⟨same.trans holds.same,holds.once,holds.own⟩

theorem Holds.lend (holds : l.Holds held) (fresh : n ∉ l.out) : (l.lend n).Holds (n::held) :=
  ⟨holds.same.cons n,List.nodup_cons.mpr ⟨fresh,holds.once⟩,holds.own⟩

variable [DecidableEq α]

theorem Holds.back (holds : l.Holds (n::held)) : (l.back n).Holds held := by
  have there : n ∈ l.out := holds.same.mem_iff.mp List.mem_cons_self
  refine ⟨?_,holds.once.erase n,?_⟩
  · have left := holds.same.erase n
    rwa [List.erase_cons_head] at left
  · intro r member
    rcases List.mem_append.mp member with old | new
    · exact holds.own r old
    · rw [List.mem_singleton.mp new]
      exact decide_eq_true there

/-- Several numbers come back one after the other. -/
theorem Holds.back_all {ns : List α} (holds : l.Holds (ns ++ held)) :
    (ns.foldl Lending.back l).Holds held := by
  induction ns generalizing l with
  | nil => exact holds
  | cons n ns ih => exact ih holds.back

end Lending

end Pworld
