import Pworld.Buffer.ByteBuffer

/-! How far a string read looks. The length comes from a C-string scan that starts at the
read cursor and knows nothing of the write cursor. -/
namespace Pworld.ByteBuffer

open Net

/-- The indices at which `operator >>` of a string looks: all up to the zero byte it finds,
and all there are where the memory has none. -/
def Inspects (b : ByteBuffer) (i : Nat) : Prop :=
  match b.terminator with
  | some n => b.rdPtr ≤ i ∧ i ≤ b.rdPtr + n
  | none => b.rdPtr ≤ i

/-- A string read looks at nothing but what can be read, and takes a string that ends there. -/
structure Bounded (b : ByteBuffer) : Prop where
  looks : ∀ i, b.Inspects i → b.rdPtr ≤ i ∧ i < b.wrPtr
  succeeds : b.getStr.1.isSome = true ↔ 0 ∈ b.readable
  consumes : ∀ str, b.getStr.1 = some str → 0 ∉ str ∧ ∃ rest, b.readable = str ++ 0 :: rest ∧
    b.getStr.2 = {b with rdPtr := b.rdPtr + (str.length + 1)}
  keeps : b.getStr.1 = none → b.getStr.2 = b

theorem mem_split {bs : Bytes} (zero : 0 ∈ bs) : ∃ str rest, 0 ∉ str ∧ bs = str ++ 0 :: rest := by
  obtain ⟨str,rest,whole,plain⟩ := List.eq_append_cons_of_mem zero
  exact ⟨str,rest,plain,whole⟩

theorem terminator_readable {b : ByteBuffer} {n : Nat} (found : b.terminator = some n)
    (early : n < b.wrPtr - b.rdPtr) : 0 ∈ b.readable := by
  obtain ⟨block,buffer,at_⟩ := Option.bind_eq_some_iff.mp found
  obtain ⟨bound,zero,_⟩ := List.findIdx?_eq_some_iff_getElem.mp at_
  rw [beq_iff_eq] at zero
  rw [readable,load,buffer,← zero]
  apply List.mem_iff_getElem.mpr
  exact ⟨n,by rw [List.length_take]; omega,List.getElem_take⟩

theorem getStr_bounded {b : ByteBuffer} (word : b.wrPtr < 2^32) :
    b.Bounded ↔ 0 ∈ b.readable := by
  constructor
  · intro bounded
    cases found : b.terminator with
    | none =>
      have past := bounded.looks (max b.rdPtr b.wrPtr) (by
        rw [Inspects,found]
        exact Nat.le_max_left _ _)
      omega
    | some n =>
      have last := bounded.looks (b.rdPtr + n) (by
        rw [Inspects,found]
        exact ⟨Nat.le_add_right _ _,Nat.le_refl _⟩)
      exact terminator_readable found (by omega)
  · intro zero
    obtain ⟨str,rest,plain,ends⟩ := mem_split zero
    have length := readable_le b
    rw [ends,List.length_append,List.length_cons] at length
    have taken := getStr_ends word plain ends
    refine ⟨?_,?_,?_,?_⟩
    · intro i looks
      rw [Inspects,terminator_ends plain ends] at looks
      omega
    · rw [taken]
      exact iff_of_true rfl zero
    · intro str' came
      rw [taken] at came ⊢
      cases came
      exact ⟨plain,rest,ends,rfl⟩
    · intro failed
      rw [taken] at failed
      cases failed

theorem getStr_bounded_hi : ((ByteBuffer.new 4 (some [0,0,0,9])).putStr [104,105]).Bounded :=
  (getStr_bounded (by decide)).mpr (by decide)

/-- One byte can be read, and the scan goes on to what an earlier string left behind. -/
theorem getStr_overruns : ¬(((ByteBuffer.new 4 (some [65,66,67,0])).putInt 1 65).Bounded) := by
  intro bounded
  have past := bounded.looks 3 ⟨by decide,by decide⟩
  exact absurd past.2 (by decide)

end Pworld.ByteBuffer
