import Pworld.Support.Arrangement

/-! `table.shuffle` of the world scripts. The tables are by identity, each with its values
at the integer keys from 1 on; what `math.random` gives is taken from outside. -/
namespace Pworld.Script

open Arrangement

variable {V : Type}

/-- `none` is nil. -/
abbrev Fields (V : Type) := Nat → Option V

abbrev Tables (V : Type) := Nat → Fields V

/-- What the length operator may give. -/
def IsBorder (t : Fields V) (n : Nat) : Prop := (n = 0 ∨ (t n).isSome) ∧ t (n+1) = none

def Sequence (n : Nat) (t : Fields V) : Prop := ∀ k, 1 ≤ k → ((t k).isSome ↔ k ≤ n)

theorem Sequence.border {n m : Nat} {t : Fields V} (sequence : Sequence n t)
    (border : IsBorder t m) : m = n := by
  obtain ⟨last,beyond⟩ := border
  have most : ¬ m + 1 ≤ n := by
    intro less
    have there := (sequence (m+1) (Nat.succ_pos m)).mpr less
    rw [beyond] at there
    exact Bool.false_ne_true there
  rcases last with rfl | there
  · omega
  · rcases Nat.eq_zero_or_pos m with rfl | positive
    · omega
    · have := (sequence m positive).mp there
      omega

/-- `t[i], t[n] = t[n], t[i]` -/
def exchange (t : Fields V) (i n : Nat) : Fields V :=
  Function.update (Function.update t n (t i)) i (t n)

/-- `for i = 2, #t`; `random i` is what `math.random(i)` gives in the round for `i`. -/
def shuffled (random : Nat → Nat) (len : Nat) (t : Fields V) : Fields V :=
  (List.range' 2 (len-1)).foldl (fun t i => exchange t i (random i)) t

/-- `table.shuffle`, with `length` for the length operator. -/
def shuffle (random : Nat → Nat) (length : Fields V → Nat) (t : Option Nat) (heap : Tables V) :
    Option Nat × Tables V :=
  match t with
  | none => (none,heap)
  | some a => (some a,Function.update heap a (shuffled random (length (heap a)) (heap a)))

theorem exchange_eq (t : Fields V) (i n k : Nat) : exchange t i n k = t (Equiv.swap i n k) := by
  unfold exchange
  rcases eq_or_ne k i with rfl | first
  · rw [Function.update_self,Equiv.swap_apply_left]
  · rw [Function.update_of_ne first]
    rcases eq_or_ne k n with rfl | second
    · rw [Function.update_self,Equiv.swap_apply_right]
    · rw [Function.update_of_ne second,Equiv.swap_apply_of_ne_of_ne first second]

theorem shuffled_succ (random : Nat → Nat) (n : Nat) (t : Fields V) :
    shuffled random (n+2) t = exchange (shuffled random (n+1) t) (n+2) (random (n+2)) := by
  have rounds : List.range' 2 (n+1) = List.range' 2 n ++ [n+2] := by
    rw [List.range'_concat,Nat.one_mul,Nat.add_comm 2 n]
  simp only [shuffled,Nat.add_sub_cancel,Nat.add_succ_sub_one,rounds,List.foldl_append,
    List.foldl_cons,List.foldl_nil]

/-- The loop moves the elements as the arrangement of its draws says. -/
theorem shuffled_eq (random : Nat → Nat) (n : Nat) (t : Fields V) (k : Nat) :
    shuffled random n t k = t (arrangement random n k) := by
  induction n using Nat.twoStepInduction generalizing k with
  | zero => rfl
  | one => rfl
  | more n _ ih => rw [shuffled_succ,exchange_eq,ih,arrangement,Equiv.Perm.mul_apply]

open scoped Nat in
/-- Shuffling a sequence moves its elements in place by the permutation of its draws, each
permutation comes from one list of draws, and independent draws give each the same chance. -/
theorem shuffle_unbiased (length : Fields V → Nat) (n : Nat) :
    (∀ (heap : Tables V) (a : Nat) (r : Draws n),
      Sequence n (heap a) → IsBorder (heap a) (length (heap a)) → ∃ heap',
        shuffle r.draw length (some a) heap = (some a,heap') ∧
        (∀ k : Position n, heap' a k = heap a (r.permutation k)) ∧
        (∀ k, k ∉ Finset.Icc 1 n → heap' a k = heap a k) ∧
        ∀ b, b ≠ a → heap' b = heap b) ∧
    Function.Bijective (Draws.permutation : Draws n → Equiv.Perm (Position n)) ∧
    Fintype.card (Equiv.Perm (Position n)) = n ! ∧
    ∀ σ, (independent n).map Draws.permutation σ = (n ! : ENNReal)⁻¹ := by
  constructor
  · intro heap a r sequence border
    have len : length (heap a) = n := sequence.border border
    refine ⟨_,rfl,?_,?_,?_⟩
    · intro k
      rw [Function.update_self,len,shuffled_eq,r.permutation_val]
    · intro k out
      rw [Function.update_self,len,shuffled_eq,arrangement_keeps r.within k out]
    · intro b other
      exact Function.update_of_ne other ..
  · refine ⟨permutation_bijective n,card_permutations n,fun σ => ?_⟩
    rw [arranged_uniform,PMF.uniformOfFintype_apply,card_permutations]

def oneTwo : Fields Nat
  | 1 => some 10
  | 2 => some 20
  | _ => none

theorem oneTwo_sequence : Sequence 2 oneTwo := by
  intro k low
  rcases k with _ | _ | _ | k
  · omega
  · simp [oneTwo]
  · simp [oneTwo]
  · simp [oneTwo]

/-- Every draw is 1. -/
def lowest (n : Nat) : Draws n :=
  fun i => ⟨1,Finset.mem_Icc.mpr ⟨le_rfl,(Finset.mem_Icc.mp i.2).1.trans' one_le_two⟩⟩

theorem shuffle_unbiased_two :
    ∃ heap', shuffle (lowest 2).draw (fun _ => 2) (some 0) (fun _ => oneTwo) = (some 0,heap') ∧
      ∀ k : Position 2, heap' 0 k = oneTwo ((lowest 2).permutation k) := by
  have border : IsBorder oneTwo 2 := ⟨Or.inr rfl,rfl⟩
  obtain ⟨heap',returned,moved,_⟩ :=
    (shuffle_unbiased (fun _ => 2) 2).1 (fun _ => oneTwo) 0 (lowest 2) oneTwo_sequence border
  exact ⟨heap',returned,moved⟩

end Pworld.Script
