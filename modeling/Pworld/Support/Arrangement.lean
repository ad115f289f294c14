import Mathlib.Data.Fintype.Perm
import Mathlib.Probability.Distributions.Uniform
import Mathlib.Algebra.BigOperators.Ring.Finset

/-! Random arrangements of the positions `1..n`: the position `i` is swapped with one drawn
from `1..i`, for each `i` from 2 on. The draws correspond one to one to the permutations. -/
namespace Pworld.Arrangement

open Equiv
open scoped ENNReal Nat

/-- What the swaps up to the position `n` come to: the position of the element that is
at `k` in the end. -/
def arrangement (r : Nat → Nat) : Nat → Perm Nat
  | 0 => 1
  | 1 => 1
  | n+2 => arrangement r (n+1) * swap (n+2) (r (n+2))

/-- Each draw for a position is one of the positions up to it. -/
def Within (r : Nat → Nat) (n : Nat) : Prop := ∀ i, 2 ≤ i → i ≤ n → 1 ≤ r i ∧ r i ≤ i

/-- A permutation of the positions `1..n`. -/
def Keeps (n : Nat) (σ : Perm Nat) : Prop := ∀ k, k ∉ Finset.Icc 1 n → σ k = k

variable {r r' : Nat → Nat} {n : Nat}

theorem Within.mono {m : Nat} (within : Within r n) (less : m ≤ n) : Within r m :=
  fun i low high => within i low (high.trans less)

theorem Keeps.mul {σ τ : Perm Nat} (first : Keeps n σ) (second : Keeps n τ) :
    Keeps n (σ * τ) := by
  intro k out
  rw [Perm.mul_apply,second k out,first k out]

theorem keeps_swap {i j : Nat} (one : i ∈ Finset.Icc 1 n) (other : j ∈ Finset.Icc 1 n) :
    Keeps n (swap i j) := by
  intro k out
  apply swap_apply_of_ne_of_ne
  · exact fun same => out (same ▸ one)
  · exact fun same => out (same ▸ other)

theorem Keeps.mono {m : Nat} {σ : Perm Nat} (keeps : Keeps m σ) (less : m ≤ n) : Keeps n σ := by
  intro k out
  apply keeps k
  intro member
  exact out (Finset.Icc_subset_Icc_right less member)

theorem arrangement_keeps (within : Within r n) : Keeps n (arrangement r n) := by
  induction n using Nat.twoStepInduction with
  | zero => exact fun _ _ => rfl
  | one => exact fun _ _ => rfl
  | more n _ ih =>
    have before := ih (within.mono (Nat.le_succ _))
    have drawn := within (n+2) (Nat.le_add_left 2 n) le_rfl
    apply (before.mono (Nat.le_succ _)).mul
    apply keeps_swap
    · exact Finset.mem_Icc.mpr ⟨Nat.succ_pos _,le_rfl⟩
    · exact Finset.mem_Icc.mpr drawn

/-- The last draw is where the last element goes. -/
theorem arrangement_last (within : Within r (n+2)) :
    arrangement r (n+2) (r (n+2)) = n + 2 := by
  have before := arrangement_keeps (within.mono (Nat.le_succ (n+1)))
  rw [arrangement,Perm.mul_apply,swap_apply_right]
  apply before
  intro member
  have := (Finset.mem_Icc.mp member).2
  omega

/-- No two lists of draws give the same arrangement. -/
theorem arrangement_injective (within : Within r n) (within' : Within r' n)
    (same : arrangement r n = arrangement r' n) : ∀ i, 2 ≤ i → i ≤ n → r i = r' i := by
  induction n using Nat.twoStepInduction with
  | zero => intro i low high; omega
  | one => intro i low high; omega
  | more n _ ih =>
    have last : r (n+2) = r' (n+2) := by
      apply (arrangement r (n+2)).injective
      rw [arrangement_last within,same,arrangement_last within']
    have rest : arrangement r (n+1) = arrangement r' (n+1) := by
      rw [arrangement,arrangement,last] at same
      exact mul_right_cancel same
    intro i low high
    rcases Nat.lt_or_eq_of_le high with lower | rfl
    · apply ih (within.mono (Nat.le_succ _)) (within'.mono (Nat.le_succ _)) rest i low
      exact Nat.le_of_lt_succ lower
    · exact last

theorem arrangement_congr (same : ∀ i, 2 ≤ i → i ≤ n → r i = r' i) :
    arrangement r n = arrangement r' n := by
  induction n using Nat.twoStepInduction with
  | zero => rfl
  | one => rfl
  | more n _ ih =>
    rw [arrangement,arrangement,same (n+2) (Nat.le_add_left 2 n) le_rfl]
    rw [ih fun i low high => same i low (high.trans (Nat.le_succ _))]

theorem Keeps.source {σ : Perm Nat} {k : Nat} (keeps : Keeps n σ) (inside : k ∈ Finset.Icc 1 n) :
    σ.symm k ∈ Finset.Icc 1 n := by
  by_contra out
  have same := keeps _ out
  rw [apply_symm_apply] at same
  exact out (same ▸ inside)

/-- With the last element swapped back to the end, a permutation of the others is left. -/
theorem Keeps.without_last {σ : Perm Nat} (keeps : Keeps (n+1) σ) :
    Keeps n (σ * swap (n+1) (σ.symm (n+1))) := by
  have inside : n + 1 ∈ Finset.Icc 1 (n+1) := Finset.mem_Icc.mpr ⟨Nat.succ_pos _,le_rfl⟩
  intro k out
  rcases eq_or_ne k (n+1) with rfl | other
  · rw [Perm.mul_apply,swap_apply_left,apply_symm_apply]
  · have outer : k ∉ Finset.Icc 1 (n+1) := by
      intro member
      obtain ⟨low,high⟩ := Finset.mem_Icc.mp member
      exact out (Finset.mem_Icc.mpr ⟨low,by omega⟩)
    rw [Perm.mul_apply,keeps_swap inside (keeps.source inside) k outer]
    exact keeps k outer

/-- Each permutation is the arrangement of some draws. -/
theorem arrangement_surjective {σ : Perm Nat} (keeps : Keeps n σ) :
    ∃ r, Within r n ∧ arrangement r n = σ := by
  induction n using Nat.twoStepInduction generalizing σ with
  | zero =>
    refine ⟨id,fun i low high => by omega,?_⟩
    ext k
    rw [keeps k (by simp)]
    rfl
  | one =>
    refine ⟨id,fun i low high => by omega,?_⟩
    ext k
    rcases eq_or_ne k 1 with rfl | other
    · by_contra moved
      -- what 1 goes to would be kept in place too
      have out : σ 1 ∉ Finset.Icc 1 1 := fun member => moved (Finset.mem_singleton.mp member).symm
      exact moved (σ.injective (keeps _ out)).symm
    · rw [keeps k fun member => other (Finset.mem_singleton.mp member)]
      rfl
  | more n _ ih =>
    have last := keeps.source (Finset.mem_Icc.mpr ⟨Nat.succ_pos _,le_rfl⟩)
    obtain ⟨r,within,made⟩ := ih keeps.without_last
    let r' := Function.update r (n+2) (σ.symm (n+2))
    have agree : ∀ i, 2 ≤ i → i ≤ n + 1 → r' i = r i := fun i _ high =>
      Function.update_of_ne (by omega) _ _
    have drawn : r' (n+2) = σ.symm (n+2) := Function.update_self ..
    refine ⟨r',fun i low high => ?_,?_⟩
    · rcases Nat.lt_or_eq_of_le high with lower | rfl
      · rw [agree i low (Nat.le_of_lt_succ lower)]
        exact within i low (Nat.le_of_lt_succ lower)
      · rw [drawn]
        exact Finset.mem_Icc.mp last
    · rw [arrangement,arrangement_congr agree,made,drawn,mul_assoc,swap_mul_self,mul_one]

/-- One draw from `1..i` for each `i` from 2 to `n`. -/
abbrev Draws (n : Nat) : Type := ∀ i : Finset.Icc 2 n, Finset.Icc 1 i.1

/-- The positions of `n` elements. -/
abbrev Position (n : Nat) : Type := Finset.Icc 1 n

def Draws.draw (r : Draws n) (i : Nat) : Nat :=
  if inside : i ∈ Finset.Icc 2 n then (r ⟨i,inside⟩).1 else 1

theorem Draws.draw_of_mem (r : Draws n) {i : Nat} (inside : i ∈ Finset.Icc 2 n) :
    r.draw i = (r ⟨i,inside⟩).1 := dif_pos inside

theorem Draws.within (r : Draws n) : Within r.draw n := by
  intro i low high
  have inside := Finset.mem_Icc.mpr ⟨low,high⟩
  rw [r.draw_of_mem inside]
  exact Finset.mem_Icc.mp (r ⟨i,inside⟩).2

/-- The permutation of the positions that the draws make. -/
def Draws.permutation (r : Draws n) : Perm (Position n) :=
  (Perm.subtypeEquivSubtypePerm fun k => k ∈ Finset.Icc 1 n).symm
    ⟨arrangement r.draw n,arrangement_keeps r.within⟩

theorem Draws.permutation_val (r : Draws n) (k : Position n) :
    (r.permutation k).1 = arrangement r.draw n k.1 := rfl

theorem permutation_bijective (n : Nat) :
    Function.Bijective (Draws.permutation : Draws n → Perm (Position n)) := by
  constructor
  · intro r r' same
    have equal := congrArg Subtype.val (Equiv.injective _ same)
    ext i
    have range := Finset.mem_Icc.mp i.2
    have drawn := arrangement_injective r.within r'.within equal i.1 range.1 range.2
    rwa [r.draw_of_mem i.2,r'.draw_of_mem i.2] at drawn
  · intro σ
    let whole := Perm.subtypeEquivSubtypePerm (fun k => k ∈ Finset.Icc 1 n) σ
    obtain ⟨r,within,made⟩ := arrangement_surjective whole.2
    let draws : Draws n := fun i =>
      ⟨r i.1,Finset.mem_Icc.mpr (within i.1 (Finset.mem_Icc.mp i.2).1 (Finset.mem_Icc.mp i.2).2)⟩
    have agree : ∀ i, 2 ≤ i → i ≤ n → draws.draw i = r i := fun i low high =>
      draws.draw_of_mem (Finset.mem_Icc.mpr ⟨low,high⟩)
    refine ⟨draws,?_⟩
    rw [Draws.permutation,Equiv.symm_apply_eq]
    exact Subtype.ext ((arrangement_congr agree).trans made)

theorem card_permutations (n : Nat) : Fintype.card (Perm (Position n)) = n ! := by
  rw [Fintype.card_perm,Fintype.card_coe,Nat.card_Icc,Nat.add_sub_cancel]

instance nonempty_choices (i : Finset.Icc 2 n) : Nonempty (Finset.Icc 1 i.1) :=
  ⟨1,Finset.mem_Icc.mpr ⟨le_rfl,(Finset.mem_Icc.mp i.2).1.trans' one_le_two⟩⟩

/-- Independent draws, each uniform: the probability of the whole is the product. -/
noncomputable def independent (n : Nat) : PMF (Draws n) :=
  PMF.ofFintype (fun r => ∏ i, PMF.uniformOfFintype (Finset.Icc 1 i.1) (r i)) (by
    rw [← Fintype.piFinset_univ,← Finset.prod_univ_sum]
    apply Finset.prod_eq_one
    intro i _
    rw [← tsum_fintype (L := .unconditional _)]
    exact PMF.tsum_coe _)

theorem independent_uniform (n : Nat) :
    independent n = PMF.uniformOfFintype (Draws n) := by
  ext r
  rw [independent,PMF.ofFintype_apply,PMF.uniformOfFintype_apply,Fintype.card_pi,Nat.cast_prod]
  rw [ENNReal.prod_inv_distrib]
  · exact Finset.prod_congr rfl fun i _ => PMF.uniformOfFintype_apply _
  · intro i _ j _ _
    exact Or.inr (ENNReal.natCast_ne_top _)

/-- A bijection carries a uniform distribution to a uniform one. -/
theorem map_uniform {α β : Type} [Fintype α] [Nonempty α] [Fintype β] [Nonempty β] {f : α → β}
    (bijective : Function.Bijective f) :
    (PMF.uniformOfFintype α).map f = PMF.uniformOfFintype β := by
  ext b
  obtain ⟨a,rfl⟩ := bijective.2 b
  rw [PMF.map_apply,tsum_eq_single a]
  · rw [if_pos rfl,PMF.uniformOfFintype_apply,PMF.uniformOfFintype_apply,
      Fintype.card_of_bijective bijective]
  · intro a' other
    exact if_neg fun same => other (bijective.1 same).symm

theorem arranged_uniform (n : Nat) :
    (independent n).map Draws.permutation = PMF.uniformOfFintype (Perm (Position n)) := by
  rw [independent_uniform]
  exact map_uniform (permutation_bijective n)

end Pworld.Arrangement
