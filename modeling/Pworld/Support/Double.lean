import Mathlib.Algebra.Order.Group.Nat
import Mathlib.Algebra.Order.Ring.Nat
import Mathlib.Tactic.Ring
import Mathlib.Data.Nat.Log

/-! IEEE binary64 as far as conversions to and from integers look at it. A finite
magnitude is counted in units of the least subnormal, so that the values of all
finite doubles are exact. -/
namespace Pworld

inductive Double where
  | nan
  | inf (neg : Bool)
  | fin (neg : Bool) (mag : Nat)
  deriving DecidableEq,Repr

namespace Double

def unitExp : Nat := 1074
def unit : Nat := 2^unitExp

def ofBits (b : BitVec 64) : Double :=
  let neg := b.getLsbD 63
  let exp := b.toNat / 2^52 % 2^11
  let frac := b.toNat % 2^52
  if exp = 2^11-1 then if frac = 0 then .inf neg else .nan
  else if exp = 0 then .fin neg frac
  else .fin neg ((2^52 + frac) * 2^(exp-1))

/-- A natural number rounded to 53 significant bits, ties to even. -/
def round (n : Nat) : Nat :=
  if n < 2^53 then n
  else
    let k := n.log2 - 52
    let q := n / 2^k
    let r := n % 2^k
    (if 2*r < 2^k ∨ (2*r = 2^k ∧ q % 2 = 0) then q else q+1) * 2^k

/-- `(double)n` of an integer of 64 bits, signed or not. -/
def ofInt (n : Int) : Double := .fin (n < 0) (round n.natAbs * unit)

/-- `v >= 0` -/
def nonneg : Double → Bool
  | .nan => false
  | .inf neg => !neg
  | .fin neg mag => !neg || mag == 0

/-- The integer that truncation gives, if there is one. -/
def trunc : Double → Option Int
  | .fin neg mag => some (if neg then -((mag / unit : Nat) : Int) else (mag / unit : Nat))
  | _ => none

/-- The integer that a double is, if it is one. -/
def int? : Double → Option Int
  | .fin neg mag =>
    if mag % unit = 0 then
      some (if neg then -((mag / unit : Nat) : Int) else (mag / unit : Nat))
    else none
  | _ => none

/-- `v == (double)n` -/
def eqInt (v : Double) (n : Int) : Bool :=
  v.int? == some (if n < 0 then -(round n.natAbs : Int) else round n.natAbs)

/-- Numbers of at most 53 significant bits. -/
def Short (n : Nat) : Prop := ∃ m k, m < 2^53 ∧ n = m * 2^k

/-- `(uint64)v` and `(int64)v`; `wild` is what comes out where C++ defines nothing. -/
def toUInt64 (wild : Double → BitVec 64) (v : Double) : Nat :=
  match v.trunc with
  | some n => if 0 ≤ n ∧ n < 2^64 then n.toNat else (wild v).toNat
  | none => (wild v).toNat

def toInt64 (wild : Double → BitVec 64) (v : Double) : Int :=
  match v.trunc with
  | some n => if -2^63 ≤ n ∧ n < 2^63 then n else (wild v).toInt
  | none => (wild v).toInt

theorem round_small {n : Nat} (small : n < 2^53) : round n = n := if_pos small

theorem round_range {n : Nat} (large : ¬ n < 2^53) :
    ∃ q k, round n = q * 2^k ∧ 2^52 ≤ q ∧ q ≤ 2^53 ∧ k + 52 = n.log2 := by
  have nonzero : n ≠ 0 := by omega
  have bits : 53 ≤ n.log2 := (Nat.le_log2 nonzero).mpr (by omega)
  have low : 2^n.log2 ≤ n := Nat.log2_self_le nonzero
  have high : n < 2^(n.log2+1) := Nat.lt_log2_self
  have step : 2^52 * 2^(n.log2-52) = 2^n.log2 := by
    rw [← pow_add]
    congr 1
    omega
  have lower : 2^52 ≤ n / 2^(n.log2-52) :=
    (Nat.le_div_iff_mul_le (Nat.two_pow_pos _)).mpr (by rw [step]; exact low)
  have upper : n / 2^(n.log2-52) < 2^53 := by
    apply (Nat.div_lt_iff_lt_mul (Nat.two_pow_pos _)).mpr
    have double : 2^53 * 2^(n.log2-52) = 2^(n.log2+1) := by
      rw [← pow_add]
      congr 1
      omega
    rw [double]
    exact high
  refine ⟨if 2*(n % 2^(n.log2-52)) < 2^(n.log2-52) ∨
    (2*(n % 2^(n.log2-52)) = 2^(n.log2-52) ∧ n / 2^(n.log2-52) % 2 = 0)
      then n / 2^(n.log2-52) else n / 2^(n.log2-52) + 1,n.log2-52,?_,?_,?_,by omega⟩
  · rw [round,if_neg large]
  · split <;> omega
  · split <;> omega

theorem round_short {n : Nat} (short : Short n) : round n = n := by
  by_cases small : n < 2^53
  · exact round_small small
  · obtain ⟨m,k,few,value⟩ := short
    have nonzero : n ≠ 0 := by omega
    have low : 2^n.log2 ≤ n := Nat.log2_self_le nonzero
    -- the bits that rounding looks at are all zero
    have enough : n.log2 - 52 ≤ k := by
      by_contra few_zeros
      have big : n < 2^53 * 2^k := by
        rw [value]
        exact (Nat.mul_lt_mul_right (Nat.two_pow_pos k)).mpr few
      have steps : 2^53 * 2^k ≤ 2^n.log2 := by
        rw [← pow_add]
        exact Nat.pow_le_pow_right (by decide) (by omega)
      omega
    obtain ⟨j,rest⟩ := Nat.exists_eq_add_of_le enough
    have split : n = m * 2^j * 2^(n.log2-52) := by
      have power : (2:Nat)^k = 2^j * 2^(n.log2-52) := by
        rw [← pow_add]
        congr 1
        omega
      rw [mul_assoc,← power]
      exact value
    have rem : n % 2^(n.log2-52) = 0 := by
      generalize n.log2-52 = i at split
      rw [split,Nat.mul_mod_left]
    have pos := Nat.two_pow_pos (n.log2-52)
    rw [round,if_neg small]
    simp only [rem]
    rw [if_pos (.inl (by omega))]
    exact Nat.div_mul_cancel (Nat.dvd_of_mod_eq_zero rem)

theorem short_round (n : Nat) : Short (round n) := by
  by_cases small : n < 2^53
  · exact ⟨n,0,small,by rw [round_small small,pow_zero,mul_one]⟩
  · obtain ⟨q,k,value,_,high,_⟩ := round_range small
    by_cases top : q = 2^53
    · refine ⟨2^52,k+1,by decide,?_⟩
      rw [value,top]
      ring
    · exact ⟨q,k,by omega,value⟩

@[simp] theorem round_round (n : Nat) : round (round n) = round n := round_short (short_round n)

/-- Rounding does not leave a range that ends in a power of two. -/
theorem round_le {n b : Nat} (le : n ≤ 2^b) : round n ≤ 2^b := by
  by_cases small : n < 2^53
  · rw [round_small small]
    exact le
  · by_cases edge : n = 2^b
    · have short : Short n := ⟨1,b,by decide,by rw [edge,one_mul]⟩
      rw [round_short short]
      exact le
    · obtain ⟨q,k,value,_,high,bits⟩ := round_range small
      have below : n.log2 < b := Nat.log2_lt (by omega) |>.mpr (by omega)
      rw [value]
      calc q * 2^k ≤ 2^53 * 2^k := Nat.mul_le_mul_right _ high
        _ = 2^(53+k) := by rw [← pow_add]
        _ ≤ 2^b := Nat.pow_le_pow_right (by decide) (by omega)

theorem round_pos {n : Nat} (pos : 0 < n) : 0 < round n := by
  by_cases small : n < 2^53
  · rwa [round_small small]
  · obtain ⟨q,k,value,low,_⟩ := round_range small
    rw [value]
    exact Nat.mul_pos (by omega) (Nat.two_pow_pos k)

theorem round_large {n : Nat} (large : ¬ n < 2^53) : 2^53 ≤ round n := by
  obtain ⟨q,k,value,low,_,bits⟩ := round_range large
  have long : 53 ≤ n.log2 := (Nat.le_log2 (by omega)).mpr (by omega)
  rw [value]
  calc 2^53 = 2^52 * 2^1 := rfl
    _ ≤ q * 2^k := Nat.mul_le_mul low (Nat.pow_le_pow_right (by decide) (by omega))

theorem unit_pos : 0 < unit := Nat.two_pow_pos unitExp

theorem ofInt_trunc (n : Int) :
    (ofInt n).trunc = some (if n < 0 then -(round n.natAbs : Int) else round n.natAbs) := by
  simp [ofInt,trunc,Nat.mul_div_cancel _ unit_pos]

theorem ofInt_int? (n : Int) :
    (ofInt n).int? = some (if n < 0 then -(round n.natAbs : Int) else round n.natAbs) := by
  simp [ofInt,int?,Nat.mul_div_cancel _ unit_pos]

theorem ofInt_nonneg {n : Int} (nonneg_ : 0 ≤ n) : (ofInt n).nonneg = true := by
  simp [ofInt,nonneg,not_lt.mpr nonneg_]

theorem ofInt_negative {n : Int} (neg : n < 0) : (ofInt n).nonneg = false := by
  have pos := Nat.mul_pos (round_pos (by omega : 0 < n.natAbs)) unit_pos
  have mag : (round n.natAbs * unit == 0) = false := by
    rw [beq_eq_false_iff_ne]
    omega
  simp only [ofInt,nonneg,neg,mag]
  rfl

/-- An `int64` survives the way to `double` and back into a 64-bit integer as the
integer that the double is. -/
theorem ofInt_toUInt64 (wild : Double → BitVec 64) {n : Int} (low : 0 ≤ n) (high : n < 2^63) :
    (ofInt n).toUInt64 wild = round n.natAbs ∧ (ofInt n).eqInt (round n.natAbs) = true := by
  have bound : round n.natAbs ≤ 2^63 := round_le (by omega)
  constructor
  · simp only [toUInt64,ofInt_trunc,if_neg (not_lt.mpr low)]
    rw [if_pos (by omega)]
    rfl
  · simp [eqInt,ofInt_int?,not_lt.mpr low]

theorem ofInt_toInt64 (wild : Double → BitVec 64) {n : Int} (low : -2^63 ≤ n) (neg : n < 0) :
    (ofInt n).toInt64 wild = -(round n.natAbs : Int) ∧
      (ofInt n).eqInt (-(round n.natAbs : Int)) = true := by
  have bound : round n.natAbs ≤ 2^63 := round_le (by omega)
  constructor
  · simp only [toInt64,ofInt_trunc,if_pos neg]
    rw [if_pos (by omega)]
  · have pos : 0 < round n.natAbs := round_pos (by omega)
    simp [eqInt,ofInt_int?,neg,pos]

end Double

end Pworld
