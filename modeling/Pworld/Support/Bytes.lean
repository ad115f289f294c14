import Mathlib.Algebra.Order.Group.Nat
import Mathlib.Tactic.NormNum

/-! Little-endian integers of a fixed width, and the fixed block of memory that
a copy writes into. -/
namespace Pworld

abbrev Bytes := List UInt8

namespace Bytes

/-- The low `w` bytes of `n`, least significant first. -/
def le : Nat → Nat → Bytes
  | 0, _ => []
  | w+1, n => UInt8.ofNat n :: le w (n/256)

def ofLe : Bytes → Nat
  | [] => 0
  | b::bs => b.toNat + 256 * ofLe bs

@[simp] theorem le_length (w n : Nat) : (le w n).length = w := by
  induction w generalizing n with
  | zero => rfl
  | succ w ih => simp [le,ih]

theorem ofLe_le (w n : Nat) : ofLe (le w n) = n % 256^w := by
  induction w generalizing n with
  | zero => simp [le,ofLe,Nat.mod_one]
  | succ w ih =>
    have byte : (UInt8.ofNat n).toNat = n % 256 := UInt8.toNat_ofNat'
    rw [le,ofLe,ih,byte,pow_succ',Nat.mod_mul]

theorem ofLe_le_of_lt {w n : Nat} (fits : n < 256^w) : ofLe (le w n) = n := by
  rw [ofLe_le,Nat.mod_eq_of_lt fits]

theorem le_ofLe (bs : Bytes) : le bs.length (ofLe bs) = bs := by
  induction bs with
  | nil => rfl
  | cons b bs ih =>
    have byte := b.toNat_lt
    have low : UInt8.ofNat (b.toNat + 256 * ofLe bs) = b := by
      apply UInt8.toNat_inj.mp
      rw [UInt8.toNat_ofNat']
      omega
    have high : (b.toNat + 256 * ofLe bs) / 256 = ofLe bs := by omega
    rw [List.length_cons,ofLe,le,low,high,ih]

/-- `memcpy(mem + off, bs, bs.length)`. -/
def overwrite (mem : Bytes) (off : Nat) (bs : Bytes) : Bytes :=
  mem.take off ++ bs ++ mem.drop (off + bs.length)

theorem overwrite_length {mem bs : Bytes} {off : Nat} (inside : off + bs.length ≤ mem.length) :
    (overwrite mem off bs).length = mem.length := by
  simp only [overwrite,List.length_append,List.length_take,List.length_drop]
  omega

theorem overwrite_take {mem bs : Bytes} {off : Nat} (inside : off ≤ mem.length) :
    (overwrite mem off bs).take (off + bs.length) = mem.take off ++ bs := by
  have size : (mem.take off ++ bs).length = off + bs.length := by
    simp only [List.length_append,List.length_take]
    omega
  rw [overwrite,← size,List.take_left]

end Bytes

end Pworld
