import Pworld.Lua.Faithful
import Mathlib.Data.List.TakeWhile

/-! Which scalars come back as they were. An integer is classified by the double next to
it, and the negative numbers of 32 bits are written with the type of the unsigned ones. -/
namespace Pworld.Lua

open Net

/-- No negative number of more than 16 and at most 32 bits, no string with a zero byte. -/
def Value.Exact : Value → Prop
  | .int n => ¬(-2^31 ≤ n.toInt ∧ n.toInt < -2^15)
  | .str s => 0 ∉ s
  | _ => True

theorem signed_back {w : Nat} (n : BitVec 64) (pos : 0 < w) (le : w ≤ 8)
    (low : -2^(8*w-1) ≤ n.toInt) (high : n.toInt < 2^(8*w-1)) :
    signed w (n.toNat % 256^w) = .int n := by
  have power : 256^w = 2^(8*w) := by
    rw [Nat.pow_mul]
  have half : (2:Int)^(8*w) = 2 * 2^(8*w-1) := by
    rw [← pow_succ']
    congr 1
    omega
  have cut : BitVec.ofNat (8*w) (n.toNat % 256^w) = n.signExtend (8*w) := by
    rw [BitVec.signExtend_eq_setWidth_of_le n (by omega)]
    apply BitVec.eq_of_toNat_eq
    rw [BitVec.toNat_ofNat,BitVec.toNat_setWidth,power,Nat.mod_mod]
  rw [signed,cut]
  congr 1
  apply BitVec.eq_of_toInt_eq
  rw [BitVec.toInt_signExtend_of_le (by omega),BitVec.toInt_signExtend,Nat.min_eq_left (by omega)]
  apply Int.bmod_eq_of_le_mul_two
  · push_cast
    omega
  · push_cast
    omega

theorem unsigned_back {w : Nat} (n : BitVec 64) (nonneg : 0 ≤ n.toInt)
    (high : n.toInt < 256^w) : unsigned (n.toNat % 256^w) = .int n := by
  have same := BitVec.toInt_eq_toNat_of_lt (BitVec.toInt_pos_iff.mp nonneg)
  have fits : n.toNat < 256^w := by
    have cast : ((256^w : Nat) : Int) = 256^w := by norm_cast
    omega
  rw [unsigned,Nat.mod_eq_of_lt fits,BitVec.ofNat_toNat,BitVec.setWidth_eq]

/-- What was read as unsigned is never negative. -/
theorem unsigned_negative {w : Nat} (n : BitVec 64) (low : w ≤ 4) (neg : n.toInt < 0) :
    unsigned (n.toNat % 256^w) ≠ .int n := by
  intro same
  have value := congrArg BitVec.toNat (Value.int.inj same)
  have sign := BitVec.toInt_eq_toNat_cond n
  have small : n.toNat % 256^w < 256^4 :=
    (Nat.mod_lt _ (Nat.pow_pos (by decide))).trans_le (Nat.pow_le_pow_right (by decide) low)
  rw [BitVec.toNat_ofNat] at value
  split at sign
  · omega
  · omega

variable (wild : Double → BitVec 64)

theorem nonneg_back (n : BitVec 64) (nonneg : 0 ≤ n.toInt) :
    back (getLuaType wild (.int n)) (.int n) = .int n := by
  have range := n.toInt_lt
  obtain ⟨value,whole⟩ := Double.ofInt_toUInt64 wild nonneg (by omega)
  have large := Double.round_large (n := n.toInt.natAbs)
  have small := Double.round_small (n := n.toInt.natAbs)
  change back (getLuaTypeNumber wild (.ofInt n.toInt)) (.int n) = .int n
  simp only [getLuaTypeNumber,Double.ofInt_nonneg nonneg,if_true,value,whole]
  split_ifs
  · exact unsigned_back n nonneg (by omega)
  · exact unsigned_back n nonneg (by omega)
  · exact unsigned_back n nonneg (by omega)
  · exact unsigned_back n nonneg (by omega)

theorem negative_back (n : BitVec 64) (neg : n.toInt < 0) :
    back (getLuaType wild (.int n)) (.int n) = .int n ↔ (Value.int n).Exact := by
  have range := n.le_toInt
  obtain ⟨value,whole⟩ := Double.ofInt_toInt64 wild range neg
  have large := Double.round_large (n := n.toInt.natAbs)
  have small := Double.round_small (n := n.toInt.natAbs)
  change back (getLuaTypeNumber wild (.ofInt n.toInt)) (.int n) = .int n ↔ _
  simp only [getLuaTypeNumber,Double.ofInt_negative neg,Bool.false_eq_true,if_false,value,whole,
    if_true,Value.Exact]
  split_ifs
  · exact iff_of_true (signed_back n (by decide) (by decide) (by omega) (by omega)) (by omega)
  · exact iff_of_true (signed_back n (by decide) (by decide) (by omega) (by omega)) (by omega)
  -- 17 to 32 bits, written as `LVT_u32`
  · exact iff_of_false (unsigned_negative n (by decide) neg) (by omega)
  · exact iff_of_true (signed_back n (by decide) (by decide) (by omega) (by omega)) (by omega)

theorem back_iff {v : Value} (leaf : v.isLeaf = true) :
    back (getLuaType wild v) v = v ↔ v.Exact := by
  cases v with
  | nil | flt | table | other => cases leaf
  | bool b => exact iff_of_true (by cases b <;> rfl) trivial
  | int n =>
    by_cases neg : n.toInt < 0
    · exact negative_back wild n neg
    · refine iff_of_true (nonneg_back wild n (by omega)) ?_
      simp only [Value.Exact]
      omega
  | str s =>
    simp only [getLuaType,back,Value.toBytes,Value.str.injEq,List.takeWhile_eq_self_iff,
      Value.Exact,decide_eq_true_eq]
    exact ⟨fun plain zero => plain 0 zero rfl,fun plain b member zero => plain (zero ▸ member)⟩

/-- Written with the type that `get_lua_type` chooses and read with it again. -/
def ScalarTrips (junk : Nat → Nat) (v : Value) (bb : ByteBuffer) : Prop :=
  ∃ n, ∀ m, n ≤ m → ∃ r, deserializeEntity junk (deserializeTable junk m) (getLuaType wild v)
    ⟨(serializeEntity (serializeTable wild m) (getLuaType wild v) v).foldl Put.run bb,0,0,0⟩ =
      some (.ok (v,r))

/-- What an integer, a string or a boolean takes in the buffer. -/
def scalarBytes (v : Value) : Bytes :=
  bytesOf (serializeEntity (serializeTable wild 0) (getLuaType wild v) v)

theorem scalarTrips_back (junk : Nat → Nat) {v : Value} (leaf : v.isLeaf = true)
    {bb : ByteBuffer} (ok : bb.Ok) (empty : bb.readable = [])
    (space : (scalarBytes wild v).length ≤ bb.free) :
    ScalarTrips wild junk v bb ↔ back (getLuaType wild v) v = v := by
  obtain ⟨val,scalar⟩ := leaf_type wild leaf
  have any (m : Nat) : serializeEntity (serializeTable wild m) (getLuaType wild v) v =
      serializeEntity (serializeTable wild 0) (getLuaType wild v) v := by
    generalize getLuaType wild v = ty at scalar
    cases ty with
    | Arr => exact absurd (.inl rfl) scalar
    | Hash => exact absurd (.inr rfl) scalar
    | _ => rfl
  obtain ⟨n,decodes⟩ := decodes_scalar junk val scalar (serializeTable wild 0) v
  rw [ByteBuffer.free_eq ok] at space
  have written := puts_run ok space
  have readable := written.readable
  rw [empty,List.nil_append,← List.append_nil (bytesOf _)] at readable
  have at_ := start_at written.ok
  rw [readable] at at_
  constructor
  · intro ⟨n',trips⟩
    obtain ⟨r,came,_⟩ := decodes (max n n') (by omega) _ _ [] at_
    obtain ⟨r',same⟩ := trips (max n n') (by omega)
    rw [any] at same
    have values := Option.some.inj (came.symm.trans same)
    simp only [Except.ok.injEq,Prod.mk.injEq] at values
    exact values.1
  · intro same
    refine ⟨n,fun m le => ?_⟩
    obtain ⟨r,came,_⟩ := decodes m le _ _ [] at_
    rw [same] at came
    exact ⟨r,by rw [any]; exact came⟩

theorem scalar_round_trip (junk : Nat → Nat) {v : Value} (leaf : v.isLeaf = true)
    {bb : ByteBuffer} (ok : bb.Ok) (empty : bb.readable = [])
    (space : (scalarBytes wild v).length ≤ bb.free) : ScalarTrips wild junk v bb ↔ v.Exact :=
  (scalarTrips_back wild junk leaf ok empty space).trans (back_iff wild leaf)

theorem scalar_round_trip_low : ScalarTrips tame (fun _ => 0) (.int (-2147483649)) roomy := by
  apply (scalar_round_trip tame _ rfl (by decide) (by decide) (by decide +kernel)).mpr
  change ¬(-2^31 ≤ (-2147483649 : BitVec 64).toInt ∧ (-2147483649 : BitVec 64).toInt < -2^15)
  decide

/-- -40000 is read as 4294927296, and of `a\0b` the `a` is left. -/
theorem scalar_cut : ¬ScalarTrips tame (fun _ => 0) (.int (-40000)) roomy ∧
    ¬ScalarTrips tame (fun _ => 0) (.str [97,0,98]) roomy := by
  constructor
  · intro trips
    have same := (scalarTrips_back tame _ rfl (by decide) (by decide) (by decide +kernel)).mp trips
    exact absurd ((back_iff tame rfl).mp same) (by
      simp only [Value.Exact]
      decide)
  · intro trips
    have same := (scalarTrips_back tame _ rfl (by decide) (by decide) (by decide +kernel)).mp trips
    exact (back_iff tame rfl).mp same (by decide)

end Pworld.Lua
