import Pworld.Lua.Serialize
import Pworld.Support.Loop

/-! `LuaTable::Deserialize`. A failed `>>` leaves its local as it was: `junk` is what
locals hold before their first assignment. What a function leaves on the Lua stack is
its result, and the table it fills an argument. -/
namespace Pworld.Lua

structure Reader where
  bb : ByteBuffer
  drawn : Nat  -- locals read before they were assigned
  rounds : Nat  -- of the loops of `deserialize_table`
  calls : Nat  -- of `deserialize_table`

/-- How the functions are left other than by returning: by an error of Lua, or by
`CORE_ASSERT(false)`, after which the Lua stack is short of a value. -/
inductive Stop where
  | raised (r : Reader)
  | asserted

abbrev Outcome (α : Type) := Except Stop (α × Reader)

/-- Lua raises an error where such a key is assigned to. -/
def Value.noKey : Value → Bool
  | .nil => true
  | .flt bits => Double.ofBits bits == .nan
  | _ => false

variable (junk : Nat → Nat)

/-- `bb >> x` into a local of `w` bytes not assigned before. -/
def Reader.getFresh (w : Nat) (r : Reader) : Nat × Reader :=
  match r.bb.getInt w with
  | (some n,bb) => (n,{r with bb := bb})
  | (none,bb) => (junk r.drawn % 256^w,{r with bb := bb, drawn := r.drawn + 1})

/-- `bb >> ty` into a local that holds `ty`. -/
def Reader.getAgain (ty : Nat) (r : Reader) : Nat × Reader :=
  let got := r.bb.getInt 1
  (got.1.getD ty,{r with bb := got.2})

def Reader.getStr (r : Reader) : Bytes × Reader :=
  match r.bb.getStr with
  | (some s,bb) => (s,{r with bb := bb})
  | (none,bb) => ([],{r with bb := bb})

def Reader.round (r : Reader) : Reader := {r with rounds := r.rounds + 1}
def Reader.call (r : Reader) : Reader := {r with calls := r.calls + 1}

/-- The integer of `w` bytes pushed for a signed type, and for an unsigned one. -/
def signed (w n : Nat) : Value := .int ((BitVec.ofNat (8*w) n).signExtend 64)
def unsigned (n : Nat) : Value := .int (BitVec.ofNat 64 n)

def Reader.pushInt (r : Reader) (w : Nat) (f : Nat → Value) : Option (Outcome Value) :=
  some (.ok (f (r.getFresh junk w).1,(r.getFresh junk w).2))

/-- `lua_newtable` filled by `deserialize_table`. Its border is not kept up to date. -/
def pushTable (filled : Option (Outcome Entries)) : Option (Outcome Value) :=
  filled.map (Except.map fun (es,r) => (.table ⟨false,false,0⟩ es,r))

/-- `sub` is `deserialize_table`. -/
def deserializeEntity (sub : LuaValueType → Entries → Reader → Option (Outcome Entries))
    (type : LuaValueType) (r : Reader) : Option (Outcome Value) :=
  match type with
  | .i8 => r.pushInt junk 1 (signed 1)
  | .i16 => r.pushInt junk 2 (signed 2)
  | .i32 => r.pushInt junk 4 (signed 4)
  | .i64 => r.pushInt junk 8 (signed 8)
  | .u8 => r.pushInt junk 1 unsigned
  | .u16 => r.pushInt junk 2 unsigned
  | .u32 => r.pushInt junk 4 unsigned
  | .u64 => r.pushInt junk 8 unsigned
  | .str => some (.ok (.str r.getStr.1,r.getStr.2))
  | .flt => r.pushInt junk 8 fun n => .flt (BitVec.ofNat 64 n)
  | .bool => r.pushInt junk 1 fun n => .bool (n != 0)
  | .Arr => pushTable (sub .Arr [] r)
  | .Hash => pushTable (sub .Hash [] r)
  | .nil | .Unknown => some (.error .asserted)

/-- A round of the loop over `LVT_Arr`, without the read of the next type. -/
def arrRound (sub : LuaValueType → Entries → Reader → Option (Outcome Entries))
    (idx ty : Nat) (es : Entries) (r : Reader) : Option (Outcome Entries) :=
  match deserializeEntity junk sub (.ofCode ty) r with
  | none => none
  | some (.error stop) => some (.error stop)
  | some (.ok (v,r)) => some (.ok (rawset es (.int (BitVec.ofNat 64 idx)) v,r))

def keyType (ty : Nat) : LuaValueType := .ofCode ((ty &&& 0xF0) >>> 4)
def valType (ty : Nat) : LuaValueType := .ofCode (ty &&& 0x0F)

def hashRound (sub : LuaValueType → Entries → Reader → Option (Outcome Entries))
    (ty : Nat) (es : Entries) (r : Reader) : Option (Outcome Entries) :=
  match deserializeEntity junk sub (keyType ty) r with
  | none => none
  | some (.error stop) => some (.error stop)
  | some (.ok (k,r)) =>
    match deserializeEntity junk sub (valType ty) r with
    | none => none
    | some (.error stop) => some (.error stop)
    | some (.ok (v,r)) =>
      if k.noKey then some (.error (.raised r)) else some (.ok (rawset es k v,r))

def tableRound (sub : LuaValueType → Entries → Reader → Option (Outcome Entries)) :
    LuaValueType → Nat → Nat → Entries → Reader → Option (Outcome Entries)
  | .Arr, idx, ty, es, r => arrRound junk sub idx ty es r
  | .Hash, _, ty, es, r => hashRound junk sub ty es r
  | _, _, _, es, r => some (.ok (es,r))

/-- `while (ty != LVT_nil)`. The loop over `LVT_Hash` has no `idx`: its rounds do not
look at it. -/
def tableBody (round : Nat → Nat → Entries → Reader → Option (Outcome Entries)) :
    Entries × Reader × Nat × Nat → Option ((Entries × Reader × Nat × Nat) ⊕ Outcome Entries)
  | (es,r,ty,idx) =>
    if ty = LuaValueType.nil.code then some (.inr (.ok (es,r)))
    else
      match round idx ty es r.round with
      | none => none
      | some (.error stop) => some (.inr (.error stop))
      | some (.ok (es,r)) => some (.inl (es,(r.getAgain ty).2,(r.getAgain ty).1,Net.u32 (idx+1)))

section
variable {round : Nat → Nat → Entries → Reader → Option (Outcome Entries)} {es : Entries}
  {r : Reader} {ty idx : Nat} (more : ty ≠ LuaValueType.nil.code) (k : Nat)
include more

theorem loop_again {es' : Entries} {r' : Reader}
    (read : round idx ty es r.round = some (.ok (es',r'))) :
    Loop.iterate (tableBody round) (k+1) (es,r,ty,idx) = Loop.iterate (tableBody round) k
      (es',(r'.getAgain ty).2,(r'.getAgain ty).1,Net.u32 (idx+1)) :=
  Loop.iterate_again k (by simp only [tableBody,if_neg more,read])

theorem loop_stopped {stop : Stop} (read : round idx ty es r.round = some (.error stop)) :
    Loop.iterate (tableBody round) (k+1) (es,r,ty,idx) = some (.error stop) :=
  Loop.iterate_leave k (by simp only [tableBody,if_neg more,read])

theorem loop_pending (read : round idx ty es r.round = none) :
    Loop.iterate (tableBody round) (k+1) (es,r,ty,idx) = none := by
  simp only [Loop.iterate,tableBody,if_neg more,read]

end

/-- `deserialize_table` in `n` nested calls of at most `n` rounds; `none` is not to
have returned by then. -/
def deserializeTable : Nat → LuaValueType → Entries → Reader → Option (Outcome Entries)
  | 0, _, _, _ => none
  | n+1, type, es, r =>
    if type = .Arr ∨ type = .Hash then
      let first := r.call.getFresh junk 1
      Loop.iterate (tableBody (tableRound junk (deserializeTable n) type)) (n+1)
        (es,first.2,first.1,1)
    else some (.ok (es,r.call))

/-- The table pushed where it returns true. -/
def Deserialize (n : Nat) (bb : ByteBuffer) : Option (Outcome (Option Value)) :=
  let first := Reader.getFresh junk 1 ⟨bb,0,0,0⟩
  let type := LuaValueType.ofCode first.1
  if type = .Arr ∨ type = .Hash then
    (pushTable (deserializeTable junk n type [] first.2)).map
      (Except.map fun (v,r) => (some v,r))
  else some (.ok (none,first.2))

/-- `bs` is still to be read. -/
structure Reader.At (r : Reader) (wr : Nat) (bs : Bytes) : Prop where
  ok : r.bb.Ok
  wr : r.bb.wrPtr = wr
  readable : r.bb.readable = bs

def Reader.advance (r : Reader) (n : Nat) : Reader :=
  {r with bb := {r.bb with rdPtr := r.bb.rdPtr + n}}

namespace Reader

variable {r : Reader} {wr : Nat} {bs : Bytes}

theorem At.advance (at_ : r.At wr bs) {n : Nat} (le : n ≤ bs.length) :
    (r.advance n).At wr (bs.drop n) := by
  obtain ⟨ok,same,readable⟩ := at_
  have length := ByteBuffer.readable_length ok
  rw [readable] at length
  have inside : n ≤ r.bb.wrPtr - r.bb.rdPtr := by omega
  exact ⟨ByteBuffer.advance_ok ok inside r.bb.stray,same,
    (ByteBuffer.readable_advance r.bb inside r.bb.stray).trans (by rw [readable])⟩

theorem getInt_spec (at_ : r.At wr bs) {w : Nat} (le : w ≤ bs.length) :
    r.bb.getInt w = (some (Bytes.ofLe (bs.take w)),(r.advance w).bb) := by
  obtain ⟨ok,_,readable⟩ := at_
  rw [← readable] at le ⊢
  rw [ByteBuffer.getInt,ByteBuffer.out_spec ok le]
  rfl

theorem getInt_short (at_ : r.At wr bs) {w : Nat} (short : bs.length < w) :
    r.bb.getInt w = (none,r.bb) := by
  obtain ⟨ok,_,readable⟩ := at_
  rw [← readable] at short
  rw [ByteBuffer.getInt,ByteBuffer.out_short ok short]
  rfl

theorem getFresh_spec (at_ : r.At wr bs) {w : Nat} (le : w ≤ bs.length) :
    r.getFresh junk w = (Bytes.ofLe (bs.take w),r.advance w) := by
  rw [getFresh,getInt_spec at_ le]
  rfl

theorem getFresh_short (at_ : r.At wr bs) {w : Nat} (short : bs.length < w) :
    r.getFresh junk w = (junk r.drawn % 256^w,{r with drawn := r.drawn + 1}) := by
  rw [getFresh,getInt_short at_ short]

theorem ofLe_one (b : UInt8) : Bytes.ofLe [b] = b.toNat := by
  simp [Bytes.ofLe]

theorem getFresh_cons {b : UInt8} (at_ : r.At wr (b::bs)) :
    r.getFresh junk 1 = (b.toNat,r.advance 1) := by
  rw [getFresh_spec junk at_ (by simp)]
  simp [ofLe_one]

theorem getAgain_cons {b : UInt8} (at_ : r.At wr (b::bs)) (ty : Nat) :
    r.getAgain ty = (b.toNat,r.advance 1) := by
  simp only [getAgain]
  rw [getInt_spec at_ (by simp)]
  simp [ofLe_one,advance]

theorem getAgain_nil (at_ : r.At wr []) (ty : Nat) : r.getAgain ty = (ty,r) := by
  simp only [getAgain]
  rw [getInt_short at_ (by simp)]
  rfl

theorem At.next {b : UInt8} (at_ : r.At wr (b::bs)) : (r.advance 1).At wr bs :=
  at_.advance (by simp)

theorem At.round (at_ : r.At wr bs) : r.round.At wr bs := ⟨at_.ok,at_.wr,at_.readable⟩
theorem At.call (at_ : r.At wr bs) : r.call.At wr bs := ⟨at_.ok,at_.wr,at_.readable⟩

theorem getStr_spec {str rest : Bytes} (plain : 0 ∉ str) (at_ : r.At wr (str ++ 0 :: rest)) :
    r.getStr = (str,r.advance (str.length + 1)) := by
  rw [getStr,ByteBuffer.getStr_spec at_.ok plain at_.readable]
  rfl

theorem getStr_none (at_ : r.At wr bs) (endless : 0 ∉ bs) :
    ∃ stray, r.getStr = ([],{r with bb := {r.bb with stray := stray}}) := by
  obtain ⟨stray,none_⟩ := ByteBuffer.getStr_none at_.ok (by rwa [at_.readable])
  exact ⟨stray,by rw [getStr,none_]⟩

end Reader

end Pworld.Lua
