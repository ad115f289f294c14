import Pworld.Buffer.ByteBuffer
import Pworld.Lua.Value

/-! `LuaTable::Serialize`. The writer never looks at the buffer, so each function
gives the `<<` operations it performs, in their order. -/
namespace Pworld.Lua

open Net

inductive LuaValueType where
  | nil
  | i8
  | i16
  | i32
  | i64
  | u8
  | u16
  | u32
  | u64
  | str
  | flt
  | bool
  | Arr
  | Hash
  | Unknown
  deriving DecidableEq,Repr

namespace LuaValueType

def code : LuaValueType → Nat
  | .nil => 0
  | .i8 => 1
  | .i16 => 2
  | .i32 => 3
  | .i64 => 4
  | .u8 => 5
  | .u16 => 6
  | .u32 => 7
  | .u64 => 8
  | .str => 9
  | .flt => 10
  | .bool => 11
  | .Arr => 12
  | .Hash => 13
  | .Unknown => 14

-- a byte past the enumeration is handled like `LVT_Unknown` everywhere
def ofCode : Nat → LuaValueType
  | 0 => .nil
  | 1 => .i8
  | 2 => .i16
  | 3 => .i32
  | 4 => .i64
  | 5 => .u8
  | 6 => .u16
  | 7 => .u32
  | 8 => .u64
  | 9 => .str
  | 10 => .flt
  | 11 => .bool
  | 12 => .Arr
  | 13 => .Hash
  | _ => .Unknown

theorem ofCode_code (ty : LuaValueType) : ofCode ty.code = ty := by
  cases ty <;> rfl

end LuaValueType

def maxDepth : Nat := 16

/-- One `bb << x`. -/
inductive Put where
  | int (w n : Nat)
  | str (s : Bytes)
  deriving DecidableEq,Repr

def Put.run (bb : ByteBuffer) : Put → ByteBuffer
  | .int w n => bb.putInt w n
  | .str s => bb.putStr s

/-- What it appends where there is room. -/
def Put.bytes : Put → Bytes
  | .int w n => Bytes.le w n
  | .str s => cstr s

def getLuaTypeTable (v : Value) : LuaValueType :=
  if v.shape.len then .Arr
  else if v.shape.pairs then .Hash
  else
    let key := if v.shape.border ≠ 0 then .int (BitVec.ofNat 64 v.shape.border) else .nil
    match next v.entries key with
    | none => .Arr
    | some _ => .Hash

variable (wild : Double → BitVec 64)

def getLuaTypeNumber (v : Double) : LuaValueType :=
  if v.nonneg then
    let u := v.toUInt64 wild
    if v.eqInt u then
      if u ≤ 0xFF then .u8
      else if u < 0xFFFF then .u16
      else if u < 0xFFFFFFFF then .u32
      else .u64
    else .flt
  else
    let u := v.toInt64 wild
    if v.eqInt u then
      if u ≥ -0x7F - 1 then .i8
      else if u ≥ -0x7FFF - 1 then .i16
      else if u ≥ -0x7FFFFFFF - 1 then .u32
      else .i64
    else .flt

def getLuaType (v : Value) : LuaValueType :=
  match v with
  | .nil => .nil
  | .int _ | .flt _ => getLuaTypeNumber wild v.toNumber
  | .str _ => .str
  | .bool _ => .bool
  | .table _ _ => getLuaTypeTable v
  | .other _ => .Unknown

/-- An integer is never taken for a float, although it is looked at as one. -/
theorem getLuaType_int (n : BitVec 64) : getLuaType wild (.int n) ≠ .flt := by
  have range := n.toInt_lt
  have range' := n.le_toInt
  change getLuaTypeNumber wild (.ofInt n.toInt) ≠ .flt
  unfold getLuaTypeNumber
  by_cases neg : n.toInt < 0
  · obtain ⟨value,whole⟩ := Double.ofInt_toInt64 wild (by omega) neg
    simp only [Double.ofInt_negative neg,Bool.false_eq_true,if_false,value,whole,if_true]
    split_ifs <;> decide
  · obtain ⟨value,whole⟩ := Double.ofInt_toUInt64 wild (by omega : 0 ≤ n.toInt) (by omega)
    simp only [Double.ofInt_nonneg (not_lt.mp neg),if_true,value,whole]
    split_ifs <;> decide

/-- `sub` is `serialize_table` one layer down. -/
def serializeEntity (sub : LuaValueType → Value → List Put) (type : LuaValueType) (v : Value) :
    List Put :=
  match type with
  | .i8 => [.int 1 v.toInteger.toNat]
  | .i16 => [.int 2 v.toInteger.toNat]
  | .i32 => [.int 4 v.toInteger.toNat]
  | .i64 => [.int 8 v.toInteger.toNat]
  | .u8 => [.int 1 v.toInteger.toNat]
  | .u16 => [.int 2 v.toInteger.toNat]
  | .u32 => [.int 4 v.toInteger.toNat]
  | .u64 => [.int 8 v.toInteger.toNat]
  | .str => [.str v.toBytes]
  | .flt => [.int 8 v.doubleBits.toNat]
  | .bool => [.int 1 (if v.toBoolean then 1 else 0)]
  | .Arr => sub .Arr v
  | .Hash => sub .Hash v
  | .nil | .Unknown => []

def serializeVal (sub : LuaValueType → Value → List Put) (ty : LuaValueType) (v : Value) :
    List Put :=
  if ty.code < LuaValueType.i8.code ∨ ty.code > LuaValueType.Hash.code then []
  else .int 1 ty.code :: serializeEntity sub ty v

def serializeKeyVal (sub : LuaValueType → Value → List Put) (tyKey : LuaValueType) (key : Value)
    (tyVal : LuaValueType) (val : Value) : List Put :=
  if tyKey.code < LuaValueType.i8.code ∨ tyKey.code > LuaValueType.str.code then []
  else if tyVal.code < LuaValueType.i8.code ∨ tyVal.code > LuaValueType.Hash.code then []
  else
    .int 1 ((tyKey.code &&& 0x0F) <<< 4 ||| (tyVal.code &&& 0x0F)) ::
      (serializeEntity sub tyKey key ++ serializeEntity sub tyVal val)

/-- `room` is what is left of `MAX_DEPTH`: it is zero where `depth < MAX_DEPTH` fails. -/
def serializeTable : Nat → LuaValueType → Value → List Put
  | 0, _, _ => [.int 1 LuaValueType.nil.code]
  | room+1, .Arr, v =>
    (List.range v.shape.border).flatMap (fun i =>
      let val := rawget v.entries (.int (BitVec.ofNat 64 (i+1)))
      serializeVal (serializeTable room) (getLuaType wild val) val) ++
    [.int 1 LuaValueType.nil.code]
  | room+1, .Hash, v =>
    v.entries.flatMap (fun e =>
      serializeKeyVal (serializeTable room) (getLuaType wild e.1) e.1 (getLuaType wild e.2) e.2) ++
    [.int 1 LuaValueType.nil.code]
  | _+1, _, _ => []

/-- What `Serialize` writes for a table. -/
def encode (v : Value) : List Put :=
  let type := getLuaTypeTable v
  .int 1 type.code :: serializeTable wild (maxDepth-1) type v

def Serialize (v : Value) (bb : ByteBuffer) : Bool × ByteBuffer :=
  if !v.isTable then (false,bb) else (true,(encode wild v).foldl Put.run bb)

end Pworld.Lua
