import Pworld.Lua.Serialize
import Pworld.Support.Stack

/-! `LuaTable::Serialize` on the Lua stack, with tables by identity, so that they may
hold each other and themselves. No function called writes to a table: the heap is fixed.
The keys that `lua_next` is called with are kept. -/
namespace Pworld.Lua

open Stack

inductive Slot where
  | nil
  | bool (b : Bool)
  | int (n : BitVec 64)
  | flt (bits : BitVec 64)
  | str (s : Bytes)
  | table (addr : Nat)
  | other (id : Nat)
  deriving DecidableEq,Repr

/-- A table by what the library answers of it. `lua_rawlen` gives a border: zero, or a
positive integer that is a key. -/
structure Table where
  len : Slot  -- `__len` of the metatable
  pairs : Slot
  entries : List (Slot × Slot)
  border : Nat
  distinct : (entries.map Prod.fst).Nodup
  keyed : ∀ e ∈ entries, e.1 ≠ .nil
  filled : ∀ e ∈ entries, e.2 ≠ .nil
  isBorder : border ≠ 0 → .int (BitVec.ofNat 64 border) ∈ entries.map Prod.fst
  small : border < 2^63

def Table.Present (t : Table) (k : Slot) : Prop := ∃ v, v ≠ .nil ∧ (k,v) ∈ t.entries

namespace Heap

structure Trace where
  bb : ByteBuffer
  nexts : List (Nat × Slot)  -- the table and the key of each call of `lua_next`

abbrev Code (β : Type) := Prog Trace Slot β

/-- The entry after a key; nothing at all for a key that is not there. -/
def nextAfter : List (Slot × Slot) → Slot → Option (Option (Slot × Slot))
  | [], _ => none
  | e::es, k => if e.1 = k then some es.head? else nextAfter es k

def next (es : List (Slot × Slot)) (k : Slot) : Option (Option (Slot × Slot)) :=
  if k = .nil then some es.head? else nextAfter es k

def rawget (es : List (Slot × Slot)) (k : Slot) : Slot :=
  ((es.find? fun e => e.1 = k).map Prod.snd).getD .nil

/-- The value of a slot that is no table. -/
def scalar : Slot → Value
  | .nil => .nil
  | .bool b => .bool b
  | .int n => .int n
  | .flt bits => .flt bits
  | .str s => .str s
  | .table _ => .table ⟨false,false,0⟩ []
  | .other id => .other id

variable (heap : Nat → Table) (wild : Double → BitVec 64)
  (numeral : Slot → Bytes)  -- a number as `lua_tostring` writes it

/-- The table at an index. -/
def tableAt (i : Nat) : Code Nat := do
  match ← Prog.peek i with
  | .table addr => pure addr
  | _ => Prog.undefined

/-- True for `LUA_TNIL`, and then nothing is pushed. -/
def luaL_getmetafield (i : Nat) (event : Table → Slot) : Code Bool := do
  let field := event (heap (← tableAt i))
  if field = .nil then pure true
  else
    Prog.push field
    pure false

def lua_rawlen (i : Nat) : Code Nat := do
  pure (heap (← tableAt i)).border

def lua_rawgeti (i n : Nat) : Code Unit := do
  Prog.push (rawget (heap (← tableAt i)).entries (.int (BitVec.ofNat 64 n)))

-- a key that is not in the table is an error of Lua
def lua_next (i : Nat) : Code Bool := do
  let addr ← tableAt i
  let key ← Prog.peek 1
  Prog.modify fun t => {t with nexts := t.nexts ++ [(addr,key)]}
  match next (heap addr).entries key with
  | none => Prog.undefined
  | some none =>
    Prog.pop 1
    pure false
  | some (some (k,v)) =>
    Prog.pop 1
    Prog.push k
    Prog.push v
    pure true

-- a number is changed into a string where it is
def lua_tostring (i : Nat) : Code Bytes := do
  let v ← Prog.peek i
  match v with
  | .str s => pure s
  | .int _ | .flt _ =>
    Prog.set i (.str (numeral v))
    pure (numeral v)
  | _ => Prog.undefined

def lua_tointeger (i : Nat) : Code (BitVec 64) := do
  pure (scalar (← Prog.peek i)).toInteger

def doubleBits (i : Nat) : Code (BitVec 64) := do
  pure (scalar (← Prog.peek i)).doubleBits

def lua_toboolean (i : Nat) : Code Bool := do
  pure (scalar (← Prog.peek i)).toBoolean

/-- `bb << x`. -/
def put (p : Put) : Code Unit := Prog.modify fun t => {t with bb := p.run t.bb}

def getLuaTypeTable (i : Nat) : Code LuaValueType := do
  if ← luaL_getmetafield heap i Table.len then
    if ← luaL_getmetafield heap i Table.pairs then
      let size ← lua_rawlen heap i
      (if size ≠ 0 then Prog.push (.int (BitVec.ofNat 64 size)) else Prog.push .nil)
      if ← lua_next heap (i+1) then
        Prog.pop 2
        pure .Hash
      else pure .Arr
    else
      Prog.pop 1
      pure .Hash
  else
    Prog.pop 1
    pure .Arr

def getLuaType (i : Nat) : Code LuaValueType := do
  match ← Prog.peek i with
  | .nil => pure .nil
  | .int n => pure (getLuaTypeNumber wild (.ofInt n.toInt))
  | .flt bits => pure (getLuaTypeNumber wild (.ofBits bits))
  | .str _ => pure .str
  | .bool _ => pure .bool
  | .table _ => getLuaTypeTable heap i
  | .other _ => pure .Unknown

def putInteger (w i : Nat) : Code Unit := do
  put (.int w (← lua_tointeger i).toNat)

/-- `sub` is `serialize_table`. -/
def serializeEntity (sub : Nat → LuaValueType → Nat → Code Unit) (type : LuaValueType)
    (i depth : Nat) : Code Unit :=
  match type with
  | .i8 => putInteger 1 i
  | .i16 => putInteger 2 i
  | .i32 => putInteger 4 i
  | .i64 => putInteger 8 i
  | .u8 => putInteger 1 i
  | .u16 => putInteger 2 i
  | .u32 => putInteger 4 i
  | .u64 => putInteger 8 i
  | .str => do put (.str (← lua_tostring numeral i))
  | .flt => do put (.int 8 (← doubleBits i).toNat)
  | .bool => do put (.int 1 (if ← lua_toboolean i then 1 else 0))
  | .Arr => sub i .Arr (depth+1)
  | .Hash => sub i .Hash (depth+1)
  | .nil | .Unknown => Prog.undefined  -- `CORE_ASSERT(false)`

def serializeVal (sub : Nat → LuaValueType → Nat → Code Unit) (tyVal : LuaValueType)
    (idxVal depth : Nat) : Code Unit :=
  if tyVal.code < LuaValueType.i8.code ∨ tyVal.code > LuaValueType.Hash.code then pure ()
  else do
    put (.int 1 tyVal.code)
    serializeEntity numeral sub tyVal idxVal depth

def serializeKeyVal (sub : Nat → LuaValueType → Nat → Code Unit) (tyKey : LuaValueType)
    (idxKey : Nat) (tyVal : LuaValueType) (idxVal depth : Nat) : Code Unit :=
  if tyKey.code < LuaValueType.i8.code ∨ tyKey.code > LuaValueType.str.code then pure ()
  else if tyVal.code < LuaValueType.i8.code ∨ tyVal.code > LuaValueType.Hash.code then pure ()
  else do
    put (.int 1 ((tyKey.code &&& 0x0F) <<< 4 ||| (tyVal.code &&& 0x0F)))
    serializeEntity numeral sub tyKey idxKey depth
    serializeEntity numeral sub tyVal idxVal depth

/-- A round of the loop over `LVT_Arr`. -/
def arrRound (sub : Nat → LuaValueType → Nat → Code Unit) (depth i : Nat) : Code Unit := do
  lua_rawgeti heap 1 i
  let tyVal ← getLuaType heap wild 1
  serializeVal numeral sub tyVal 1 depth
  Prog.pop 1

def hashRound (sub : Nat → LuaValueType → Nat → Code Unit) (depth : Nat) : Code Unit := do
  let tyKey ← getLuaType heap wild 2
  let tyVal ← getLuaType heap wild 1
  serializeKeyVal numeral sub tyKey 2 tyVal 1 depth
  Prog.pop 1

/-- In `n` nested calls of at most `n` rounds. The index is not looked at. -/
def serializeTable : Nat → Nat → LuaValueType → Nat → Code Unit
  | 0, _, _, _ => Prog.undefined
  | n+1, _, type, depth =>
    if depth < maxDepth then
      match type with
      | .Arr => do
        let len ← lua_rawlen heap 1
        (List.range len).forM fun i => arrRound heap wild numeral (serializeTable n) depth (i+1)
        put (.int 1 LuaValueType.nil.code)
      | .Hash => do
        Prog.push .nil
        Prog.whileDo (lua_next heap 2) (hashRound heap wild numeral (serializeTable n) depth) (n+1)
        put (.int 1 LuaValueType.nil.code)
      | _ => pure ()
    else put (.int 1 LuaValueType.nil.code)

-- `lua_checkstack` makes room and changes nothing
def Serialize (n : Nat) : Code Bool := do
  match ← Prog.peek 1 with
  | .table _ =>
    let type ← getLuaTypeTable heap 1
    put (.int 1 type.code)
    serializeTable heap wild numeral n 1 type 1
    pure true
  | _ => pure false

end Heap

end Pworld.Lua
