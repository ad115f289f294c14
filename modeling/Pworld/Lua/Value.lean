import Pworld.Support.Bytes
import Pworld.Support.Double

/-! Lua values as the library shows them to C: a table is its entries in the order in
which `lua_next` gives them, with what its metatable and `lua_rawlen` answer. -/
namespace Pworld.Lua

structure Shape where
  len : Bool  -- the metatable has a `__len`
  pairs : Bool  -- the metatable has a `__pairs`
  border : Nat  -- what `lua_rawlen` returns
  deriving DecidableEq,Repr

inductive Value where
  | nil
  | bool (b : Bool)
  | int (n : BitVec 64)
  | flt (bits : BitVec 64)
  | str (s : Bytes)
  | table (shape : Shape) (entries : List (Value × Value))
  | other (id : Nat)  -- functions, userdata and threads

/-- Equality of keys. Tables are compared by identity, and none of ours is a key. -/
def keyEq : Value → Value → Bool
  | .bool a, .bool b => a == b
  | .int a, .int b => a == b
  | .flt a, .flt b => a == b
  | .str a, .str b => a == b
  | .other a, .other b => a == b
  | _, _ => false

abbrev Entries := List (Value × Value)

def rawget (es : Entries) (k : Value) : Value :=
  match es.find? fun e => keyEq e.1 k with
  | some e => e.2
  | none => .nil

def nextAfter : Entries → Value → Option (Value × Value)
  | [], _ => none
  | e::es, k => if keyEq e.1 k then es.head? else nextAfter es k

/-- `lua_next`: the entry after a key, the first one after nil. -/
def next (es : Entries) : Value → Option (Value × Value)
  | .nil => es.head?
  | k => nextAfter es k

/-- A float that is an integer indexes as that integer. -/
def normKey : Value → Value
  | .flt bits =>
    match (Double.ofBits bits).int? with
    | some n => if -2^63 ≤ n ∧ n < 2^63 then .int (BitVec.ofInt 64 n) else .flt bits
    | none => .flt bits
  | k => k

/-- A raw assignment: an entry whose key is there keeps its place. -/
def rawset (es : Entries) (k v : Value) : Entries :=
  let k := normKey k
  match v with
  | .nil => es.filter fun e => !keyEq e.1 k
  | v =>
    if es.any fun e => keyEq e.1 k then es.map fun e => if keyEq e.1 k then (e.1,v) else e
    else es ++ [(k,v)]

namespace Value

def isTable : Value → Bool
  | .table _ _ => true
  | _ => false

def entries : Value → Entries
  | .table _ es => es
  | _ => []

def shape : Value → Shape
  | .table shape _ => shape
  | _ => ⟨false,false,0⟩

/-- `lua_tonumber` of a number. -/
def toNumber : Value → Double
  | .int n => .ofInt n.toInt
  | .flt bits => .ofBits bits
  | _ => .fin false 0

/-- `lua_tointeger` of a number: zero where a float is no integer of 64 bits. -/
def toInteger : Value → BitVec 64
  | .int n => n
  | .flt bits =>
    match (Double.ofBits bits).int? with
    | some n => if -2^63 ≤ n ∧ n < 2^63 then BitVec.ofInt 64 n else 0
    | none => 0
  | _ => 0

-- only asked of floats
def doubleBits : Value → BitVec 64
  | .flt bits => bits
  | _ => 0

def toBytes : Value → Bytes
  | .str s => s
  | _ => []

def toBoolean : Value → Bool
  | .nil | .bool false => false
  | _ => true

end Value

end Pworld.Lua
