import Pworld.Support.Stack
import Mathlib.Logic.Function.Basic

/-! `LuaHelper`: every type has a metatable, whose metatable is that of its parent. Userdata
are pushed with the metatable of their type, and checked by a walk from one to the next. -/
namespace Pworld.Script

open Stack

namespace LuaHelper

/-- What a `void*` points to. -/
inductive Ptr where
  | name (type : String)  -- `ObjectAPI<T>::name`
  | mapping (type : String) (i : Nat)
  | block (u : Nat)
  | other (id : Nat)
  deriving DecidableEq,Repr

inductive Val where
  | nil
  | str (s : String)
  | table (addr : Nat)
  | light (p : Ptr)
  | user (u : Nat)
  | dispatcher (type : String) (upvalue : Ptr)  -- a closure of `api_dispatcher<T>`
  | func (id : Nat)
  | other (id : Nat)  -- booleans, numbers and threads
  deriving DecidableEq,Repr

structure Table where
  fields : String → Val
  metatable : Option Nat

structure Userdata where
  obj : Nat  -- the pointer in its block, 0 for null
  metatable : Option Nat

/-- The named metatables are those of the registry. -/
structure State where
  heap : List Table
  registry : String → Option Nat
  blocks : List Userdata

/-- `ObjectParent<T>::Parent` and `ObjectAPI<T>::mapping`; a type goes by its name. -/
structure ObjectAPI where
  Parent : String → String
  mapping : String → List (String × Nat)

inductive Found where
  | field (v : Val)
  | handler (f self : Val)  -- an `__index` that is a function, to be called

namespace State

def rawget (s : State) (v : Val) (k : String) : Val :=
  match v with
  | .table a => match s.heap[a]? with
    | some t => t.fields k
    | none => .nil
  | _ => .nil

/-- Of a table or a userdata. Light userdata and functions have none, and no string comes here. -/
def metatable (s : State) : Val → Option Nat
  | .table a => s.heap[a]?.bind Table.metatable
  | .user u => s.blocks[u]?.bind Userdata.metatable
  | _ => none

/-- A field of the metatable. -/
def metafield (s : State) (v : Val) (event : String) : Val :=
  match s.metatable v with
  | some m => s.rawget (.table m) event
  | none => .nil

/-- `v.k`, or `none` for an error; strings are not followed. -/
def index (s : State) : Nat → Val → String → Option Found
  | 0, _, _ => none
  | fuel+1, v, k =>
    if s.rawget v k ≠ .nil then some (.field (s.rawget v k))
    else match s.metafield v "__index" with
      | .nil => match v with
        | .table _ => some (.field .nil)
        | _ => none
      | .func id => some (.handler (.func id) v)
      | .dispatcher T p => some (.handler (.dispatcher T p) v)
      | next => s.index fuel next k

def modify (s : State) (a : Nat) (f : Table → Table) : State := {s with heap := s.heap.modify a f}

def rawset (s : State) (a : Nat) (k : String) (v : Val) : State :=
  s.modify a fun t => {t with fields := Function.update t.fields k v}

def setmetatable (s : State) (v : Val) (m : Option Nat) : Option State :=
  match v with
  | .table a => some (s.modify a fun t => {t with metatable := m})
  | .user u => some {s with blocks := s.blocks.modify u fun b => {b with metatable := m}}
  | _ => none

end State

abbrev Api (β : Type) := Prog State Val β

def isuserdata : Val → Bool
  | .light _ | .user _ => true
  | _ => false

def touserdata : Val → Option Ptr
  | .light p => some p
  | .user u => some (.block u)
  | _ => none

section

open Prog (push peek pop replace undefined)

def newmetatable (name : String) : Api Unit := fun (s,stack) =>
  match s.registry name with
  | some a => some ((),(s,.table a::stack))
  | none => some ((),({s with
      heap := s.heap ++ [⟨Function.update (fun _ => .nil) "__name" (.str name),none⟩]
      registry := Function.update s.registry name (some s.heap.length)},
    .table s.heap.length::stack))

def pushvalue (i : Nat) : Api Unit := do
  push (← peek i)

/-- `lua_rawset(L,-3)` -/
def rawset : Api Unit
  | (s,v::.str k::.table a::stack) => some ((),(s.rawset a k v,.table a::stack))
  | _ => none

/-- `lua_setfield(L,-2,k)`; a `__newindex` is not followed. -/
def setfield (k : String) : Api Unit
  | (s,v::.table a::stack) =>
    if s.rawget (.table a) k ≠ .nil ∨ s.metatable (.table a) = none then
      some ((),(s.rawset a k v,.table a::stack))
    else none
  | _ => none

/-- The light userdata on top becomes the upvalue. -/
def pushcclosure (T : String) : Api Unit
  | (s,.light p::stack) => some ((),(s,.dispatcher T p::stack))
  | _ => none

/-- `luaL_getmetatable` -/
def pushmetatable (name : String) : Api Unit := fun (s,stack) =>
  some ((),(s,((s.registry name).elim .nil .table)::stack))

/-- `lua_setmetatable(L,-2)` -/
def setmetatable : Api Unit
  | (s,.nil::v::stack) => (s.setmetatable v none).map fun s => ((),(s,v::stack))
  | (s,.table m::v::stack) => (s.setmetatable v (some m)).map fun s => ((),(s,v::stack))
  | _ => none

/-- `lua_getmetatable(L,-1)` -/
def getmetatable : Api Bool
  | (s,v::stack) => match s.metatable v with
    | some m => some (true,(s,.table m::v::stack))
    | none => some (false,(s,v::stack))
  | _ => none

/-- `lua_getfield(L,-1,k)` -/
def getfield (fuel : Nat) (k : String) : Api Unit
  | (s,v::stack) => match s.index fuel v k with
    | some (.field field) => some ((),(s,field::v::stack))
    | _ => none
  | _ => none

/-- The value at a place counted from the bottom, or from the top if negative. -/
def value (n : Int) (stack : List Val) : Option Val :=
  if 0 < n then stack.reverse[n.toNat-1]?
  else if n < 0 then stack[(-n).toNat-1]?
  else none

/-- `p ? *p : nullptr` of a pointer to an object. -/
def deref (s : State) : Option Ptr → Option Nat
  | none => some 0
  | some (.block u) => s.blocks[u]?.map Userdata.obj
  | some _ => none

/-- The loop over the mappings, each with its place. -/
def registerAll (T : String) : List ((String × Nat) × Nat) → Api Unit
  | [] => pure ()
  | (mapping,i)::rest => do
    push (.str mapping.1)
    push (.light (.mapping T i))
    pushcclosure T
    rawset
    registerAll T rest

def RegisterObjectApi (api : ObjectAPI) (T : String) : Api Unit := do
  newmetatable T
  push (.str "__index")
  pushvalue 2
  rawset
  push (.light (.name T))
  setfield "__name"
  registerAll T (api.mapping T).zipIdx
  if api.Parent T ≠ T then do
    pushmetatable (api.Parent T)
    setmetatable
  pop 1

def newuserdata (obj : Nat) : Api Unit := fun (s,stack) =>
  some ((),({s with blocks := s.blocks ++ [⟨obj,none⟩]},.user s.blocks.length::stack))

def PushObject (T : String) (obj : Nat) : Api Unit := do
  newuserdata obj
  pushmetatable T
  setmetatable

/-- `while (r != 0)`: whether it ends with `r` 0. -/
def walk (T : String) : Nat → Api Bool
  | 0 => undefined
  | fuel+1 => do
    if ← getmetatable then do
      getfield (fuel+1) "__name"
      let name ← peek 1
      pop 1
      replace 2
      if touserdata name = some (.name T) then pure true else walk T fuel
    else pure false

def message (T : String) (n : Int) : String :=
  "argument #" ++ toString n ++ " MUST be userdata of type " ++ T

/-- What is raised is the message of `luaL_error`, without the place it names first. -/
def GetObject (fuel : Nat) (T : String) (n : Int) : Api (Except String Nat) := fun (s,stack) =>
  let checked : Option (Bool × State × List Val) :=
    match (value n stack).filter isuserdata with
    | none => some (false,(s,stack))
    | some v => (do
        push v
        let r ← walk T fuel
        pop 1
        pure r : Api Bool) (s,stack)
  checked.bind fun (r,(s,stack)) =>
    if r then (deref s ((value n stack).bind touserdata)).map fun obj => (.ok obj,(s,stack))
    else some (.error (message T n),(s,stack))

/-- `lua_remove(L,1)` -/
def removeFirst : Api Unit := fun (s,stack) => some ((),(s,stack.dropLast))

/-- `run` is the functions of the mappings, and `trace` what a debug build logs. -/
def api_dispatcher (api : ObjectAPI) (run : Nat → Nat → Api (Except String Nat))
    (trace : Option String) (fuel : Nat) (T : String) (upvalue : Ptr) :
    Api (Except String Nat) := do
  match ← GetObject fuel T 1 with
  | .error message => pure (.error message)
  | .ok obj =>
    if obj = 0 then pure (.ok 0)
    else do
      if let some text := trace then do
        push (.str text)
        pop 1
      removeFirst
      match upvalue with
      | .mapping U i => match (api.mapping U)[i]? with
        | some mapping => run mapping.2 obj
        | none => undefined
      | _ => undefined

end

namespace ObjectAPI

variable (api : ObjectAPI)

/-- The mapping that a name is left with: the last one. -/
def defines (T k : String) : Option Nat :=
  ((api.mapping T).zipIdx.reverse.find? fun e => e.1.1 == k).map Prod.snd

/-- The fields of the metatable of `T` at `a`. -/
def fields (T : String) (a : Nat) (k : String) : Val :=
  match api.defines T k with
  | some i => .dispatcher T (.mapping T i)
  | none => if k = "__name" then .light (.name T) else if k = "__index" then .table a else .nil

end ObjectAPI

variable {s : State} {stack : List Val} {T : String}

def overlay (T : String) (ms : List ((String × Nat) × Nat)) (f : String → Val) (k : String) : Val :=
  match (ms.reverse.find? fun e => e.1.1 == k).map Prod.snd with
  | some i => .dispatcher T (.mapping T i)
  | none => f k

theorem overlay_cons (e : (String × Nat) × Nat) (ms : List ((String × Nat) × Nat))
    (f : String → Val) : overlay T (e::ms) f =
      overlay T ms (Function.update f e.1.1 (.dispatcher T (.mapping T e.2))) := by
  funext k
  unfold overlay
  rw [List.reverse_cons,List.find?_append]
  cases ms.reverse.find? fun e => e.1.1 == k with
  | some later => rfl
  | none =>
    by_cases same : e.1.1 = k
    · subst same
      simp
    · simp [same,Function.update_of_ne (Ne.symm same)]

theorem overlay_fields (api : ObjectAPI) (T : String) (a : Nat) :
    overlay T (api.mapping T).zipIdx (Function.update (Function.update (Function.update
      (fun _ => .nil) "__name" (.str T)) "__index" (.table a)) "__name" (.light (.name T))) =
      api.fields T a := by
  funext k
  unfold overlay ObjectAPI.fields ObjectAPI.defines
  split
  · rfl
  · simp only [Function.update_apply]
    split_ifs <;> rfl

theorem modify_modify (s : State) (a : Nat) (f g : Table → Table) :
    (s.modify a f).modify a g = s.modify a (g ∘ f) := by
  simp only [State.modify,List.modify_modify_eq]

theorem modify_concat {α : Type} (l : List α) (a : α) (f : α → α) :
    (l ++ [a]).modify l.length f = l ++ [f a] := by
  induction l with
  | nil => rfl
  | cons b l ih => exact congrArg (b::·) ih

theorem registerAll_run (ms : List ((String × Nat) × Nat)) (a : Nat) :
    registerAll T ms (s,.table a::stack) = some ((),
      (s.modify a fun t => {t with fields := overlay T ms t.fields},.table a::stack)) := by
  induction ms generalizing s with
  | nil =>
    have same : (fun t : Table => {t with fields := overlay T [] t.fields}) = id := rfl
    rw [same,State.modify,List.modify_id]
    rfl
  | cons e ms ih =>
    have round : registerAll T (e::ms) (s,.table a::stack) =
      registerAll T ms (s.rawset a e.1.1 (.dispatcher T (.mapping T e.2)),.table a::stack) := rfl
    rw [round,ih,State.rawset,modify_modify]
    simp only [overlay_cons]
    rfl

/-- With the metatable of `T`. -/
def State.register (s : State) (api : ObjectAPI) (T : String) : State :=
  {s with
    heap := s.heap ++ [⟨api.fields T s.heap.length,
      if api.Parent T = T then none else s.registry (api.Parent T)⟩]
    registry := Function.update s.registry T (some s.heap.length)}

theorem RegisterObjectApi_run (api : ObjectAPI) (new : s.registry T = none) :
    RegisterObjectApi api T (s,stack) = some ((),(s.register api T,stack)) := by
  unfold State.register
  simp only [RegisterObjectApi,newmetatable,new,Prog.bind_run,Option.bind_some,Prog.push_run,
    pushvalue,Prog.peek_second,rawset,State.rawset,State.modify,modify_concat,setfield,
    State.rawget,State.metatable,List.getElem?_concat_length]
  rw [if_pos (Or.inr trivial),Option.bind_some,registerAll_run,Option.bind_some]
  simp only [State.modify,modify_concat,overlay_fields]
  by_cases root : api.Parent T = T
  · rw [if_neg (not_not_intro root),if_pos root]
    rfl
  · rw [if_pos root,if_neg root]
    simp only [Prog.bind_run,pushmetatable,Function.update_of_ne root,Option.bind_some]
    cases s.registry (api.Parent T) with
    | none => simp [setmetatable,State.setmetatable,State.modify,modify_concat]
    | some m => simp [setmetatable,State.setmetatable,State.modify,modify_concat]

section

variable {v : Val} {k : String} {fuel : Nat}

theorem index_raw (here : s.rawget v k ≠ .nil) :
    s.index (fuel+1) v k = some (.field (s.rawget v k)) := by
  unfold State.index
  rw [if_pos here]

theorem index_end {a : Nat} (absent : s.rawget (.table a) k = .nil)
    (top : s.metatable (.table a) = none) :
    s.index (fuel+1) (.table a) k = some (.field .nil) := by
  unfold State.index
  rw [if_neg (not_not_intro absent),State.metafield,top]

theorem index_next {m b : Nat} (absent : s.rawget v k = .nil) (has : s.metatable v = some m)
    (next : s.rawget (.table m) "__index" = .table b) :
    s.index (fuel+1) v k = s.index fuel (.table b) k := by
  have field : s.metafield v "__index" = .table b := by
    rw [State.metafield,has]
    exact next
  conv_lhs => unfold State.index
  rw [if_neg (not_not_intro absent),field]

end

theorem PushObject_run (obj : Nat) : PushObject T obj (s,stack) =
    some ((),({s with blocks := s.blocks ++ [⟨obj,s.registry T⟩]},.user s.blocks.length::stack)) := by
  cases named : s.registry T with
  | none => simp [PushObject,newuserdata,pushmetatable,setmetatable,named,State.setmetatable,
      modify_concat]
  | some a => simp [PushObject,newuserdata,pushmetatable,setmetatable,named,State.setmetatable,
      modify_concat]

end LuaHelper

end Pworld.Script
