import Pworld.Buffer.Typed
import Pworld.Lua.Faithful
import Pworld.Support.Runs
import Pworld.Support.Stack

/-! `ScriptTable`: a table that C++ holds by a number of the registry. It is written behind a
flag; what reads it back looks at the top of the stack, whoever pushed it. -/
namespace Pworld.Script

open Lua Stack

namespace ScriptTable

inductive Slot where
  | table (a : Nat)
  | other (id : Nat)
  deriving DecidableEq,Repr

/-- The tables by their addresses, and what `luaL_ref` has given out. -/
structure State where
  heap : List Value
  slots : List (Option Nat)
  free : List Nat  -- the numbers given back, the last one first
  freed : List Nat  -- of every call of `luaL_unref`

namespace State

/-- The number that `luaL_ref` gives next, and what it does. -/
def next (s : State) : Nat := s.free.headD s.slots.length

def refer (s : State) (a : Nat) : State :=
  match s.free with
  | r::free => {s with slots := s.slots.set r (some a), free := free}
  | [] => {s with slots := s.slots ++ [some a]}

def unref (s : State) (r : Nat) : State :=
  {s with slots := s.slots.set r none, free := r::s.free, freed := s.freed ++ [r]}

def release (s : State) (_tab_ref : Option Nat) : State := _tab_ref.elim s s.unref

def value (s : State) : Slot → Value
  | .table a => s.heap[a]?.getD .nil
  | .other _ => .nil

/-- The table that a `ScriptTable` holds. -/
def table (s : State) (_tab_ref : Option Nat) : Option Value := do
  let r ← _tab_ref
  let a ← s.slots[r]?.join
  s.heap[a]?

end State

abbrev Api (β : Type) := Prog State Slot β

section

open Prog (push peek pop undefined)

def newtable (v : Value) : Api Unit := fun (s,stack) =>
  some ((),({s with heap := s.heap ++ [v]},.table s.heap.length::stack))

def ref : Api Nat
  | (s,.table a::stack) => some (s.next,(s.refer a,stack))
  | _ => none

def rawgeti (r : Nat) : Api Unit := fun (s,stack) =>
  some ((),(s,(s.slots[r]?.join.elim (.other 0) .table)::stack))

def Destroy (_tab_ref : Option Nat) : Api (Option Nat) := fun (s,stack) =>
  some (none,(s.release _tab_ref,stack))

/-- `stack` is counted from the top, as a negative index is. -/
def Create (stack : Nat) (_tab_ref : Option Nat) : Api (Option Nat) := do
  match ← peek stack with
  | .table _ => do
    let _ ← Destroy _tab_ref
    push (← peek stack)
    let r ← ref
    pure (some r)
  | .other _ => pure _tab_ref

def GetTable (_tab_ref : Option Nat) : Api (Option Nat) := do
  match _tab_ref with
  | none => do
    newtable (.table ⟨false,false,0⟩ [])
    Create 1 none
  | some r => do
    rawgeti r
    pure _tab_ref

variable (wild : Double → BitVec 64)

def Serialize (_tab_ref : Option Nat) (bb : ByteBuffer) : Api ByteBuffer := fun (s,stack) =>
  match _tab_ref with
  | none => some (bb.putInt 1 0,(s,stack))
  | some r => (do
      rawgeti r
      let top ← peek 1
      pop 1
      pure (Lua.Serialize wild (s.value top) (bb.putInt 1 1)).2 : Api ByteBuffer) (s,stack)

/-- What `LuaTable::Deserialize` leaves on the stack. -/
def pushResult : Option Value → Api Unit
  | some v => newtable v
  | none => pure ()

/-- `stale` is what the local of the flag holds where nothing is read. An error of Lua and a
failed assertion are left undefined. -/
def Deserialize (stale : Nat) (junk : Nat → Nat) (n : Nat) (_tab_ref : Option Nat)
    (bb : ByteBuffer) : Api (Option Nat × ByteBuffer) :=
  if (bb.getInt 1).1.getD (stale % 256) = 0 then pure (_tab_ref,(bb.getInt 1).2)
  else
    match Lua.Deserialize junk n (bb.getInt 1).2 with
    | some (.ok (pushed,r)) => do
      pushResult pushed
      let _tab_ref ← Create 1 _tab_ref
      pop 1
      pure (_tab_ref,r.bb)
    | _ => undefined

end

section

variable {s : State} {stack : List Slot} {a : Nat} {t : Option Nat}

theorem Create_table {k : Nat} (top : stack[k-1]? = some (.table a)) :
    Create k t (s,stack) = some (some (s.release t).next,((s.release t).refer a,stack)) := by
  simp only [Create,Prog.peek,top,Destroy,ref,Prog.bind_run,Option.map_some,Option.bind_some,
    Prog.push_run,Prog.pure_run]

theorem Create_other {k id : Nat} (top : stack[k-1]? = some (.other id)) :
    Create k t (s,stack) = some (t,(s,stack)) := by
  simp only [Create,Prog.peek,top,Prog.bind_run,Option.map_some,Option.bind_some,Prog.pure_run]

theorem Create_keeps {k : Nat} {s' : State} {stack' : List Slot} {t' : Option Nat}
    (ran : Create k t (s,stack) = some (t',(s',stack'))) : stack' = stack := by
  cases top : stack[k-1]? with
  | none =>
    simp only [Create,Prog.peek,top,Prog.bind_run,Option.map_none,Option.bind_none] at ran
    cases ran
  | some slot =>
    cases slot with
    | table a =>
      rw [Create_table top] at ran
      cases ran
      rfl
    | other id =>
      rw [Create_other top] at ran
      cases ran
      rfl

end

/-- All the `ScriptTable`s constructed so far. -/
structure World where
  lua : State
  tabs : List (Option Nat)

inductive WorldOp where
  | construct
  | create (i k : Nat) (stack : List Slot)
  | destroy (i : Nat)
  | getTable (i : Nat) (stack : List Slot)
  | deserialize (i stale : Nat) (junk : Nat → Nat) (n : Nat) (bb : ByteBuffer) (stack : List Slot)
  | script (heap : List Value)  -- the tables after scripts made and changed some

namespace World

def inside (w : World) (stack : List Slot) : Bool :=
  stack.all fun
    | .table a => a < w.lua.heap.length
    | .other _ => true

/-- A method of the object `i`, which stores what it says. -/
def call (w : World) (i : Nat) (stack : List Slot) (method : Option Nat → Api (Option Nat)) :
    Option World := do
  let t ← w.tabs[i]?
  if w.inside stack then
    (method t (w.lua,stack)).map fun (t,s,_) => ⟨s,w.tabs.set i t⟩
  else none

def step (w : World) : WorldOp → Option World
  | .construct => some {w with tabs := w.tabs ++ [none]}
  | .create i k stack => w.call i stack (Create k)
  | .destroy i => w.call i [] Destroy
  | .getTable i stack => w.call i stack GetTable
  | .deserialize i stale junk n bb stack =>
    w.call i stack fun t => Prod.fst <$> Deserialize stale junk n t bb
  | .script heap =>
    if w.lua.heap.length ≤ heap.length ∧ heap.all Value.isTable then
      some {w with lua := {w.lua with heap := heap}}
    else none

def start : World := ⟨⟨[],[],[],[]⟩,[]⟩

end World

/-- Every number held stands for a table and is held once; those given back stand for none. -/
structure Sound (s : State) (tabs : List (Option Nat)) : Prop where
  tables : ∀ v ∈ s.heap, v.isTable = true
  live : ∀ (i r : Nat), tabs[i]? = some (some r) →
    ∃ a, s.slots[r]? = some (some a) ∧ a < s.heap.length
  distinct : ∀ (i j r : Nat), tabs[i]? = some (some r) → tabs[j]? = some (some r) → i = j
  free : ∀ r ∈ s.free, s.slots[r]? = some none
  once : s.free.Nodup

section

variable {s : State} {tabs : List (Option Nat)} {i a : Nat} {t : Option Nat}

theorem set_some {j r : Nat} (inside : i < tabs.length) :
    (tabs.set i t)[j]? = some (some r) ↔ (i = j ∧ t = some r) ∨ (i ≠ j ∧ tabs[j]? = some (some r)) := by
  by_cases same : i = j
  · subst same
    rw [List.getElem?_set_self inside]
    simp
  · rw [List.getElem?_set_ne same]
    simp [same]

theorem sound_release (sound : Sound s tabs) (at_ : tabs[i]? = some t) :
    Sound (s.release t) (tabs.set i none) := by
  have inside : i < tabs.length := (List.getElem?_eq_some_iff.mp at_).1
  obtain ⟨tables,live,distinct,free,once⟩ := sound
  have others {j r : Nat} (held : (tabs.set i none)[j]? = some (some r)) :
      i ≠ j ∧ tabs[j]? = some (some r) := by
    rcases (set_some inside).mp held with ⟨_,none_⟩ | other
    · cases none_
    · exact other
  have distinct' : ∀ (j k r : Nat), (tabs.set i none)[j]? = some (some r) →
      (tabs.set i none)[k]? = some (some r) → j = k := by
    intro j k r held held'
    exact distinct j k r (others held).2 (others held').2
  cases t with
  | none => exact ⟨tables,fun j r held => live j r (others held).2,distinct',free,once⟩
  | some r =>
    obtain ⟨a,here,_⟩ := live i r at_
    have bound : r < s.slots.length := (List.getElem?_eq_some_iff.mp here).1
    refine ⟨tables,?_,distinct',?_,?_⟩
    · intro j r' held
      obtain ⟨other,held⟩ := others held
      have ne : r ≠ r' := by
        rintro rfl
        exact other (distinct i j r at_ held)
      obtain ⟨a',there,fits⟩ := live j r' held
      refine ⟨a',?_,fits⟩
      simp only [State.release,State.unref,Option.elim,List.getElem?_set_ne ne,there]
    · intro r' member
      simp only [State.release,State.unref,Option.elim] at member ⊢
      rcases List.mem_cons.mp member with rfl | older
      · exact List.getElem?_set_self bound
      · by_cases same : r = r'
        · rw [same,List.getElem?_set_self (same ▸ bound)]
        · rw [List.getElem?_set_ne same,free r' older]
    · refine List.nodup_cons.mpr ⟨fun member => ?_,once⟩
      cases here.symm.trans (free r member)

theorem refer_slots (free : ∀ r ∈ s.free, s.slots[r]? = some none) :
    (s.refer a).slots[s.next]? = some (some a) ∧
      ∀ r, r ≠ s.next → ∀ o, s.slots[r]? = some o → (s.refer a).slots[r]? = some o := by
  unfold State.refer State.next
  split
  next r rest same =>
    have there := free r (by rw [same]; exact List.mem_cons_self)
    rw [same,List.headD_cons]
    refine ⟨List.getElem?_set_self (List.getElem?_eq_some_iff.mp there).1,?_⟩
    intro r' other o here
    rw [List.getElem?_set_ne (Ne.symm other),here]
  next same =>
    rw [same,List.headD_nil]
    refine ⟨List.getElem?_concat_length,?_⟩
    intro r' _ o here
    rw [List.getElem?_append_left (List.getElem?_eq_some_iff.mp here).1,here]

theorem next_free (free : ∀ r ∈ s.free, s.slots[r]? = some none) (a : Nat) :
    s.slots[s.next]? ≠ some (some a) := by
  unfold State.next
  cases frees : s.free with
  | nil =>
    rw [List.headD_nil,List.getElem?_eq_none (Nat.le_refl _)]
    nofun
  | cons r rest =>
    rw [List.headD_cons,free r (by rw [frees]; exact List.mem_cons_self)]
    nofun

theorem refer_rest (s : State) (a : Nat) :
    (s.refer a).heap = s.heap ∧ (s.refer a).free = s.free.tail ∧ (s.refer a).freed = s.freed := by
  unfold State.refer
  split
  next same => exact ⟨rfl,by rw [same]; rfl,rfl⟩
  next same => exact ⟨rfl,by rw [same]; rfl,rfl⟩

theorem release_rest (s : State) (t : Option Nat) :
    (s.release t).heap = s.heap ∧ (s.release t).freed = s.freed ++ t.toList := by
  cases t with
  | none => exact ⟨rfl,(List.append_nil _).symm⟩
  | some r => exact ⟨rfl,rfl⟩

theorem sound_refer (sound : Sound s tabs) (at_ : tabs[i]? = some none) (fits : a < s.heap.length) :
    Sound (s.refer a) (tabs.set i (some s.next)) := by
  have inside : i < tabs.length := (List.getElem?_eq_some_iff.mp at_).1
  obtain ⟨tables,live,distinct,free,once⟩ := sound
  obtain ⟨own,kept⟩ := refer_slots (a := a) free
  obtain ⟨heap,frees,_⟩ := refer_rest s a
  have other {j r : Nat} (held : tabs[j]? = some (some r)) : r ≠ s.next := by
    rintro rfl
    obtain ⟨a',there,_⟩ := live j _ held
    exact next_free free a' there
  refine ⟨by rwa [heap],?_,?_,?_,?_⟩
  · intro j r held
    rw [heap]
    rcases (set_some inside).mp held with ⟨_,same⟩ | ⟨_,held⟩
    · cases same
      exact ⟨a,own,fits⟩
    · obtain ⟨a',there,fits'⟩ := live j r held
      exact ⟨a',kept r (other held) _ there,fits'⟩
  · intro j k r held held'
    rcases (set_some inside).mp held with ⟨same,mine⟩ | ⟨_,held⟩
    · rcases (set_some inside).mp held' with ⟨same',_⟩ | ⟨_,held'⟩
      · exact same.symm.trans same'
      · exact absurd (Option.some.inj mine).symm (other held')
    · rcases (set_some inside).mp held' with ⟨_,mine⟩ | ⟨_,held'⟩
      · exact absurd (Option.some.inj mine).symm (other held)
      · exact distinct j k r held held'
  · intro r member
    rw [frees] at member
    apply kept r _ none (free r (List.mem_of_mem_tail member))
    rintro rfl
    unfold State.next at member
    cases list : s.free with
    | nil =>
      rw [list] at member
      cases member
    | cons r rest =>
      rw [list] at member once
      exact (List.nodup_cons.mp once).1 member
  · rw [frees]
    exact once.tail

theorem sound_heap {heap : List Value} (sound : Sound s tabs) (longer : s.heap.length ≤ heap.length)
    (tables : ∀ v ∈ heap, v.isTable = true) : Sound {s with heap := heap} tabs := by
  obtain ⟨_,live,distinct,free,once⟩ := sound
  refine ⟨tables,?_,distinct,free,once⟩
  intro i r held
  obtain ⟨a,there,fits⟩ := live i r held
  exact ⟨a,there,Nat.lt_of_lt_of_le fits longer⟩

theorem sound_newtable {v : Value} (sound : Sound s tabs) (table : v.isTable = true) :
    Sound {s with heap := s.heap ++ [v]} tabs := by
  apply sound_heap sound
  · rw [List.length_append]
    exact Nat.le_add_right _ _
  · intro v' member
    rcases List.mem_append.mp member with older | last
    · exact sound.tables v' older
    · rwa [List.mem_singleton.mp last]

theorem fits_newtable {stack : List Slot} (fits : ∀ a, .table a ∈ stack → a < s.heap.length)
    (v : Value) : ∀ a, .table a ∈ Slot.table s.heap.length::stack → a < (s.heap ++ [v]).length := by
  intro a member
  rw [List.length_append,List.length_singleton]
  rcases List.mem_cons.mp member with same | older
  · cases same
    exact Nat.lt_succ_self _
  · exact Nat.lt_succ_of_lt (fits a older)

/-- `Create` keeps everything in order, whatever is on the stack. -/
theorem sound_create {k : Nat} {stack stack' : List Slot} {s' : State} {t' : Option Nat}
    (sound : Sound s tabs) (at_ : tabs[i]? = some t)
    (fits : ∀ a, .table a ∈ stack → a < s.heap.length)
    (ran : Create k t (s,stack) = some (t',(s',stack'))) : Sound s' (tabs.set i t') := by
  cases top : stack[k-1]? with
  | none =>
    simp only [Create,Prog.peek,top,Prog.bind_run,Option.map_none,Option.bind_none] at ran
    cases ran
  | some slot =>
    cases slot with
    | other id =>
      rw [Create_other top] at ran
      cases ran
      obtain ⟨inside,same⟩ := List.getElem?_eq_some_iff.mp at_
      rwa [← same,List.set_getElem_self]
    | table a =>
      rw [Create_table top] at ran
      cases ran
      have inside : i < tabs.length := (List.getElem?_eq_some_iff.mp at_).1
      have heap := (release_rest s t).1
      have fits' := fits a (List.mem_of_getElem? top)
      rw [← heap] at fits'
      have referred := sound_refer (sound_release sound at_) (List.getElem?_set_self inside) fits'
      rwa [List.set_set] at referred

end

theorem sound_start : Sound World.start.lua World.start.tabs := by
  refine ⟨?_,?_,?_,?_,List.nodup_nil⟩
  · intro v member
    cases member
  · intro i r held
    cases held
  · intro i j r held
    cases held
  · intro r member
    cases member

theorem pushed_isTable {junk : Nat → Nat} {n : Nat} {bb : ByteBuffer} {v : Value} {r : Reader}
    (read : Lua.Deserialize junk n bb = some (.ok (some v,r))) : v.isTable = true := by
  unfold Lua.Deserialize at read
  dsimp only at read
  split at read
  · obtain ⟨out,filled,same⟩ := Option.map_eq_some_iff.mp read
    obtain ⟨body,_,rfl⟩ := Option.map_eq_some_iff.mp filled
    cases body with
    | error => cases same
    | ok body =>
      cases same
      rfl
  · cases read

section

variable {s : State} {stack : List Slot} {t : Option Nat} {stale : Nat} {junk : Nat → Nat}
  {n : Nat} {bb : ByteBuffer} {r : Reader}

theorem Deserialize_empty (flag : (bb.getInt 1).1.getD (stale % 256) = 0) :
    Deserialize stale junk n t bb (s,stack) = some ((t,(bb.getInt 1).2),(s,stack)) := by
  rw [Deserialize,if_pos flag]
  rfl

/-- Where nothing is pushed, what is on top belongs to the caller. -/
theorem Deserialize_read {pushed : Option Value}
    (flag : (bb.getInt 1).1.getD (stale % 256) ≠ 0)
    (read : Lua.Deserialize junk n (bb.getInt 1).2 = some (.ok (pushed,r))) :
    Deserialize stale junk n t bb (s,stack) =
      (pushResult pushed (s,stack)).bind fun first => (Create 1 t first.2).bind fun out =>
        (Prog.pop 1 out.2).bind fun popped => some ((out.1,r.bb),popped.2) := by
  simp only [Deserialize,if_neg flag,read,Prog.bind_run,Prog.pure_run]

theorem Deserialize_table {v : Value} (flag : (bb.getInt 1).1.getD (stale % 256) ≠ 0)
    (read : Lua.Deserialize junk n (bb.getInt 1).2 = some (.ok (some v,r))) :
    Deserialize stale junk n t bb (s,stack) =
      let s' := ({s with heap := s.heap ++ [v]} : State).release t
      some ((some s'.next,r.bb),(s'.refer s.heap.length,stack)) := by
  rw [Deserialize_read flag read]
  simp only [pushResult,newtable,Option.bind_some]
  rw [Create_table (k := 1) List.getElem?_cons_zero]
  simp only [Option.bind_some,Prog.pop_one]

theorem pop_state {k : Nat} {s' : State} {stack' : List Slot} {u : Unit}
    (popped : Prog.pop k (s,stack) = some (u,(s',stack'))) :
    k ≤ stack.length ∧ s' = s ∧ stack' = stack.drop k := by
  simp only [Prog.pop,Option.ite_none_right_eq_some,Option.some.injEq,Prod.mk.injEq] at popped
  exact ⟨popped.1,popped.2.2.1.symm,popped.2.2.2.symm⟩

theorem sound_deserialize {tabs : List (Option Nat)} {i : Nat} {stack' : List Slot} {s' : State}
    {t' : Option Nat} {bb' : ByteBuffer} (sound : Sound s tabs) (at_ : tabs[i]? = some t)
    (fits : ∀ a, .table a ∈ stack → a < s.heap.length)
    (ran : Deserialize stale junk n t bb (s,stack) = some ((t',bb'),(s',stack'))) :
    Sound s' (tabs.set i t') := by
  by_cases flag : (bb.getInt 1).1.getD (stale % 256) = 0
  · rw [Deserialize_empty flag] at ran
    cases ran
    obtain ⟨inside,same⟩ := List.getElem?_eq_some_iff.mp at_
    rwa [← same,List.set_getElem_self]
  cases read : Lua.Deserialize junk n (bb.getInt 1).2 with
  | none =>
    rw [Deserialize,if_neg flag,read] at ran
    cases ran
  | some out =>
    rcases out with stop | ⟨pushed,r⟩
    · rw [Deserialize,if_neg flag,read] at ran
      cases ran
    rw [Deserialize_read flag read] at ran
    obtain ⟨⟨_,s₁,stack₁⟩,first,ran⟩ := Option.bind_eq_some_iff.mp ran
    obtain ⟨⟨t₂,s₂,stack₂⟩,created,ran⟩ := Option.bind_eq_some_iff.mp ran
    obtain ⟨⟨_,s₃,stack₃⟩,popped,same⟩ := Option.bind_eq_some_iff.mp ran
    cases same
    obtain ⟨_,rfl,_⟩ := pop_state popped
    cases pushed with
    | none =>
      cases first
      exact sound_create sound at_ fits created
    | some v =>
      cases first
      exact sound_create (sound_newtable sound (pushed_isTable read)) at_ (fits_newtable fits v)
        created

end

theorem call_cases {w w' : World} {i : Nat} {stack : List Slot}
    {method : Option Nat → Api (Option Nat)} (called : w.call i stack method = some w') :
    ∃ t t' s' stack', w.tabs[i]? = some t ∧ (∀ a, .table a ∈ stack → a < w.lua.heap.length) ∧
      method t (w.lua,stack) = some (t',(s',stack')) ∧ w' = ⟨s',w.tabs.set i t'⟩ := by
  obtain ⟨t,at_,called⟩ := Option.bind_eq_some_iff.mp called
  split at called
  next inside =>
    obtain ⟨⟨t',s',stack'⟩,ran,same⟩ := Option.map_eq_some_iff.mp called
    refine ⟨t,t',s',stack',at_,?_,ran,same.symm⟩
    intro a member
    have fits := List.all_eq_true.mp inside _ member
    exact of_decide_eq_true fits
  · cases called

theorem sound_step {w w' : World} {op : WorldOp} (sound : Sound w.lua w.tabs)
    (stepped : w.step op = some w') : Sound w'.lua w'.tabs := by
  cases op with
  | construct =>
    cases stepped
    obtain ⟨tables,live,distinct,free,once⟩ := sound
    have older {i r : Nat} (held : (w.tabs ++ [none])[i]? = some (some r)) :
        w.tabs[i]? = some (some r) := by
      rw [List.getElem?_append] at held
      split at held
      · exact held
      · rw [List.getElem?_singleton] at held
        split at held <;> cases held
    exact ⟨tables,fun i r held => live i r (older held),
      fun i j r held held' => distinct i j r (older held) (older held'),free,once⟩
  | create i k stack =>
    obtain ⟨t,t',s',stack',at_,fits,ran,rfl⟩ := call_cases stepped
    exact sound_create sound at_ fits ran
  | destroy i =>
    obtain ⟨t,t',s',stack',at_,fits,ran,rfl⟩ := call_cases stepped
    cases ran
    exact sound_release sound at_
  | getTable i stack =>
    obtain ⟨t,t',s',stack',at_,fits,ran,rfl⟩ := call_cases stepped
    cases t with
    | none =>
      have opens : GetTable none (w.lua,stack) = Create 1 none
          ({w.lua with heap := w.lua.heap ++ [.table ⟨false,false,0⟩ []]},
            .table w.lua.heap.length::stack) := rfl
      rw [opens] at ran
      exact sound_create (sound_newtable sound rfl) at_ (fits_newtable fits _) ran
    | some r =>
      cases ran
      obtain ⟨inside,same⟩ := List.getElem?_eq_some_iff.mp at_
      rwa [← same,List.set_getElem_self]
  | deserialize i stale junk n bb stack =>
    obtain ⟨t,t',s',stack',at_,fits,ran,rfl⟩ := call_cases stepped
    obtain ⟨⟨⟨_,bb'⟩,_⟩,ran,same⟩ := Option.bind_eq_some_iff.mp ran
    cases same
    exact sound_deserialize sound at_ fits ran
  | script heap =>
    simp only [World.step] at stepped
    split at stepped
    next valid =>
      cases stepped
      exact sound_heap sound valid.1 (List.all_eq_true.mp valid.2)
    · cases stepped

section Restore

variable (wild : Double → BitVec 64) (junk : Nat → Nat)

/-- The codec gives the table back. -/
def Codec (t : Value) : Prop :=
  ∃ b : ByteBuffer, b.Ok ∧ b.readable = [] ∧ (bytesOf (encode wild t)).length ≤ b.free ∧
    RoundTrips wild junk t b

/-- How many bytes `x` takes. -/
def length (s : State) (x : Option Nat) : Nat :=
  1 + (s.table x).elim 0 fun t => (bytesOf (encode wild t)).length

/-- `x` written to `bb`, and read by `y` where it was written, with `after` behind it. -/
def Restores (stale : Nat) (s : State) (stack : List Slot) (x y : Option Nat) (bb : ByteBuffer)
    (after : Bytes) : Prop :=
  ∃ bb' r, Serialize wild x bb (s,stack) = some (bb',(s,stack)) ∧
    (bb'.In after).2.Out bb.avail = (some bb.readable,r) ∧
  ∃ n, ∀ m, n ≤ m → ∃ y' r' s',
    Deserialize stale junk m y r (s,stack) = some ((y',r'),(s',stack)) ∧
    s'.freed = s.freed ++ y.toList ∧ (y' = none ↔ x = none) ∧
    ∀ t, s.table x = some t → ∃ out, s'.table y' = some out ∧ Same t out

/-- There is a flag, and `LuaTable::Deserialize` returns false. -/
def Rejects (stale m : Nat) (bb : ByteBuffer) : Prop :=
  (bb.getInt 1).1.getD (stale % 256) ≠ 0 ∧
    ∃ r, Lua.Deserialize junk m (bb.getInt 1).2 = some (.ok (none,r))

variable {wild junk} {s : State} {tabs : List (Option Nat)} {stack : List Slot}
  {x y : Option Nat} {i j stale : Nat} {bb : ByteBuffer} {after : Bytes}

theorem Serialize_some {r a : Nat} {t : Value} (slot : s.slots[r]? = some (some a))
    (table : s.heap[a]? = some t) : Serialize wild (some r) bb (s,stack) =
      some ((Lua.Serialize wild t (bb.putInt 1 1)).2,(s,stack)) := by
  simp only [Serialize,rawgeti,slot,Option.join_some,Option.elim_some,Prog.bind_run,
    Option.bind_some,Prog.peek_top,Prog.pop_one,Prog.pure_run,State.value,table,Option.getD_some]

/-- The flag, and what comes after it. -/
theorem flag_read {b : UInt8} {rest : Bytes} {r : ByteBuffer} (ok : r.Ok)
    (first : r.readable = b::rest) :
    ∃ r', r.getInt 1 = (some b.toNat,r') ∧ r'.Ok ∧ r'.readable = rest := by
  have front : r.readable = [b] ++ rest := first
  obtain ⟨r',out,ok',readable⟩ := ByteBuffer.out_item ok front
  refine ⟨r',?_,ok',readable⟩
  rw [List.length_singleton] at out
  rw [ByteBuffer.getInt,out]
  simp [Bytes.ofLe]

/-- What is read where `bs` was written. -/
theorem read_back {bs : Bytes} {bb' : ByteBuffer} (ok : bb.Ok) (written : Written bb bs bb')
    (space : bs.length + after.length ≤ bb.size - bb.wrPtr) :
    ∃ r, (bb'.In after).2.Out bb.avail = (some bb.readable,r) ∧ r.Ok ∧ r.readable = bs ++ after := by
  have room : after.length ≤ bb'.size - bb'.wrPtr := by
    rw [written.wrPtr,written.size]
    omega
  obtain ⟨b,ran,ok',readable,_⟩ := ByteBuffer.in_spec written.ok room
  rw [written.readable,List.append_assoc] at readable
  rw [ran,ByteBuffer.avail_readable ok]
  exact ByteBuffer.out_item ok' readable

theorem flag_written (ok : bb.Ok) (space : length wild s x + after.length ≤ bb.size - bb.wrPtr)
    (n : Nat) : Written bb (Bytes.le 1 n) (bb.putInt 1 n) := by
  have one : (Put.int 1 n).bytes.length = 1 := Bytes.le_length 1 n
  apply put_run ok (p := .int 1 n)
  rw [one]
  unfold length at space
  omega

/-- Nothing is written but the flag, and `y` keeps what it holds. -/
theorem restores_none (ok : bb.Ok)
    (space : length wild s none + after.length ≤ bb.size - bb.wrPtr) :
    Restores wild junk stale s stack none y bb after ↔ y = none := by
  have written := flag_written ok space 0
  obtain ⟨r,out,okR,readable⟩ := read_back ok written space
  obtain ⟨r',got,_⟩ := flag_read (b := 0) okR readable
  have kept (m : Nat) : Deserialize stale junk m y r (s,stack) = some ((y,r'),(s,stack)) := by
    rw [Deserialize_empty (by rw [got]; rfl),got]
  constructor
  · rintro ⟨bb',r₁,wrote,out',n,reads⟩
    cases wrote
    cases out.symm.trans out'
    obtain ⟨y',r₂,s',read,_,same,_⟩ := reads n (Nat.le_refl n)
    cases (kept n).symm.trans read
    exact same.mpr rfl
  · rintro rfl
    refine ⟨_,r,rfl,out,0,fun m _ => ⟨none,r',s,kept m,?_,Iff.rfl,?_⟩⟩
    · exact (List.append_nil _).symm
    · intro t holds
      cases holds

/-- A table is read into a new one, whatever `y` held. -/
theorem restores_some {ρ : Nat} (sound : Sound s tabs) (sent : tabs[i]? = some (some ρ))
    (held : tabs[j]? = some y) (codec : ∀ t, s.table (some ρ) = some t → Codec wild junk t)
    (ok : bb.Ok) (space : length wild s (some ρ) + after.length ≤ bb.size - bb.wrPtr) :
    Restores wild junk stale s stack (some ρ) y bb after := by
  obtain ⟨a,slot,fits⟩ := sound.live i ρ sent
  have here := List.getElem?_eq_getElem fits
  generalize s.heap[a] = t at here
  have table := sound.tables t (List.mem_of_getElem? here)
  have holds : s.table (some ρ) = some t := by
    rw [State.table,Option.bind_eq_bind,Option.bind_some,slot]
    exact here
  have flag := flag_written ok space 1
  rw [length,holds,Option.elim_some] at space
  have one : (Bytes.le 1 1).length = 1 := Bytes.le_length 1 1
  obtain ⟨_,body⟩ := serialize_written wild table flag.ok (by
    rw [ByteBuffer.free_eq flag.ok,flag.size,flag.wrPtr]
    omega)
  have written := flag.trans body
  have room : (Bytes.le 1 1 ++ bytesOf (encode wild t)).length + after.length ≤
      bb.size - bb.wrPtr := by
    rw [List.length_append]
    omega
  obtain ⟨r,out,okR,readable⟩ := read_back ok written room
  rw [List.append_assoc] at readable
  obtain ⟨r',got,ok',rest⟩ := flag_read (b := 1) okR readable
  obtain ⟨n,reads⟩ := deserialize_image wild junk t ok' rest
  refine ⟨_,r,Serialize_some slot here,out,n,fun m le => ?_⟩
  obtain ⟨r₂,read,_⟩ := reads m le
  have wrote : (r.getInt 1).1.getD (stale % 256) ≠ 0 := by
    rw [got]
    exact Nat.one_ne_zero
  have behind : (r.getInt 1).2 = r' := by rw [got]
  rw [← behind] at read
  have ran := @Deserialize_table s stack y stale junk m r r₂ _ wrote read
  generalize made : ({s with heap := s.heap ++ [tableImage wild t]} : State).release y = s' at ran
  have isTable : (tableImage wild t).isTable = true := rfl
  have free := (sound_release (sound_newtable sound isTable) held).free
  obtain ⟨heap,freed⟩ := release_rest {s with heap := s.heap ++ [tableImage wild t]} y
  rw [made] at free heap freed
  obtain ⟨heap',_,freed'⟩ := refer_rest s' s.heap.length
  refine ⟨_,_,_,ran,freed'.trans freed,by simp,fun t' holds' => ⟨tableImage wild t,?_,?_⟩⟩
  · rw [State.table,Option.bind_eq_bind,Option.bind_some,(refer_slots free).1,heap',heap]
    exact List.getElem?_concat_length
  · cases holds.symm.trans holds'
    obtain ⟨b,okB,empty,fitsB,trips⟩ := codec t holds
    exact (roundTrips_image wild junk table okB empty fitsB).mp trips

theorem restores_iff (sound : Sound s tabs) (sent : tabs[i]? = some x) (held : tabs[j]? = some y)
    (codec : ∀ t, s.table x = some t → Codec wild junk t) (ok : bb.Ok)
    (space : length wild s x + after.length ≤ bb.size - bb.wrPtr) :
    Restores wild junk stale s stack x y bb after ↔ x ≠ none ∨ y = none := by
  cases x with
  | none =>
    rw [restores_none ok space]
    simp
  | some ρ =>
    have restores : Restores wild junk stale s stack (some ρ) y bb after :=
      restores_some sound sent held codec ok space
    simp [restores]

/-- The value on top is the caller's, and it is popped. -/
theorem rejects_pops {m : Nat} (rejects : Rejects junk stale m bb) :
    ¬ ∃ y' bb' s', Deserialize stale junk m y bb (s,stack) = some ((y',bb'),(s',stack)) := by
  obtain ⟨flag,r,read⟩ := rejects
  rintro ⟨y',bb',s',ran⟩
  rw [Deserialize_read flag read,pushResult,Prog.pure_run,Option.bind_some] at ran
  obtain ⟨⟨y₁,s₁,stack₁⟩,created,ran⟩ := Option.bind_eq_some_iff.mp ran
  obtain ⟨⟨_,s₂,stack₂⟩,popped,same⟩ := Option.bind_eq_some_iff.mp ran
  cases same
  have kept : stack₁ = stack := Create_keeps created
  obtain ⟨some_,_,dropped⟩ := pop_state popped
  have shorter := congrArg List.length dropped
  rw [List.length_drop,kept] at shorter
  rw [kept] at some_
  omega

end Restore

/-- After any calls of these methods: a receiver that holds a table keeps it where `x` holds
none, and what refuses an encoding pops a value of its caller's. -/
theorem script_table_restores (wild : Double → BitVec 64) (junk : Nat → Nat)
    (ops : List WorldOp) (w : World) (ran : Runs.run World.step World.start ops = some w)
    (i j : Nat) (x y : Option Nat) (sent : w.tabs[i]? = some x) (held : w.tabs[j]? = some y)
    (stale : Nat) (stack : List Slot) :
    (∀ bb after, (∀ t, w.lua.table x = some t → Codec wild junk t) → bb.Ok →
      length wild w.lua x + after.length ≤ bb.size - bb.wrPtr →
      (Restores wild junk stale w.lua stack x y bb after ↔ x ≠ none ∨ y = none)) ∧
    ∀ bb m, Rejects junk stale m bb →
      ¬ ∃ y' bb' s', Deserialize stale junk m y bb (w.lua,stack) = some ((y',bb'),(s',stack)) := by
  have sound : Sound w.lua w.tabs := Runs.run_pres (fun w => Sound w.lua w.tabs)
    (fun _ _ _ sound stepped => sound_step sound stepped) sound_start ran
  constructor
  · intro bb after codec ok space
    exact restores_iff sound sent held codec ok space
  · intro bb m rejects
    exact rejects_pops rejects

/-- Two that hold one table each. -/
def both : List WorldOp :=
  [.construct,.construct,.script [tree],.create 0 1 [.table 0],.create 1 1 [.table 0]]

/-- A flag, and a type that is no table. -/
def refused : ByteBuffer := (roomy.putInt 1 1).putInt 1 99

theorem refused_rejects : Rejects (fun _ => 0) 0 0 refused := by
  have other : ¬(LuaValueType.ofCode (99 : UInt8).toNat).isTable := by
    rintro (same | same) <;> cases same
  have at_ : Reader.At ⟨(refused.getInt 1).2,0,0,0⟩ 2 [99] :=
    ⟨by decide +kernel,by decide +kernel,by decide +kernel⟩
  exact ⟨by decide +kernel,_,deserialize_other _ at_ other 0⟩

theorem codec_tree : Codec tame (fun _ => 0) tree :=
  ⟨roomy,by decide,by decide,by decide +kernel,round_trip_tree⟩

theorem script_table_restores_both : ∃ w, Runs.run World.step World.start both = some w ∧
    Restores tame (fun _ => 0) 0 w.lua [] (some 0) (some 1) roomy [] ∧
    ¬ ∃ y' bb' s', Deserialize 0 (fun _ => 0) 0 (some 1) refused (w.lua,[.other 0]) =
      some ((y',bb'),(s',[.other 0])) := by
  refine ⟨_,rfl,?_,?_⟩
  · refine ((script_table_restores tame (fun _ => 0) both _ rfl 0 1 _ _ rfl rfl 0 []).1 roomy []
      ?_ (by decide) (by decide +kernel)).mpr (.inl ?_)
    · intro t holds
      cases holds
      exact codec_tree
    · intro empty
      cases empty
  · exact (script_table_restores tame (fun _ => 0) both _ rfl 0 1 _ _ rfl rfl 0 [.other 0]).2
      refused 0 refused_rejects

/-- The second of these holds a table. -/
def receiver : List WorldOp := [.construct,.construct,.script [tree],.create 1 1 [.table 0]]

theorem receiver_keeps : ∃ w, Runs.run World.step World.start receiver = some w ∧
    w.tabs = [none,some 0] ∧ ¬Restores tame (fun _ => 0) 0 w.lua [] none (some 0) roomy [] ∧
    ¬ ∃ y' bb' s', Deserialize 0 (fun _ => 0) 0 (some 0) refused (w.lua,[.other 0]) =
      some ((y',bb'),(s',[.other 0])) := by
  refine ⟨_,rfl,rfl,?_,rejects_pops refused_rejects⟩
  intro restores
  cases (restores_none (by decide) (by decide +kernel)).mp restores

end ScriptTable

end Pworld.Script
