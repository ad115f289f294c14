import Pworld.Script.LuaHelper
import Pworld.Support.Runs
import Mathlib.Logic.Function.Iterate

/-! The objects that scripts are given, over any run: types are registered after their
parents, objects pushed, libraries add userdata of their own, and scripts make tables and
change those that are no userdata's metatable. -/
namespace Pworld.Script.LuaHelper

open Stack

structure World where
  lua : State
  types : List String  -- registered so far
  pushed : List (Option String)  -- as what each userdata was pushed, `none` for a library's

inductive WorldOp where
  | register (T : String)
  | push (T : String) (obj : Nat)
  | library (m : Option Nat) (obj : Nat)
  | table (t : Table)
  | set (a : Nat) (t : Table)

def isName : Val → Bool
  | .light (.name _) => true
  | _ => false

/-- The metatable of a library: it has none itself, and no type's name for its own. -/
def State.bare (s : State) (a : Nat) : Bool :=
  match s.heap[a]? with
  | some t => t.metatable.isNone && !isName (t.fields "__name")
  | none => false

namespace World

def start (heap : List Table) (registry : String → Option Nat) : World :=
  ⟨⟨heap,registry,[]⟩,[],[]⟩

/-- The tables that serve as metatables. -/
def used (w : World) : List Nat :=
  w.types.filterMap w.lua.registry ++ w.lua.blocks.filterMap Userdata.metatable

def step (api : ObjectAPI) (w : World) : WorldOp → Option World
  | .register T =>
    if (api.Parent T = T ∨ api.Parent T ∈ w.types) ∧ w.lua.registry T = none then
      (RegisterObjectApi api T (w.lua,[])).map fun r =>
        {w with lua := r.2.1, types := w.types ++ [T]}
    else none
  | .push T obj =>
    if T ∈ w.types then
      (PushObject T obj (w.lua,[])).map fun r =>
        {w with lua := r.2.1, pushed := w.pushed ++ [some T]}
    else none
  | .library m obj =>
    if m.all w.lua.bare then
      some {w with
        lua := {w.lua with blocks := w.lua.blocks ++ [⟨obj,m⟩]}
        pushed := w.pushed ++ [none]}
    else none
  | .table t => some {w with lua := {w.lua with heap := w.lua.heap ++ [t]}}
  | .set a t =>
    if a ∈ w.used then none
    else some {w with lua := {w.lua with heap := w.lua.heap.set a t}}

/-- The userdata `u` was pushed as an object of type `U`, with the pointer `obj`. -/
def PushedAs (w : World) (u : Nat) (U : String) (obj : Nat) : Prop :=
  w.pushed[u]? = some (some U) ∧ (w.lua.blocks[u]?).map Userdata.obj = some obj

end World

namespace ObjectAPI

variable (api : ObjectAPI)

def Descends (U T : String) : Prop := ∃ n, api.Parent^[n] U = T

/-- `A` is the nearest to `U` that maps `k`, at its place `i`. -/
def Nearest (U k A : String) (i : Nat) : Prop :=
  ∃ n, api.Parent^[n] U = A ∧ api.defines A k = some i ∧
    ∀ m < n, api.defines (api.Parent^[m] U) k = none

/-- No mapping takes the place of what the metatable is for. -/
def Plain (T : String) : Prop := ∀ m ∈ api.mapping T, m.1 ≠ "__index" ∧ m.1 ≠ "__name"

end ObjectAPI

/-- The check and the lookup of methods agree with the tree of the types. -/
structure Agrees (api : ObjectAPI) (w : World) : Prop where
  checks : ∀ (fuel : Nat) (T : String) (n : Int) (stack : List Val), w.types.length + 1 < fuel →
    ∃ r, GetObject fuel T n (w.lua,stack) = some (r,(w.lua,stack)) ∧
      ∀ obj, r = .ok obj ↔
        ∃ u U, value n stack = some (.user u) ∧ w.PushedAs u U obj ∧ api.Descends U T
  methods : ∀ (fuel u obj : Nat) (U k A : String) (i : Nat), w.types.length + 1 < fuel →
    w.PushedAs u U obj → api.Nearest U k A i →
    w.lua.index fuel (.user u) k = some (.field (.dispatcher A (.mapping A i)))
  absent : ∀ (fuel u obj : Nat) (U k : String), w.types.length + 1 < fuel → w.PushedAs u U obj →
    k ≠ "__index" → k ≠ "__name" → (∀ A, api.Descends U A → api.defines A k = none) →
    w.lua.index fuel (.user u) k = some (.field .nil)
  dispatches : ∀ (run : Nat → Nat → Api (Except String Nat)) (trace : Option String)
    (fuel u obj : Nat) (U k A : String) (i : Nat) (args : List Val), w.types.length + 1 < fuel →
    w.PushedAs u U obj → api.Nearest U k A i →
    ∃ f, (api.mapping A)[i]? = some (k,f) ∧
      api_dispatcher api run trace fuel A (.mapping A i) (w.lua,args.reverse ++ [.user u]) =
        if obj = 0 then some (.ok 0,(w.lua,args.reverse ++ [.user u]))
        else run f obj (w.lua,args.reverse)

/-- The metatable of `T` is as it was registered. -/
structure Has (api : ObjectAPI) (s : State) (T : String) (a : Nat) : Prop where
  registered : s.registry T = some a
  made : s.heap[a]? =
    some ⟨api.fields T a,if api.Parent T = T then none else s.registry (api.Parent T)⟩

/-- A type with those above it. -/
inductive Line (api : ObjectAPI) (s : State) : String → List String → Prop where
  | root {T : String} {a : Nat} (has : Has api s T a) (root : api.Parent T = T) : Line api s T [T]
  | child {T : String} {a : Nat} {ts : List String} (has : Has api s T a)
      (child : api.Parent T ≠ T) (parent : Line api s (api.Parent T) ts) : Line api s T (T::ts)

variable {api : ObjectAPI} {s s' : State} {T U : String} {ts : List String}

theorem Line.head (line : Line api s T ts) : T ∈ ts := by
  cases line with
  | root => exact List.mem_singleton.mpr rfl
  | child => exact List.mem_cons_self

theorem Line.congr (line : Line api s T ts)
    (kept : ∀ U ∈ ts, s'.registry U = s.registry U ∧
      ∀ a t, s.registry U = some a → s.heap[a]? = some t → s'.heap[a]? = some t) :
    Line api s' T ts := by
  induction line with
  | root has root =>
    obtain ⟨registry,heap⟩ := kept _ (List.mem_singleton.mpr rfl)
    refine .root ⟨registry.trans has.registered,?_⟩ root
    rw [heap _ _ has.registered has.made,if_pos root,if_pos root]
  | child has child parent ih =>
    obtain ⟨registry,heap⟩ := kept _ List.mem_cons_self
    have above := (kept _ (List.mem_cons_of_mem _ parent.head)).1
    refine .child ⟨registry.trans has.registered,?_⟩ child ?_
    · rw [heap _ _ has.registered has.made,if_neg child,if_neg child,above]
    · exact ih fun U member => kept U (List.mem_cons_of_mem _ member)

theorem iterate_root (root : api.Parent T = T) (n : Nat) : api.Parent^[n] T = T :=
  Function.iterate_fixed root n

theorem Line.mem_iff (line : Line api s U ts) : T ∈ ts ↔ api.Descends U T := by
  induction line with
  | root has root =>
    rw [List.mem_singleton]
    constructor
    · intro same
      exact ⟨0,same.symm⟩
    · rintro ⟨n,same⟩
      exact same.symm.trans (iterate_root root n)
  | child has child parent ih =>
    rw [List.mem_cons,ih]
    constructor
    · rintro (same | ⟨n,above⟩)
      · exact ⟨0,same.symm⟩
      · exact ⟨n+1,above⟩
    · rintro ⟨n,above⟩
      cases n with
      | zero => exact .inl above.symm
      | succ n => exact .inr ⟨n,above⟩

theorem defines_get {k : String} {i : Nat} (defines : api.defines T k = some i) :
    ∃ f, (api.mapping T)[i]? = some (k,f) := by
  obtain ⟨e,found,rfl⟩ := Option.map_eq_some_iff.mp defines
  have name := List.find?_some found
  have member := List.mem_zipIdx' (List.mem_reverse.mp (List.mem_of_find?_eq_some found))
  refine ⟨e.1.2,?_⟩
  rw [beq_iff_eq] at name
  rw [← name,List.getElem?_eq_some_iff]
  exact ⟨member.1,member.2.symm⟩

theorem ObjectAPI.Plain.ne {k : String} {i : Nat} (plain : api.Plain T)
    (defines : api.defines T k = some i) : k ≠ "__index" ∧ k ≠ "__name" := by
  obtain ⟨f,got⟩ := defines_get defines
  exact plain _ (List.mem_of_getElem? got)

theorem ObjectAPI.Plain.free {k : String} (plain : api.Plain T)
    (reserved : k = "__index" ∨ k = "__name") : api.defines T k = none := by
  rw [Option.eq_none_iff_forall_ne_some]
  intro i defines
  exact reserved.elim (plain.ne defines).1 (plain.ne defines).2

section Has

variable {a : Nat}

theorem Has.rawget (has : Has api s T a) (k : String) : s.rawget (.table a) k = api.fields T a k := by
  simp only [State.rawget,has.made]

theorem Has.metatable (has : Has api s T a) :
    s.metatable (.table a) = if api.Parent T = T then none else s.registry (api.Parent T) := by
  simp only [State.metatable,has.made,Option.bind_some]

theorem fields_name (plain : api.Plain T) : api.fields T a "__name" = .light (.name T) := by
  rw [ObjectAPI.fields,plain.free (.inr rfl)]
  rfl

theorem fields_index (plain : api.Plain T) : api.fields T a "__index" = .table a := by
  rw [ObjectAPI.fields,plain.free (.inl rfl)]
  rfl

theorem Has.name (has : Has api s T a) (plain : api.Plain T) (fuel : Nat) :
    s.index (fuel+1) (.table a) "__name" = some (.field (.light (.name T))) := by
  have raw : s.rawget (.table a) "__name" = .light (.name T) := by
    rw [has.rawget,fields_name plain]
  rw [index_raw (by rw [raw]; nofun),raw]

end Has

section Walk

variable {stack : List Val} {v : Val} {fuel : Nat}

theorem walk_end (none_ : s.metatable v = none) :
    walk T (fuel+1) (s,v::stack) = some (false,(s,v::stack)) := by
  simp [walk,getmetatable,none_]

theorem walk_step {a : Nat} {w : Val} (next : s.metatable v = some a)
    (name : s.index (fuel+1) (.table a) "__name" = some (.field w)) :
    walk T (fuel+1) (s,v::stack) =
      if touserdata w = some (.name T) then some (true,(s,.table a::stack))
      else walk T fuel (s,.table a::stack) := by
  simp only [walk,getmetatable,next,getfield,name,Prog.bind_run,Option.bind_some,if_true,
    Prog.peek_top,Prog.pop_one,Prog.replace_second]
  split <;> rfl

/-- From a value that has the metatable of `U`. -/
theorem walk_line (line : Line api s U ts) (plain : ∀ T ∈ ts, api.Plain T)
    (has : s.metatable v = s.registry U) (enough : ts.length < fuel) :
    ∃ v', walk T fuel (s,v::stack) = some (decide (T ∈ ts),(s,v'::stack)) := by
  induction line generalizing v fuel with
  | @root U a own root =>
    obtain ⟨fuel,rfl⟩ : ∃ k, fuel = k+2 := ⟨fuel-2,by simp only [List.length_singleton] at enough; omega⟩
    have name := own.name (plain U (List.mem_singleton.mpr rfl)) (fuel+1)
    rw [walk_step (has.trans own.registered) name]
    simp only [touserdata,Option.some.injEq,Ptr.name.injEq,List.mem_singleton]
    by_cases same : U = T
    · rw [if_pos same]
      exact ⟨.table a,by simp [same]⟩
    · have top := own.metatable
      rw [if_pos root] at top
      rw [if_neg same,walk_end top]
      exact ⟨.table a,by simp [Ne.symm same]⟩
  | @child U a ts own child parent ih =>
    obtain ⟨fuel,rfl⟩ : ∃ k, fuel = k+1 := ⟨fuel-1,by omega⟩
    have name := own.name (plain U List.mem_cons_self) fuel
    rw [walk_step (has.trans own.registered) name]
    simp only [touserdata,Option.some.injEq,Ptr.name.injEq,List.mem_cons]
    by_cases same : U = T
    · rw [if_pos same]
      exact ⟨.table a,by simp [same]⟩
    · have next := own.metatable
      rw [if_neg child] at next
      rw [List.length_cons] at enough
      obtain ⟨v',ran⟩ := ih (fun T member => plain T (List.mem_cons_of_mem _ member)) next
        (Nat.lt_of_succ_lt_succ enough)
      rw [if_neg same,ran]
      exact ⟨v',by simp [Ne.symm same]⟩

/-- From a value with a metatable that a library made. -/
theorem walk_bare {a : Nat} (has : s.metatable v = some a) (bare : s.bare a = true) :
    ∃ v', walk T (fuel+2) (s,v::stack) = some (false,(s,v'::stack)) := by
  unfold State.bare at bare
  split at bare
  next t here =>
    rw [Bool.and_eq_true,Option.isNone_iff_eq_none,Bool.not_eq_true'] at bare
    have top : s.metatable (.table a) = none := by
      rw [State.metatable,here]
      exact bare.1
    have raw : s.rawget (.table a) "__name" = t.fields "__name" := by
      simp only [State.rawget,here]
    have name : s.index (fuel+2) (.table a) "__name" = some (.field (t.fields "__name")) := by
      by_cases absent : t.fields "__name" = .nil
      · rw [index_end (raw.trans absent) top,absent]
      · rw [index_raw (by rw [raw]; exact absent),raw]
    have other : touserdata (t.fields "__name") ≠ some (.name T) := by
      intro same
      cases field : t.fields "__name" with
      | light p =>
        rw [field] at same
        cases Option.some.inj same
        rw [field] at bare
        cases bare.2
      | user u =>
        rw [field] at same
        cases same
      | nil | str | table | dispatcher | func | other =>
        rw [field] at same
        cases same
    rw [walk_step has name,if_neg other,walk_end top]
    exact ⟨_,rfl⟩
  · cases bare

theorem GetObject_fails {n : Int} (fails : ∀ v, value n stack = some v → isuserdata v = true →
    ∃ v', walk T fuel (s,v::stack) = some (false,(s,v'::stack))) :
    GetObject fuel T n (s,stack) = some (.error (message T n),(s,stack)) := by
  cases user : (value n stack).filter isuserdata with
  | none => simp only [GetObject,user,Option.bind_some,Bool.false_eq_true,if_false]
  | some v =>
    obtain ⟨here,light⟩ := Option.filter_eq_some_iff.mp user
    obtain ⟨v',ran⟩ := fails v here light
    simp only [GetObject,user,Prog.bind_run,Prog.push_run,Option.bind_some,ran,Prog.pop_one,
      Prog.pure_run,Bool.false_eq_true,if_false]

theorem GetObject_gives {n : Int} {u : Nat} {b : Userdata} (here : value n stack = some (.user u))
    (block : s.blocks[u]? = some b)
    (finds : ∃ v', walk T fuel (s,.user u::stack) = some (true,(s,v'::stack))) :
    GetObject fuel T n (s,stack) = some (.ok b.obj,(s,stack)) := by
  obtain ⟨v',ran⟩ := finds
  have user : (value n stack).filter isuserdata = some (.user u) := by
    rw [here]
    rfl
  have read : deref s ((value n stack).bind touserdata) = some b.obj := by
    rw [here,Option.bind_some,touserdata,deref,block,Option.map_some]
  simp only [GetObject,user,Prog.bind_run,Prog.push_run,Option.bind_some,ran,Prog.pop_one,
    Prog.pure_run,if_true,read,Option.map_some]

end Walk

section Index

variable {k : String}

/-- What a lookup of `k` comes to along a line of types. -/
def ObjectAPI.resolve (api : ObjectAPI) (k : String) : List String → Val
  | [] => .nil
  | T::ts => match api.defines T k with
    | some i => .dispatcher T (.mapping T i)
    | none => api.resolve k ts

theorem Line.has (line : Line api s T ts) : ∃ a, Has api s T a := by
  cases line with
  | root has => exact ⟨_,has⟩
  | child has => exact ⟨_,has⟩

theorem index_line {a fuel : Nat} (line : Line api s U ts) (plain : ∀ T ∈ ts, api.Plain T)
    (index : k ≠ "__index") (name : k ≠ "__name") (has : s.registry U = some a)
    (enough : ts.length ≤ fuel) :
    s.index fuel (.table a) k = some (.field (api.resolve k ts)) := by
  have fields {T : String} {a : Nat} (none_ : api.defines T k = none) :
      api.fields T a k = .nil := by
    rw [ObjectAPI.fields,none_]
    simp only [if_neg name,if_neg index]
  have own {T : String} {a i fuel : Nat} (has : Has api s T a) (defines : api.defines T k = some i) :
      s.index (fuel+1) (.table a) k = some (.field (.dispatcher T (.mapping T i))) := by
    have raw : s.rawget (.table a) k = .dispatcher T (.mapping T i) := by
      rw [has.rawget,ObjectAPI.fields,defines]
    rw [index_raw (by rw [raw]; nofun),raw]
  induction line generalizing a fuel with
  | @root U b made root =>
    cases made.registered.symm.trans has
    obtain ⟨fuel,rfl⟩ : ∃ n, fuel = n+1 := ⟨fuel-1,by simp only [List.length_singleton] at enough; omega⟩
    have top := made.metatable
    rw [if_pos root] at top
    simp only [ObjectAPI.resolve]
    cases defined : api.defines U k with
    | some i => exact own made defined
    | none => exact index_end ((made.rawget k).trans (fields defined)) top
  | @child U b ts made child parent ih =>
    cases made.registered.symm.trans has
    obtain ⟨fuel,rfl⟩ : ∃ n, fuel = n+1 := ⟨fuel-1,by simp only [List.length_cons] at enough; omega⟩
    rw [List.length_cons] at enough
    have next := made.metatable
    rw [if_neg child] at next
    simp only [ObjectAPI.resolve]
    cases defined : api.defines U k with
    | some i => exact own made defined
    | none =>
      obtain ⟨c,above⟩ := parent.has
      have plain' := fun T member => plain T (List.mem_cons_of_mem _ member)
      have follow : s.rawget (.table c) "__index" = .table c := by
        rw [above.rawget,fields_index (plain' _ parent.head)]
      rw [index_next ((made.rawget k).trans (fields defined)) (next.trans above.registered) follow]
      exact ih plain' above.registered (Nat.le_of_succ_le_succ enough)

theorem resolve_nearest {A : String} {i : Nat} (line : Line api s U ts)
    (nearest : api.Nearest U k A i) : api.resolve k ts = .dispatcher A (.mapping A i) := by
  induction line with
  | @root U b made root =>
    obtain ⟨n,rfl,defines,_⟩ := nearest
    rw [iterate_root root] at defines ⊢
    simp only [ObjectAPI.resolve,defines]
  | @child U b ts made child parent ih =>
    obtain ⟨n,rfl,defines,before⟩ := nearest
    cases n with
    | zero =>
      simp only [Function.iterate_zero,id_eq] at defines ⊢
      simp only [ObjectAPI.resolve,defines]
    | succ n =>
      have none_ : api.defines U k = none := before 0 (Nat.succ_pos n)
      rw [ObjectAPI.resolve,none_]
      exact ih ⟨n,rfl,defines,fun m less => before (m+1) (Nat.succ_lt_succ less)⟩

theorem resolve_absent (absent : ∀ T ∈ ts, api.defines T k = none) : api.resolve k ts = .nil := by
  induction ts with
  | nil => rfl
  | cons T ts ih =>
    rw [ObjectAPI.resolve,absent T List.mem_cons_self]
    exact ih fun T member => absent T (List.mem_cons_of_mem _ member)

end Index

structure Inv (api : ObjectAPI) (w : World) : Prop where
  lines : ∀ T ∈ w.types, ∃ ts, Line api w.lua T ts ∧ ts.length ≤ w.types.length ∧
    ∀ U ∈ ts, U ∈ w.types
  origin : w.pushed.length = w.lua.blocks.length
  typed : ∀ (u : Nat) (U : String) (b : Userdata), w.pushed[u]? = some (some U) →
    w.lua.blocks[u]? = some b → U ∈ w.types ∧ b.metatable = w.lua.registry U
  foreign : ∀ (u : Nat) (b : Userdata) (a : Nat), w.pushed[u]? = some none →
    w.lua.blocks[u]? = some b → b.metatable = some a → w.lua.bare a = true

theorem Inv.registered {w : World} (inv : Inv api w) (member : T ∈ w.types) :
    ∃ a, Has api w.lua T a := by
  obtain ⟨ts,line,_⟩ := inv.lines T member
  exact line.has

/-- What keeps the metatables in use keeps what is known of the userdata. -/
theorem inv_kept {w : World} (inv : Inv api w) (blocks : s'.blocks = w.lua.blocks)
    (named : ∀ T ∈ w.types, s'.registry T = w.lua.registry T)
    (kept : ∀ a ∈ w.used, ∀ t, w.lua.heap[a]? = some t → s'.heap[a]? = some t) :
    Inv api {w with lua := s'} := by
  refine ⟨?_,inv.origin.trans (congrArg List.length blocks).symm,?_,?_⟩
  · intro T member
    obtain ⟨ts,line,short,inside⟩ := inv.lines T member
    refine ⟨ts,line.congr fun U above => ⟨named U (inside U above),fun a t has here => ?_⟩,
      short,inside⟩
    apply kept a _ t here
    exact List.mem_append_left _ (List.mem_filterMap.mpr ⟨U,inside U above,has⟩)
  · intro u U b pushed block
    simp only [blocks] at block
    obtain ⟨member,same⟩ := inv.typed u U b pushed block
    exact ⟨member,same.trans (named U member).symm⟩
  · intro u b a pushed block has
    simp only [blocks] at block
    have bare := inv.foreign u b a pushed block has
    have used : a ∈ w.used :=
      List.mem_append_right _ (List.mem_filterMap.mpr ⟨b,List.mem_of_getElem? block,has⟩)
    unfold State.bare at bare ⊢
    split at bare
    next t here => rw [kept a used t here]; exact bare
    · cases bare

theorem inv_pushed {w : World} {b : Userdata} {origin : Option String} (inv : Inv api w)
    (typed : ∀ U, origin = some U → U ∈ w.types ∧ b.metatable = w.lua.registry U)
    (foreign : origin = none → ∀ a, b.metatable = some a → w.lua.bare a = true) :
    Inv api {w with
      lua := {w.lua with blocks := w.lua.blocks ++ [b]}
      pushed := w.pushed ++ [origin]} := by
  have last {u : Nat} {b' : Userdata} {origin' : Option String}
      (pushed : (w.pushed ++ [origin])[u]? = some origin')
      (block : (w.lua.blocks ++ [b])[u]? = some b') :
      (w.pushed[u]? = some origin' ∧ w.lua.blocks[u]? = some b') ∨
        (origin' = origin ∧ b' = b) := by
    have same := inv.origin
    by_cases old : u < w.lua.blocks.length
    · rw [List.getElem?_append_left old] at block
      rw [List.getElem?_append_left (same ▸ old)] at pushed
      exact .inl ⟨pushed,block⟩
    · rw [List.getElem?_append_right (Nat.le_of_not_lt old),List.getElem?_singleton] at block
      rw [List.getElem?_append_right (by omega),List.getElem?_singleton,same] at pushed
      split at block
      next zero =>
        rw [if_pos zero] at pushed
        exact .inr ⟨(Option.some.inj pushed).symm,(Option.some.inj block).symm⟩
      · cases block
  refine ⟨?_,?_,?_,?_⟩
  · intro T member
    obtain ⟨ts,line,rest⟩ := inv.lines T member
    exact ⟨ts,line.congr fun U _ => ⟨rfl,fun _ _ _ here => here⟩,rest⟩
  · simp only [List.length_append,inv.origin]
    rfl
  · intro u U b' pushed block
    rcases last pushed block with ⟨pushed,block⟩ | ⟨same,rfl⟩
    · exact inv.typed u U b' pushed block
    · exact typed U same.symm
  · intro u b' a pushed block has
    rcases last pushed block with ⟨pushed,block⟩ | ⟨same,rfl⟩
    · exact inv.foreign u b' a pushed block has
    · exact foreign same.symm a has

theorem inv_register {w : World} (inv : Inv api w)
    (parent : api.Parent T = T ∨ api.Parent T ∈ w.types) (new : w.lua.registry T = none) :
    Inv api {w with lua := w.lua.register api T, types := w.types ++ [T]} := by
  have fresh (a : Nat) (t : Table) (here : w.lua.heap[a]? = some t) :
      (w.lua.register api T).heap[a]? = some t := by
    rw [State.register,List.getElem?_append_left (List.getElem?_eq_some_iff.mp here).1,here]
  have named (U : String) (member : U ∈ w.types) :
      (w.lua.register api T).registry U = w.lua.registry U := by
    obtain ⟨a,has⟩ := inv.registered member
    apply Function.update_of_ne
    rintro rfl
    cases new.symm.trans has.registered
  have own : Has api (w.lua.register api T) T w.lua.heap.length := by
    refine ⟨Function.update_self ..,?_⟩
    simp only [State.register,List.getElem?_concat_length]
    split
    · rfl
    next child => rw [Function.update_of_ne child]
  have blocks : (w.lua.register api T).blocks = w.lua.blocks := rfl
  obtain ⟨lines,origin,typed,foreign⟩ := inv_kept inv blocks named fun a _ => fresh a
  refine ⟨?_,origin,?_,foreign⟩
  · intro U member
    rw [List.length_append,List.length_singleton]
    rcases List.mem_append.mp member with old | last
    · obtain ⟨ts,line,short,inside⟩ := lines U old
      exact ⟨ts,line,Nat.le_succ_of_le short,fun V above => List.mem_append_left _ (inside V above)⟩
    · cases List.mem_singleton.mp last
      by_cases root : api.Parent T = T
      · refine ⟨[T],.root own root,Nat.le_add_left _ _,?_⟩
        intro V here
        rw [List.mem_singleton.mp here]
        exact member
      · obtain ⟨ts,line,short,inside⟩ := lines _ (parent.resolve_left root)
        refine ⟨T::ts,.child own root line,Nat.succ_le_succ short,?_⟩
        intro V here
        rcases List.mem_cons.mp here with rfl | above
        · exact member
        · exact List.mem_append_left _ (inside V above)
  · intro u U b pushed block
    obtain ⟨member,same⟩ := typed u U b pushed block
    exact ⟨List.mem_append_left _ member,same⟩

theorem inv_start (heap : List Table) (registry : String → Option Nat) :
    Inv api (World.start heap registry) := by
  refine ⟨fun _ member => absurd member List.not_mem_nil,rfl,?_,?_⟩
  · intro u U b pushed
    cases pushed
  · intro u b a pushed
    cases pushed

theorem inv_step {w w' : World} {op : WorldOp} (inv : Inv api w)
    (stepped : w.step api op = some w') : Inv api w' := by
  cases op with
  | register T =>
    simp only [World.step] at stepped
    split at stepped
    next may =>
      rw [RegisterObjectApi_run api may.2] at stepped
      cases stepped
      exact inv_register inv may.1 may.2
    · cases stepped
  | push T obj =>
    simp only [World.step] at stepped
    split at stepped
    next member =>
      rw [PushObject_run] at stepped
      cases stepped
      apply inv_pushed inv
      · intro U same
        cases same
        exact ⟨member,rfl⟩
      · intro same
        cases same
    · cases stepped
  | library m obj =>
    simp only [World.step] at stepped
    split at stepped
    next bare =>
      cases stepped
      apply inv_pushed inv
      · intro U same
        cases same
      · intro _ a has
        cases (has : m = some a)
        exact bare
    · cases stepped
  | table t =>
    cases stepped
    apply inv_kept inv
    · rfl
    · exact fun _ _ => rfl
    · intro a _ t' here
      rw [List.getElem?_append_left (List.getElem?_eq_some_iff.mp here).1,here]
  | set a t =>
    simp only [World.step] at stepped
    split at stepped
    · cases stepped
    next free =>
      cases stepped
      apply inv_kept inv
      · rfl
      · exact fun _ _ => rfl
      · intro a' used t' here
        rw [List.getElem?_set_ne,here]
        rintro rfl
        exact free used

section Agreement

variable {w : World} {fuel u obj : Nat}

/-- A userdata that was pushed has the metatable of its type, which heads a line. -/
theorem Inv.line {w : World} (inv : Inv api w) {u obj : Nat} (pushed : w.PushedAs u U obj) :
    ∃ ts b, Line api w.lua U ts ∧ ts.length ≤ w.types.length ∧ (∀ T ∈ ts, T ∈ w.types) ∧
      w.lua.blocks[u]? = some b ∧ b.obj = obj ∧ w.lua.metatable (.user u) = w.lua.registry U := by
  obtain ⟨pushed,there⟩ := pushed
  obtain ⟨b,block,rfl⟩ := Option.map_eq_some_iff.mp there
  obtain ⟨member,has⟩ := inv.typed u U b pushed block
  obtain ⟨ts,line,short,inside⟩ := inv.lines U member
  refine ⟨ts,b,line,short,inside,block,rfl,?_⟩
  rw [State.metatable,block,Option.bind_some,has]

theorem GetObject_pushed (inv : Inv api w) (plain : ∀ T ∈ w.types, api.Plain T)
    (enough : w.types.length + 1 < fuel) {n : Int} {stack : List Val}
    (here : value n stack = some (.user u)) (pushed : w.PushedAs u U obj) :
    (api.Descends U T → GetObject fuel T n (w.lua,stack) = some (.ok obj,(w.lua,stack))) ∧
    (¬ api.Descends U T →
      GetObject fuel T n (w.lua,stack) = some (.error (message T n),(w.lua,stack))) := by
  obtain ⟨ts,b,line,short,inside,block,rfl,has⟩ := inv.line pushed
  have ran : ∃ v', walk T fuel (w.lua,.user u::stack) =
      some (decide (T ∈ ts),(w.lua,v'::stack)) :=
    walk_line line (fun T member => plain T (inside T member)) has (by omega)
  obtain ⟨v',ran⟩ := ran
  constructor
  · intro descends
    rw [decide_eq_true (line.mem_iff.mpr descends)] at ran
    exact GetObject_gives here block ⟨v',ran⟩
  · intro unrelated
    rw [decide_eq_false fun member => unrelated (line.mem_iff.mp member)] at ran
    apply GetObject_fails
    intro v same _
    cases here.symm.trans same
    exact ⟨v',ran⟩

/-- What was not pushed as an object is no object of any type. -/
theorem walk_other (inv : Inv api w) {v : Val} {stack : List Val}
    (user : isuserdata v = true) (other : ∀ u U obj, v = .user u → ¬ w.PushedAs u U obj) :
    ∃ v', walk T (fuel+2) (w.lua,v::stack) = some (false,(w.lua,v'::stack)) := by
  cases v with
  | user u =>
    have same := inv.origin
    cases block : w.lua.blocks[u]? with
    | none =>
      refine ⟨_,walk_end ?_⟩
      rw [State.metatable,block,Option.bind_none]
    | some b =>
      have has : w.lua.metatable (.user u) = b.metatable := by
        rw [State.metatable,block,Option.bind_some]
      cases metatable : b.metatable with
      | none => exact ⟨_,walk_end (has.trans metatable)⟩
      | some a =>
        have inside : u < w.pushed.length := by
          rw [same]
          exact (List.getElem?_eq_some_iff.mp block).1
        cases origin : w.pushed[u] with
        | none =>
          have pushed : w.pushed[u]? = some none := by
            rw [List.getElem?_eq_getElem inside,origin]
          exact walk_bare (has.trans metatable) (inv.foreign u b a pushed block metatable)
        | some U =>
          have pushed : w.pushed[u]? = some (some U) := by
            rw [List.getElem?_eq_getElem inside,origin]
          refine absurd ⟨pushed,?_⟩ (other u U b.obj rfl)
          rw [block,Option.map_some]
  | light p => exact ⟨_,walk_end rfl⟩
  | nil | str | table | dispatcher | func | other => cases user

theorem checks (inv : Inv api w) (plain : ∀ T ∈ w.types, api.Plain T)
    (enough : w.types.length + 1 < fuel) (T : String) (n : Int) (stack : List Val) :
    ∃ r, GetObject fuel T n (w.lua,stack) = some (r,(w.lua,stack)) ∧ ∀ obj, r = .ok obj ↔
      ∃ u U, value n stack = some (.user u) ∧ w.PushedAs u U obj ∧ api.Descends U T := by
  by_cases known : ∃ u U obj, value n stack = some (.user u) ∧ w.PushedAs u U obj
  · obtain ⟨u,U,obj,here,pushed⟩ := known
    obtain ⟨gives,fails⟩ := @GetObject_pushed api T U w fuel u obj inv plain enough n stack here pushed
    have only {u' obj' : Nat} {U' : String} (here' : value n stack = some (.user u'))
        (pushed' : w.PushedAs u' U' obj') : U' = U ∧ obj' = obj := by
      cases here.symm.trans here'
      exact ⟨Option.some.inj (Option.some.inj (pushed'.1.symm.trans pushed.1)),
        Option.some.inj (pushed'.2.symm.trans pushed.2)⟩
    by_cases descends : api.Descends U T
    · refine ⟨_,gives descends,fun obj' => ?_⟩
      constructor
      · intro same
        cases same
        exact ⟨u,U,here,pushed,descends⟩
      · rintro ⟨u',U',here',pushed',_⟩
        rw [(only here' pushed').2]
    · refine ⟨_,fails descends,fun obj' => ?_⟩
      constructor
      · intro same
        cases same
      · rintro ⟨u',U',here',pushed',descends'⟩
        rw [(only here' pushed').1] at descends'
        exact absurd descends' descends
  · refine ⟨.error (message T n),?_,fun obj => ?_⟩
    · obtain ⟨fuel,rfl⟩ : ∃ k, fuel = k+2 := ⟨fuel-2,by omega⟩
      apply GetObject_fails
      intro v here user
      apply walk_other inv user
      intro u U obj same pushed
      exact known ⟨u,U,obj,same ▸ here,pushed⟩
    · constructor
      · intro same
        cases same
      · rintro ⟨u,U,here,pushed,_⟩
        exact absurd ⟨u,U,obj,here,pushed⟩ known

theorem index_pushed {k : String} (inv : Inv api w) (plain : ∀ T ∈ w.types, api.Plain T)
    (enough : w.types.length + 1 < fuel) (pushed : w.PushedAs u U obj) (index : k ≠ "__index")
    (name : k ≠ "__name") : ∃ ts, Line api w.lua U ts ∧ (∀ T ∈ ts, T ∈ w.types) ∧
      w.lua.index fuel (.user u) k = some (.field (api.resolve k ts)) := by
  obtain ⟨ts,b,line,short,inside,_,_,has⟩ := inv.line pushed
  obtain ⟨fuel,rfl⟩ : ∃ n, fuel = n+1 := ⟨fuel-1,by omega⟩
  have plain' := fun T member => plain T (inside T member)
  obtain ⟨a,own⟩ := line.has
  have follow : w.lua.rawget (.table a) "__index" = .table a := by
    rw [own.rawget,fields_index (plain' U line.head)]
  refine ⟨ts,line,inside,?_⟩
  rw [index_next rfl (has.trans own.registered) follow]
  exact index_line line plain' index name own.registered (by omega)

/-- The userdata comes first among the arguments of a method. -/
theorem dispatcher_run {A k : String} {i f : Nat} {run : Nat → Nat → Api (Except String Nat)}
    {trace : Option String} {args : List Val}
    (checked : GetObject fuel A 1 (s,args.reverse ++ [.user u]) =
      some (.ok obj,(s,args.reverse ++ [.user u]))) (mapping : (api.mapping A)[i]? = some (k,f)) :
    api_dispatcher api run trace fuel A (.mapping A i) (s,args.reverse ++ [.user u]) =
      if obj = 0 then some (.ok 0,(s,args.reverse ++ [.user u])) else run f obj (s,args.reverse) := by
  simp only [api_dispatcher,Prog.bind_run,checked,Option.bind_some]
  by_cases null : obj = 0
  · rw [if_pos null,if_pos null]
    rfl
  · rw [if_neg null,if_neg null]
    cases trace with
    | none => simp only [removeFirst,Prog.bind_run,Option.bind_some,List.dropLast_concat,mapping]
    | some text => simp only [removeFirst,Prog.bind_run,Prog.push_run,Prog.pop_one,
        Option.bind_some,List.dropLast_concat,mapping]

theorem agrees (inv : Inv api w) (plain : ∀ T ∈ w.types, api.Plain T) : Agrees api w where
  checks := fun _ T n stack enough => checks inv plain enough T n stack
  methods := by
    intro fuel u obj U k A i enough pushed nearest
    have ⟨n,above,defines,_⟩ := nearest
    have free : k ≠ "__index" ∧ k ≠ "__name" := by
      obtain ⟨ts,_,line,_,inside,_⟩ := inv.line pushed
      exact (plain A (inside A (line.mem_iff.mpr ⟨n,above⟩))).ne defines
    obtain ⟨ts,line,_,found⟩ := index_pushed inv plain enough pushed free.1 free.2
    rw [found,resolve_nearest line nearest]
  absent := by
    intro fuel u obj U k enough pushed index name absent
    obtain ⟨ts,line,_,found⟩ := index_pushed inv plain enough pushed index name
    rw [found,resolve_absent fun T member => absent T (line.mem_iff.mp member)]
  dispatches := by
    intro run trace fuel u obj U k A i args enough pushed nearest
    obtain ⟨n,above,defines,_⟩ := nearest
    obtain ⟨f,mapping⟩ := defines_get defines
    refine ⟨f,mapping,dispatcher_run ?_ mapping⟩
    have here : value 1 (args.reverse ++ [.user u]) = some (.user u) := by
      rw [value,if_pos Int.one_pos,List.reverse_append]
      rfl
    exact (GetObject_pushed inv plain enough here pushed).1 ⟨n,above⟩

end Agreement

/-- In every state of every run, the walk of the check and the lookup of a method follow the
tree of the types. -/
theorem checks_agree (api : ObjectAPI) (heap : List Table) (registry : String → Option Nat)
    (ops : List WorldOp) (w : World)
    (ran : Runs.run (World.step api) (World.start heap registry) ops = some w)
    (plain : ∀ T ∈ w.types, api.Plain T) : Agrees api w :=
  agrees (Runs.run_pres (Inv api) (fun _ _ _ inv stepped => inv_step inv stepped)
    (inv_start heap registry) ran) plain

instance (w : World) (u : Nat) (U : String) (obj : Nat) : Decidable (w.PushedAs u U obj) :=
  inferInstanceAs (Decidable (_ ∧ _))

/-- The types of the game server. -/
def gameserver : ObjectAPI where
  Parent T := if T = "CSceneObject" then "CObject" else if T = "CUnit" then "CSceneObject"
    else if T = "CPlayer" ∨ T = "CCreature" then "CUnit" else T
  mapping T := if T = "CObject" then [("Name",0),("Type",1),("Table",2)]
    else if T = "CSceneObject" then [("Pos",3)] else if T = "CUnit" then [("Level",4)]
    else if T = "CPlayer" then [("Sex",5)] else if T = "CCreature" then [("Attackable",6)] else []

/-- `CScriptMgr::Init` -/
def Init : List WorldOp :=
  [.register "CObject",.register "CSceneObject",.register "CUnit",.register "CPlayer",
    .register "CCreature"]

theorem run_any {api : ObjectAPI} {ops : List WorldOp} {P : World → Bool}
    (checked : (Runs.run (World.step api) (World.start [] fun _ => none) ops).any P = true) :
    ∃ w, Runs.run (World.step api) (World.start [] fun _ => none) ops = some w ∧ P w = true := by
  cases ran : Runs.run (World.step api) (World.start [] fun _ => none) ops with
  | none =>
    rw [ran] at checked
    cases checked
  | some w =>
    rw [ran] at checked
    exact ⟨w,rfl,checked⟩

theorem checks_agree_gameserver : ∃ w, Runs.run (World.step gameserver)
    (World.start [] fun _ => none) (Init ++ [.push "CPlayer" 7,.library none 8]) = some w ∧
    w.PushedAs 0 "CPlayer" 7 ∧ Agrees gameserver w := by
  obtain ⟨w,ran,known⟩ := @run_any gameserver (Init ++ [.push "CPlayer" 7,.library none 8])
    (fun w => decide (w.PushedAs 0 "CPlayer" 7 ∧
      ∀ T ∈ w.types, ∀ m ∈ gameserver.mapping T, m.1 ≠ "__index" ∧ m.1 ≠ "__name")) (by decide)
  have ⟨pushed,plain⟩ := of_decide_eq_true known
  exact ⟨w,ran,pushed,checks_agree gameserver [] (fun _ => none) _ w ran plain⟩

/-- A type whose first method has a name of the metatable. -/
def reserved (name : String) : ObjectAPI :=
  ⟨id,fun T => if T = "A" then [(name,0),("m",1)] else []⟩

def refuses (w : World) : Bool :=
  match GetObject 9 "A" 1 (w.lua,[.user 0]) with
  | some (.error _,_) => true
  | _ => false

def handles (w : World) : Bool :=
  match w.lua.index 9 (.user 0) "m" with
  | some (.handler _ _) => true
  | _ => false

/-- A method `__name` hides the name that is checked, and a method `__index` is called in
place of a lookup. -/
theorem reserved_names_disagree :
    (∃ w, Runs.run (World.step (reserved "__name")) (World.start [] fun _ => none)
      [.register "A",.push "A" 5] = some w ∧ ¬ Agrees (reserved "__name") w) ∧
    ∃ w, Runs.run (World.step (reserved "__index")) (World.start [] fun _ => none)
      [.register "A",.push "A" 5] = some w ∧ ¬ Agrees (reserved "__index") w := by
  constructor
  · obtain ⟨w,ran,known⟩ := @run_any (reserved "__name") [.register "A",.push "A" 5]
      (fun w => decide (w.types.length = 1 ∧ w.PushedAs 0 "A" 5 ∧ refuses w = true)) (by decide)
    refine ⟨w,ran,fun agrees => ?_⟩
    obtain ⟨one,pushed,refused⟩ := of_decide_eq_true known
    obtain ⟨r,checked,only⟩ := agrees.checks 9 "A" 1 [.user 0] (by rw [one]; decide)
    rw [(only 5).mpr ⟨0,"A",rfl,pushed,0,rfl⟩] at checked
    rw [refuses,checked] at refused
    cases refused
  · obtain ⟨w,ran,known⟩ := @run_any (reserved "__index") [.register "A",.push "A" 5]
      (fun w => decide (w.types.length = 1 ∧ w.PushedAs 0 "A" 5 ∧ handles w = true)) (by decide)
    refine ⟨w,ran,fun agrees => ?_⟩
    obtain ⟨one,pushed,handled⟩ := of_decide_eq_true known
    have found := agrees.methods 9 0 5 "A" "m" "A" 1 (by rw [one]; decide) pushed
      ⟨0,rfl,by decide,nofun⟩
    rw [handles,found] at handled
    cases handled

end Pworld.Script.LuaHelper
