import Pworld.Support.Loop
import Pworld.Support.Runs
import Mathlib.Logic.Function.Basic
import Mathlib.Data.List.Nodup

/-! The classes of the world scripts: tables that are the metatables of their objects and
of the classes derived from them, and the constructors that a call of a class runs. -/
namespace Pworld.Script

namespace Class

inductive Func where
  | classCall  -- `Class.__call`
  | script (id : Nat)
  deriving DecidableEq,Repr

inductive Val where
  | nil
  | bool (b : Bool)
  | table (addr : Nat)
  | func (f : Func)
  | other (id : Nat)  -- numbers, strings, userdata and threads
  deriving DecidableEq,Repr

def Val.truthy : Val → Bool
  | .nil => false
  | .bool b => b
  | _ => true

/-- The fields are those with a name; no code here uses others. -/
structure Table where
  fields : String → Val
  metatable : Option Nat

def Table.fresh (fields : String → Val) : Table := ⟨fields,none⟩

/-- The address of a table is its place. -/
abbrev Heap := List Table

def rawget (h : Heap) (a : Nat) (k : String) : Val :=
  match h[a]? with
  | some t => t.fields k
  | none => .nil

def metatable (h : Heap) (a : Nat) : Option Nat := h[a]?.bind Table.metatable

/-- A field of the metatable. -/
def metafield (h : Heap) (a : Nat) (event : String) : Val :=
  match metatable h a with
  | some m => rawget h m event
  | none => .nil

/-- `v.k`. An `__index` that is a function is not followed, nor a value with fields that
is no table. -/
def index (h : Heap) : Nat → Val → String → Option Val
  | 0, _, _ => none
  | fuel+1, .table a, k =>
    if rawget h a k ≠ .nil then some (rawget h a k)
    else match metafield h a "__index" with
      | .nil => some .nil
      | v => index h fuel v k
  | _, _, _ => none

/-- `a.k = v` of a table; a `__newindex` is not followed. -/
def setfield (h : Heap) (a : Nat) (k : String) (v : Val) : Option Heap :=
  if rawget h a k ≠ .nil ∨ metafield h a "__newindex" = .nil then
    some (h.modify a fun t => {t with fields := Function.update t.fields k v})
  else none

def setmetatable (h : Heap) (a : Nat) : Val → Option Heap
  | .nil =>
    if metafield h a "__metatable" = .nil then
      some (h.modify a fun t => {t with metatable := none})
    else none
  | .table m =>
    if metafield h a "__metatable" = .nil then
      some (h.modify a fun t => {t with metatable := some m})
    else none
  | _ => none

/-- The metatable, or what its `__metatable` says it is. -/
def getmetatable (h : Heap) : Val → Option Val
  | .table a =>
    match metatable h a with
    | none => some .nil
    | some m => some (if metafield h a "__metatable" = .nil then .table m
        else metafield h a "__metatable")
  | .other _ => none
  | _ => some .nil

/-- `table.insert(c,v)`: at the end, and nil is not there. -/
def insert (c : List Val) (v : Val) : List Val := if v = .nil then c else c ++ [v]

/-- The loop of `__call`: where it is, the constructor seen last and those collected. -/
structure Walk where
  p : Val
  ctors : Val
  c : List Val

def round (h : Heap) (fuel : Nat) (w : Walk) : Option (Walk ⊕ List Val) := do
  let ctor ← index h fuel w.p "ctor"
  let c := if ctor ≠ w.ctors then insert w.c ctor else w.c
  let p ← getmetatable h w.p
  some (if p.truthy then .inl ⟨p,ctor,c⟩ else .inr c)

section

variable (run : Func → List Val → Heap → Option Heap)  -- a call of a function, for its effect

/-- `c[i](o,...)` -/
def construct (o : Val) (args : List Val) (h : Heap) : Val → Option Heap
  | .func f => run f (o::args) h
  | _ => none

/-- `Class.__call` -/
def _call (fuel : Nat) (h : Heap) (p : Val) (args : List Val) : Option (Val × Heap) := do
  let o := h.length
  let h ← setmetatable (h ++ [Table.fresh fun _ => .nil]) o p
  let c ← Loop.iterate (round h fuel) fuel ⟨p,.nil,[]⟩
  let h ← c.reverse.foldlM (construct run (.table o) args) h
  some (.table o,h)

/-- The call of a table whose metatable has `Class.__call`. -/
def call (fuel : Nat) (h : Heap) (v : Val) (args : List Val) : Option (Val × Heap) :=
  match v with
  | .table a => if metafield h a "__call" = .func .classCall then _call run fuel h v args else none
  | _ => none

end

/-- `Class.extend`, for the table of `Class` at `C`. -/
def extend (C fuel : Nat) (h : Heap) (p : Val) (b : Nat) : Option (Val × Heap) := do
  let h ← setfield h b "__index" (.table b)
  let h ← setfield h b "__call" (← index h fuel (.table C) "__call")
  let h ← setmetatable h b (if p.truthy then p else .table C)
  some (.table b,h)

/-- Classes each derived from the one before, from new tables with the fields given. -/
def derive (C fuel : Nat) : Heap → Val → List (String → Val) → Option (List Nat × Heap)
  | h, _, [] => some ([],h)
  | h, p, b::bodies => do
    let (cls,h') ← extend C fuel (h ++ [Table.fresh b]) p h.length
    let (classes,h') ← derive C fuel h' cls bodies
    some (h.length::classes,h')

/-- `Class` as the script leaves it. -/
structure Installed (h : Heap) (C : Nat) : Prop where
  bare : metatable h C = none
  plain : rawget h C "ctor" = .nil
  unindexed : rawget h C "__index" = .nil
  caller : rawget h C "__call" = .func .classCall
  exposed : rawget h C "__metatable" = .nil

/-- A table as `Class.extend` leaves it. -/
structure IsClass (h : Heap) (b parent : Nat) : Prop where
  indexed : rawget h b "__index" = .table b
  caller : rawget h b "__call" = .func .classCall
  exposed : rawget h b "__metatable" = .nil
  derived : metatable h b = some parent

/-- Classes, each with the one after it for its parent, and the last with `Class`. -/
def Linked (h : Heap) (C : Nat) : List Nat → Prop
  | [] => Installed h C
  | b::rest => IsClass h b (rest.headD C) ∧ Linked h C rest

/-- The constructors that the classes have of their own. -/
def owns (h : Heap) (classes : List Nat) : List Val :=
  (classes.map fun b => rawget h b "ctor").filter (· ≠ .nil)

section

variable {h h' : Heap} {C : Nat}

theorem owns_none {b : Nat} {rest : List Nat} (absent : rawget h b "ctor" = .nil) :
    owns h (b::rest) = owns h rest := by
  simp [owns,absent]

theorem owns_some {b : Nat} {rest : List Nat} (present : rawget h b "ctor" ≠ .nil) :
    owns h (b::rest) = rawget h b "ctor" :: owns h rest := by
  simp [owns,present]

theorem nil_not_own (classes : List Nat) : Val.nil ∉ owns h classes := by
  simp [owns]

theorem Linked.installed {chain : List Nat} (linked : Linked h C chain) : Installed h C := by
  induction chain with
  | nil => exact linked
  | cons b rest ih => exact ih linked.2

theorem Linked.head {chain : List Nat} (linked : Linked h C chain) :
    rawget h (chain.headD C) "__call" = .func .classCall ∧
      rawget h (chain.headD C) "__metatable" = .nil := by
  cases chain with
  | nil => exact ⟨linked.caller,linked.exposed⟩
  | cons b rest => exact ⟨linked.1.caller,linked.1.exposed⟩

theorem metafield_some {a m : Nat} {event : String} (has : metatable h a = some m) :
    metafield h a event = rawget h m event := by
  simp only [metafield,has]

theorem metafield_none {a : Nat} {event : String} (bare : metatable h a = none) :
    metafield h a event = .nil := by
  simp only [metafield,bare]

/-- A class answers with the constructor of the nearest class that has one. -/
theorem index_ctor {chain : List Nat} {fuel : Nat} (linked : Linked h C chain)
    (enough : chain.length < fuel) :
    index h fuel (.table (chain.headD C)) "ctor" = some ((owns h chain).headD .nil) := by
  induction chain generalizing fuel with
  | nil =>
    obtain ⟨fuel,rfl⟩ := Nat.exists_eq_succ_of_ne_zero (Nat.ne_zero_of_lt enough)
    simp only [List.headD_nil,index,linked.plain,metafield_none linked.bare]
    rfl
  | cons b rest ih =>
    obtain ⟨fuel,rfl⟩ := Nat.exists_eq_succ_of_ne_zero (Nat.ne_zero_of_lt enough)
    obtain ⟨isClass,linked⟩ := linked
    have next := ih linked (Nat.lt_of_succ_lt_succ enough)
    rw [List.headD_cons,index]
    by_cases own : rawget h b "ctor" = .nil
    · rw [if_neg (not_not_intro own),owns_none own,metafield_some isClass.derived]
      cases rest with
      | nil => rw [List.headD_nil,linked.unindexed]; rfl
      | cons b' rest => rw [List.headD_cons,linked.1.indexed]; exact next
    · rw [if_pos own,owns_some own]
      rfl

/-- The constructors still to be collected, if `seen` was the last one seen. -/
def unseen (seen : Val) (ctors : List Val) : List Val :=
  if seen = ctors.headD .nil then ctors.tail else ctors

theorem unseen_head (ctors : List Val) : unseen (ctors.headD .nil) ctors = ctors.tail :=
  if_pos rfl

theorem insert_head {ctors : List Val} (real : Val.nil ∉ ctors) (c : List Val) :
    insert c (ctors.headD .nil) ++ ctors.tail = c ++ ctors := by
  cases ctors with
  | nil => simp [insert]
  | cons v rest =>
    have some : v ≠ .nil := fun same => real (same ▸ List.mem_cons_self)
    simp [insert,some]

/-- One class of the walk: `first` is what it answers with. -/
theorem collect {b : Nat} {rest : List Nat} (distinct : (owns h (b::rest)).Nodup) (seen : Val)
    (c : List Val) :
    let first := (owns h (b::rest)).headD .nil
    (if first ≠ seen then insert c first else c) ++ unseen first (owns h rest) =
      c ++ unseen seen (owns h (b::rest)) := by
  intro first
  have left : unseen first (owns h rest) = (owns h (b::rest)).tail := by
    by_cases own : rawget h b "ctor" = .nil
    · simp only [first,owns_none own]
      exact unseen_head _
    · have other : first ≠ (owns h rest).headD .nil := by
        simp only [first,owns_some own,List.headD_cons]
        rw [owns_some own] at distinct
        intro same
        cases later : owns h rest with
        | nil => rw [later] at same; exact own same
        | cons v vs =>
          rw [later] at same distinct
          exact (List.nodup_cons.mp distinct).1 (same ▸ List.mem_cons_self)
      simp only [unseen,if_neg other,owns_some own,List.tail_cons]
  rw [left]
  by_cases same : first = seen
  · rw [if_neg (not_not_intro same),← same,unseen_head]
  · rw [if_pos same,insert_head (nil_not_own _),unseen,if_neg (Ne.symm same)]

theorem getmetatable_class {b m : Nat} (has : metatable h b = some m)
    (exposed : rawget h m "__metatable" = .nil) :
    getmetatable h (.table b) = some (.table m) := by
  simp only [getmetatable,has,metafield_some has,exposed,if_true]

/-- The loop collects the constructors of the classes from where it is on. -/
theorem walk {chain : List Nat} {fuel n : Nat} {seen : Val} {c : List Val}
    (linked : Linked h C chain) (enough : chain.length < fuel) (rounds : chain.length < n)
    (distinct : (owns h chain).Nodup) :
    Loop.iterate (round h fuel) n ⟨.table (chain.headD C),seen,c⟩ =
      some (c ++ unseen seen (owns h chain)) := by
  induction chain generalizing n seen c with
  | nil =>
    obtain ⟨n,rfl⟩ := Nat.exists_eq_succ_of_ne_zero (Nat.ne_zero_of_lt rounds)
    apply Loop.iterate_leave
    have answer := index_ctor linked enough
    have top : getmetatable h (.table C) = some .nil := by
      simp only [getmetatable,linked.bare]
    simp only [List.headD_nil] at answer ⊢
    simp [round,answer,top,owns,unseen,insert,Val.truthy]
  | cons b rest ih =>
    obtain ⟨n,rfl⟩ := Nat.exists_eq_succ_of_ne_zero (Nat.ne_zero_of_lt rounds)
    have answer := index_ctor linked enough
    have up := getmetatable_class linked.1.derived linked.2.head.2
    have fewer : (owns h rest).Nodup := by
      apply List.Nodup.sublist _ distinct
      exact ((List.sublist_cons_self b rest).map _).filter _
    have again : round h fuel ⟨.table b,seen,c⟩ = some (.inl ⟨.table (rest.headD C),
        (owns h (b::rest)).headD .nil,
        if (owns h (b::rest)).headD .nil ≠ seen then insert c ((owns h (b::rest)).headD .nil)
          else c⟩) := by
      simp only [List.headD_cons] at answer
      simp only [round,answer,up,Option.bind_eq_bind,Option.bind_some,Val.truthy,if_true]
    rw [List.headD_cons,Loop.iterate_again n again]
    rw [ih linked.2 (Nat.lt_of_succ_lt enough) (Nat.lt_of_succ_lt_succ rounds) fewer]
    rw [collect distinct seen c]

theorem rawget_congr {a : Nat} {k : String} (same : h'[a]? = h[a]?) :
    rawget h' a k = rawget h a k := by
  simp only [rawget,same]

theorem metatable_congr {a : Nat} (same : h'[a]? = h[a]?) : metatable h' a = metatable h a := by
  simp only [metatable,same]

theorem Linked.congr {chain : List Nat} (linked : Linked h C chain)
    (same : ∀ a ∈ C::chain, h'[a]? = h[a]?) : Linked h' C chain := by
  induction chain with
  | nil =>
    have kept := same C List.mem_cons_self
    constructor
    · rw [metatable_congr kept,linked.bare]
    · rw [rawget_congr kept,linked.plain]
    · rw [rawget_congr kept,linked.unindexed]
    · rw [rawget_congr kept,linked.caller]
    · rw [rawget_congr kept,linked.exposed]
  | cons b rest ih =>
    have kept := same b (by simp)
    obtain ⟨isClass,linked⟩ := linked
    constructor
    · constructor
      · rw [rawget_congr kept,isClass.indexed]
      · rw [rawget_congr kept,isClass.caller]
      · rw [rawget_congr kept,isClass.exposed]
      · rw [metatable_congr kept,isClass.derived]
    · apply ih linked
      intro a member
      apply same a
      rcases List.mem_cons.mp member with rfl | later
      · exact List.mem_cons_self
      · exact List.mem_cons_of_mem _ (List.mem_cons_of_mem _ later)

theorem owns_congr {classes : List Nat} (same : ∀ a ∈ classes, h'[a]? = h[a]?) :
    owns h' classes = owns h classes := by
  have each : ∀ a ∈ classes, rawget h' a "ctor" = rawget h a "ctor" := fun a member =>
    rawget_congr (same a member)
  rw [owns,owns,List.map_congr_left each]

theorem lt_of_rawget {a : Nat} {k : String} (present : rawget h a k ≠ .nil) : a < h.length := by
  by_contra beyond
  rw [rawget,List.getElem?_eq_none (Nat.le_of_not_lt beyond)] at present
  exact present rfl

theorem Linked.inside {chain : List Nat} (linked : Linked h C chain) :
    ∀ a ∈ C::chain, a < h.length := by
  induction chain with
  | nil =>
    intro a member
    cases List.mem_singleton.mp member
    apply lt_of_rawget (k := "__call")
    simp [linked.caller]
  | cons b rest ih =>
    intro a member
    rcases List.mem_cons.mp member with rfl | later
    · exact ih linked.2 a List.mem_cons_self
    · rcases List.mem_cons.mp later with rfl | later
      · apply lt_of_rawget (k := "__call")
        simp [linked.1.caller]
      · exact ih linked.2 a (List.mem_cons_of_mem _ later)

theorem Linked.kept {chain : List Nat} (linked : Linked h C chain) (more : Heap) :
    ∀ a ∈ C::chain, (h ++ more)[a]? = h[a]? := fun a member =>
  List.getElem?_append_left (linked.inside a member)

theorem modify_last (t : Table) (f : Table → Table) :
    (h ++ [t]).modify h.length f = h ++ [f t] := by
  induction h with
  | nil => rfl
  | cons t' h ih => rw [List.cons_append,List.length_cons,List.modify_succ_cons,ih,List.cons_append]

theorem last_metatable (t : Table) : metatable (h ++ [t]) h.length = t.metatable := by
  simp [metatable]

theorem setmetatable_last {t : Table} {m : Nat} (bare : t.metatable = none) :
    setmetatable (h ++ [t]) h.length (.table m) = some (h ++ [{t with metatable := some m}]) := by
  rw [setmetatable,metafield_none ((last_metatable t).trans bare),if_pos rfl,modify_last]

theorem setfield_last {t : Table} {k : String} {v : Val} (bare : t.metatable = none) :
    setfield (h ++ [t]) h.length k v =
      some (h ++ [{t with fields := Function.update t.fields k v}]) := by
  rw [setfield,metafield_none ((last_metatable t).trans bare),if_pos (Or.inr rfl),modify_last]

/-- A call of a class runs the constructors of its chain on a new object, base first. -/
theorem call_linked (run : Func → List Val → Heap → Option Heap) {cls fuel : Nat}
    {rest : List Nat} (args : List Val) (linked : Linked h C (cls::rest))
    (enough : rest.length + 1 < fuel) (distinct : (owns h (cls::rest)).Nodup) :
    call run fuel h (.table cls) args =
      ((owns h (cls::rest)).reverse.foldlM (construct run (.table h.length) args)
        (h ++ [⟨fun _ => .nil,some cls⟩])).map fun h' => (.table h.length,h') := by
  have kept := linked.kept [⟨fun _ => .nil,some cls⟩]
  have still := linked.congr kept
  have same := owns_congr fun a member => kept a (List.mem_cons_of_mem C member)
  have walked := @walk _ _ _ fuel _ .nil [] still enough enough (same ▸ distinct)
  have all : unseen .nil (owns h (cls::rest)) = owns h (cls::rest) := by
    cases ctors : owns h (cls::rest) with
    | nil => rfl
    | cons v vs =>
      apply if_neg
      intro (same : Val.nil = v)
      apply nil_not_own (h := h) (cls::rest)
      rw [ctors,same]
      exact List.mem_cons_self
  have dispatched : metafield h cls "__call" = .func .classCall := by
    rw [metafield_some linked.1.derived,linked.2.head.1]
  rw [call,if_pos dispatched,_call]
  rw [Table.fresh,setmetatable_last rfl,Option.bind_eq_bind,Option.bind_some]
  rw [List.headD_cons,same,all,List.nil_append] at walked
  rw [walked,Option.bind_eq_bind,Option.bind_some,Option.map_eq_bind]
  rfl

/-- What `Class.extend` makes of a new table. -/
def derived (h : Heap) (parent : Nat) (b : String → Val) : Table :=
  ⟨Function.update (Function.update b "__index" (.table h.length)) "__call" (.func .classCall),
    some parent⟩

def parentOf (chain : List Nat) : Val := (chain.head?.map Val.table).getD .nil

theorem extend_new {chain : List Nat} {fuel : Nat} (linked : Linked h C chain)
    (b : String → Val) :
    extend C (fuel+1) (h ++ [Table.fresh b]) (parentOf chain) h.length =
      some (.table h.length,h ++ [derived h (chain.headD C) b]) := by
  have root : ∀ a ∈ C::chain, ∀ t : Table, (h ++ [t])[a]? = h[a]? := fun a member t =>
    linked.kept [t] a member
  have caller (t : Table) : index (h ++ [t]) (fuel+1) (.table C) "__call" =
      some (.func .classCall) := by
    have there : rawget (h ++ [t]) C "__call" = .func .classCall := by
      rw [rawget_congr (root C List.mem_cons_self t)]
      exact linked.installed.caller
    rw [index,there]
    rfl
  have up : (if (parentOf chain).truthy then parentOf chain else .table C) =
      .table (chain.headD C) := by
    cases chain with
    | nil => rfl
    | cons a rest => rfl
  simp only [extend,Table.fresh,setfield_last,caller,up,setmetatable_last,Option.bind_eq_bind,
    Option.bind_some]
  rfl

/-- The new class heads the chain of its parent. -/
theorem extend_linked {chain : List Nat} (linked : Linked h C chain) {b : String → Val}
    (exposed : b "__metatable" = .nil) :
    Linked (h ++ [derived h (chain.headD C) b]) C (h.length::chain) := by
  have last (k : String) : rawget (h ++ [derived h (chain.headD C) b]) h.length k =
      (derived h (chain.headD C) b).fields k := by
    simp [rawget]
  refine ⟨⟨?_,?_,?_,?_⟩,linked.congr (linked.kept _)⟩
  · rw [last]
    rfl
  · rw [last]
    rfl
  · rw [last]
    exact exposed
  · rw [last_metatable]
    rfl

/-- The constructor of its own that a class with these fields has. -/
def ctorOf (b : String → Val) : Option Func :=
  match b "ctor" with
  | .func f => some f
  | _ => none

def ctors (bodies : List (String → Val)) : List Func := bodies.filterMap ctorOf

/-- The fields of a class: `ctor` is a function if it is there, and the metatables of what
is derived from it are not hidden. -/
structure Body (b : String → Val) : Prop where
  function : b "ctor" = .nil ∨ ∃ f, b "ctor" = .func f
  exposed : b "__metatable" = .nil

theorem owns_derived {chain : List Nat} (linked : Linked h C chain) {b : String → Val}
    (body : Body b) :
    owns (h ++ [derived h (chain.headD C) b]) (h.length::chain) =
      (ctors [b]).map Val.func ++ owns h chain := by
  have kept := owns_congr fun a member =>
    linked.kept [derived h (chain.headD C) b] a (List.mem_cons_of_mem C member)
  have last : rawget (h ++ [derived h (chain.headD C) b]) h.length "ctor" = b "ctor" := by
    simp [rawget,derived]
  rcases body.function with absent | ⟨f,present⟩
  · rw [owns_none (last.trans absent),kept]
    simp [ctors,ctorOf,absent]
  · have some := last.trans present
    rw [owns_some (some ▸ Val.noConfusion),kept,some]
    simp [ctors,ctorOf,present]

/-- Classes built one from the other are a chain, and own the constructors given. -/
theorem derive_linked {fuel : Nat} {bodies : List (String → Val)} {chain : List Nat}
    (linked : Linked h C chain) (each : ∀ b ∈ bodies, Body b) :
    ∃ classes h', derive C (fuel+1) h (parentOf chain) bodies = some (classes,h') ∧
      classes.length = bodies.length ∧ Linked h' C (classes.reverse ++ chain) ∧
      owns h' (classes.reverse ++ chain) =
        ((ctors bodies).map Val.func).reverse ++ owns h chain := by
  induction bodies generalizing h chain with
  | nil => exact ⟨[],h,rfl,rfl,linked,rfl⟩
  | cons b bodies ih =>
    have body := each b List.mem_cons_self
    have longer := extend_linked linked body.exposed
    obtain ⟨classes,h',made,length,linked',own⟩ :=
      ih longer fun b member => each b (List.mem_cons_of_mem _ member)
    refine ⟨h.length::classes,h',?_,?_,?_,?_⟩
    · rw [derive,extend_new linked b,Option.bind_eq_bind,Option.bind_some]
      change ((derive C (fuel+1) _ (parentOf (h.length::chain)) bodies).bind _) = _
      rw [made]
      rfl
    · rw [List.length_cons,List.length_cons,length]
    · rw [List.reverse_cons,List.append_assoc]
      exact linked'
    · rw [List.reverse_cons,List.append_assoc]
      rw [List.singleton_append,own,owns_derived linked body]
      have split : ctors (b::bodies) = ctors [b] ++ ctors bodies :=
        List.filterMap_append (l := [b])
      have short : ((ctors [b]).map Val.func).reverse = (ctors [b]).map Val.func := by
        cases made : ctorOf b with
        | none => simp [ctors,made]
        | some f => simp [ctors,made]
      rw [split,List.map_append,List.reverse_append,short,List.append_assoc]

end

section

variable (run : Func → List Val → Heap → Option Heap) (C fuel : Nat) (h : Heap)
  (bodies : List (String → Val))

/-- The class made last from the fields given, called whenever its chain is as it was made:
the result is a new object made with the class for its metatable, and the constructors are
run on it, base first. Unless one of them gives it another, it has that metatable in the end. -/
def Constructs : Prop :=
  ∃ classes h', derive C fuel h .nil bodies = some (classes,h') ∧
    classes.length = bodies.length ∧
    ∀ cls, classes.getLast? = some cls → ∀ (now : Heap) (args : List Val),
      (∀ a ∈ C::classes, now[a]? = h'[a]?) →
      call run fuel now (.table cls) args =
        ((ctors bodies).foldlM (fun h f => run f (.table now.length :: args) h)
          (now ++ [⟨fun _ => .nil,some cls⟩])).map (fun h => (.table now.length,h)) ∧
      ((∀ f h h', run f (.table now.length :: args) h = some h' →
          metatable h' now.length = metatable h now.length) →
        ∀ o final, call run fuel now (.table cls) args = some (o,final) →
          metatable final now.length = some cls)

end

theorem foldlM_construct (run : Func → List Val → Heap → Option Heap) (o : Val)
    (args : List Val) (fs : List Func) (h : Heap) :
    (fs.map Val.func).foldlM (construct run o args) h =
      fs.foldlM (fun h f => run f (o::args) h) h := by
  rw [List.foldlM_map]
  rfl

theorem construction_order (run : Func → List Val → Heap → Option Heap) {C fuel : Nat}
    {h : Heap} {bodies : List (String → Val)} (installed : Installed h C)
    (each : ∀ b ∈ bodies, Body b) (distinct : (ctors bodies).Nodup)
    (enough : bodies.length < fuel) : Constructs run C fuel h bodies := by
  obtain ⟨fuel,rfl⟩ := Nat.exists_eq_succ_of_ne_zero (Nat.ne_zero_of_lt enough)
  obtain ⟨classes,h',made,length,linked,own⟩ :=
    @derive_linked _ _ fuel bodies [] installed each
  have nothing : owns h [] = [] := rfl
  rw [List.append_nil] at linked own
  rw [nothing,List.append_nil] at own
  refine ⟨classes,h',made,length,fun cls last now args same => ?_⟩
  obtain ⟨before,rfl⟩ := List.getLast?_eq_some_iff.mp last
  rw [List.reverse_append,List.reverse_singleton,List.singleton_append] at linked own
  have members : ∀ a ∈ C::cls::before.reverse, now[a]? = h'[a]? := by
    intro a member
    apply same a
    simpa [or_comm] using member
  have own_now := (owns_congr fun a member => members a (List.mem_cons_of_mem C member)).trans own
  have unique : (owns now (cls::before.reverse)).Nodup := by
    rw [own_now,List.nodup_reverse]
    exact distinct.map fun f g equal => Val.func.inj equal
  have short : before.reverse.length + 1 < fuel + 1 := by
    rw [List.length_reverse]
    rw [List.length_append,List.length_singleton] at length
    exact length ▸ enough
  have called := call_linked run args (linked.congr members) short unique
  rw [own_now,List.reverse_reverse,foldlM_construct] at called
  refine ⟨called,fun keeps o final result => ?_⟩
  rw [called] at result
  obtain ⟨_,ran,equal⟩ := Option.map_eq_some_iff.mp result
  cases equal
  have start : metatable (now ++ [⟨fun _ => .nil,some cls⟩]) now.length = some cls :=
    last_metatable _
  exact Runs.run_pres (fun h => metatable h now.length = some cls)
    (fun h f h' has ran => (keeps f h h' ran).trans has) start ran

/-- The heap with `Class` alone. -/
def world : Heap := [Table.fresh fun k => if k = "__call" then .func .classCall else .nil]

theorem world_installed : Installed world 0 := by
  constructor <;> rfl

/-- A constructor that leaves a table. -/
def leave (f : Func) (_ : List Val) (h : Heap) : Option Heap :=
  some (h ++ [Table.fresh fun _ => .func f])

def withCtor (id : Nat) (k : String) : Val := if k = "ctor" then .func (.script id) else .nil

/-- A base with a constructor, a class without, and one with a constructor again. -/
theorem construction_order_three :
    Constructs leave 0 4 world [withCtor 1,fun _ => .nil,withCtor 2] := by
  apply construction_order leave world_installed
  · intro b member
    simp only [List.mem_cons,List.not_mem_nil,or_false] at member
    rcases member with rfl | rfl | rfl
    · exact ⟨Or.inr ⟨.script 1,rfl⟩,rfl⟩
    · exact ⟨Or.inl rfl,rfl⟩
    · exact ⟨Or.inr ⟨.script 2,rfl⟩,rfl⟩
  · decide
  · decide

/-- A base that hides that it is the metatable of what is derived from it. -/
def hidden (k : String) : Val := if k = "__metatable" then .bool false else withCtor 1 k

def below : Heap := ((derive 0 9 world .nil [hidden,withCtor 2]).map Prod.snd).getD []

/-- The constructor of such a base is not run. -/
theorem hidden_base_not_constructed :
    Installed world 0 ∧ ctors [hidden,withCtor 2] = [.script 1,.script 2] ∧
      ¬ Constructs leave 0 9 world [hidden,withCtor 2] := by
  refine ⟨world_installed,by decide,?_⟩
  intro ⟨classes,h',made,_,calls⟩
  have built : derive 0 9 world .nil [hidden,withCtor 2] = some ([1,2],below) := rfl
  cases Option.some.inj (made.symm.trans built)
  have called := (calls 2 rfl below [] fun _ _ => rfl).1
  have sizes := congrArg (Option.map fun r => r.2.length) called
  -- the object and one table on the left, the object and two on the right
  exact absurd sizes (by decide)

end Class

end Pworld.Script
