import Pworld.Script.Class

/-! Classes, their objects and what scripts assign to both, over whole runs: a field is that of
the object or of the nearest class that has one. -/
namespace Pworld.Script

namespace Class

/-- What makes a table a class. -/
def events : List String := ["__index","__call","__metatable","__newindex"]

abbrev Name := {k : String // k ∉ events}

/-- `a.k = v`, one after the other. -/
def assign (h : Heap) (a : Nat) (fields : List (Name × Val)) : Option Heap :=
  fields.foldlM (fun h (k,v) => setfield h a k v) h

/-- The constructors assign to the new object. -/
def runScript (scripts : Nat → List (Name × Val)) (f : Func) (args : List Val) (h : Heap) :
    Option Heap :=
  match f,args with
  | .script id,.table o::_ => assign h o (scripts id)
  | _,_ => none

/-- The fields of a table constructor. -/
def body (fields : List (Name × Val)) : String → Val :=
  fields.foldl (fun b (k,v) => Function.update b k v) fun _ => .nil

/-- A table that the script has made, and the classes above it. -/
structure Known where
  addr : Nat
  isClass : Bool
  above : List Nat
  deriving DecidableEq,Repr

structure Objects where
  h : Heap
  known : List Known

inductive ObjectsOp where
  | extend (parent : Option Nat) (fields : List (Name × Val))
  | new (cls : Nat)
  | set (i : Nat) (k : Name) (v : Val)

namespace Objects

/-- The class with this number, heading the classes above it. -/
def chain (s : Objects) (i : Nat) : Option (List Nat) :=
  s.known[i]?.bind fun e => if e.isClass then some (e.addr::e.above) else none

/-- What a class derived from that one, or from none, has above it. -/
def above (s : Objects) : Option Nat → Option (List Nat)
  | none => some []
  | some i => s.chain i

def step (C fuel : Nat) (scripts : Nat → List (Name × Val)) (s : Objects) :
    ObjectsOp → Option Objects
  | .extend parent fields => do
    let above ← s.above parent
    let (_,h) ← Class.extend C fuel (s.h ++ [Table.fresh (body fields)]) (parentOf above) s.h.length
    some {h := h, known := s.known ++ [⟨s.h.length,true,above⟩]}
  | .new i => do
    let above ← s.chain i
    let (_,h) ← call (runScript scripts) fuel s.h (parentOf above) []
    some {h := h, known := s.known ++ [⟨s.h.length,false,above⟩]}
  | .set i k v => do
    let e ← s.known[i]?
    let h ← setfield s.h e.addr k v
    some {s with h := h}

end Objects

/-- The first of these tables that has the field. -/
def nearest (h : Heap) (as : List Nat) (k : String) : Val :=
  ((as.map fun a => rawget h a k).find? (· ≠ .nil)).getD .nil

/-- A table below a chain of classes. -/
structure Below (h : Heap) (C : Nat) (a : Nat) (above : List Nat) : Prop where
  other : a ≠ C
  inside : a < h.length
  derived : metatable h a = some (above.headD C)
  linked : Linked h C above

section

variable {h h' : Heap} {C : Nat}

theorem nearest_cons (a : Nat) (as : List Nat) (k : String) :
    nearest h (a::as) k = if rawget h a k ≠ .nil then rawget h a k else nearest h as k := by
  unfold nearest
  rw [List.map_cons,List.find?_cons]
  by_cases own : rawget h a k = .nil
  · simp [own]
  · simp [own]

/-- What a class answers with. -/
theorem index_class {chain : List Nat} {k : String} {n : Nat} (linked : Linked h C chain)
    (some_ : chain ≠ []) (enough : chain.length < n) :
    index h n (.table (chain.headD C)) k = some (nearest h chain k) := by
  induction chain generalizing n with
  | nil => exact absurd rfl some_
  | cons b rest ih =>
    obtain ⟨n,rfl⟩ := Nat.exists_eq_succ_of_ne_zero (Nat.ne_zero_of_lt enough)
    obtain ⟨isClass,linked⟩ := linked
    rw [List.headD_cons,index,nearest_cons]
    split
    next => rfl
    next =>
      rw [metafield_some isClass.derived]
      cases rest with
      | nil =>
        rw [List.headD_nil,linked.unindexed]
        rfl
      | cons b' rest =>
        rw [List.headD_cons,linked.1.indexed]
        exact ih linked (List.cons_ne_nil _ _) (Nat.lt_of_succ_lt_succ enough)

theorem Below.index {a : Nat} {above : List Nat} {k : String} {n : Nat}
    (below : Below h C a above) (enough : above.length + 1 < n) :
    Class.index h n (.table a) k = some (nearest h (a::above) k) := by
  obtain ⟨n,rfl⟩ := Nat.exists_eq_succ_of_ne_zero (Nat.ne_zero_of_lt enough)
  rw [Class.index,nearest_cons]
  split
  next => rfl
  next =>
    rw [metafield_some below.derived]
    have linked := below.linked
    cases above with
    | nil =>
      rw [List.headD_nil,linked.unindexed]
      rfl
    | cons b rest =>
      rw [List.headD_cons,linked.1.indexed]
      exact index_class linked (List.cons_ne_nil _ _) (Nat.lt_of_succ_lt_succ enough)

theorem metatable_setfield {a b : Nat} {k : String} {v : Val}
    (went : setfield h a k v = some h') : metatable h' b = metatable h b := by
  unfold setfield at went
  split at went
  next =>
    cases went
    unfold metatable
    rw [List.getElem?_modify]
    split
    next => cases h[b]? <;> rfl
    next => cases h[b]? <;> rfl
  next => cases went

theorem rawget_setfield {a b : Nat} {k k' : String} {v : Val} (other : k' ≠ k ∨ b ≠ a)
    (went : setfield h a k v = some h') : rawget h' b k' = rawget h b k' := by
  unfold setfield at went
  split at went
  next =>
    cases went
    unfold rawget
    rw [List.getElem?_modify]
    cases h[b]? with
    | none => rfl
    | some t =>
      by_cases same : a = b
      · have name := other.resolve_right (not_not_intro same.symm)
        simp [same,Function.update_of_ne name]
      · simp [same]
  next => cases went

theorem length_setfield {a : Nat} {k : String} {v : Val} (went : setfield h a k v = some h') :
    h'.length = h.length := by
  unfold setfield at went
  split at went
  next =>
    cases went
    exact List.length_modify _ _ _
  next => cases went

theorem event_ne {e : String} (event : e ∈ events) (k : Name) : e ≠ k := by
  rintro rfl
  exact k.2 event

/-- An assignment leaves the classes classes. -/
theorem Linked.setfield {chain : List Nat} {a : Nat} {k : Name} {v : Val}
    (linked : Linked h C chain) (other : a ≠ C) (went : Class.setfield h a k v = some h') :
    Linked h' C chain := by
  have kept (b : Nat) {e : String} (event : e ∈ events) : rawget h' b e = rawget h b e :=
    rawget_setfield (.inl (event_ne event k)) went
  induction chain with
  | nil =>
    have root (e : String) : rawget h' C e = rawget h C e :=
      rawget_setfield (.inr other.symm) went
    exact ⟨(metatable_setfield went).trans linked.bare,(root _).trans linked.plain,
      (root _).trans linked.unindexed,(root _).trans linked.caller,(root _).trans linked.exposed⟩
  | cons b rest ih =>
    obtain ⟨isClass,linked⟩ := linked
    refine ⟨⟨?_,?_,?_,?_⟩,ih linked⟩
    · exact (kept b (by decide)).trans isClass.indexed
    · exact (kept b (by decide)).trans isClass.caller
    · exact (kept b (by decide)).trans isClass.exposed
    · exact (metatable_setfield went).trans isClass.derived

theorem body_event (fields : List (Name × Val)) {e : String} (event : e ∈ events) :
    body fields e = .nil := by
  unfold body
  suffices kept : ∀ b : String → Val, b e = .nil →
      fields.foldl (fun b (k,v) => Function.update b k v) b e = .nil from kept _ rfl
  induction fields with
  | nil => exact fun _ plain => plain
  | cons field fields ih =>
    intro b plain
    exact ih _ ((Function.update_of_ne (event_ne event field.1) _ _).trans plain)

/-- A heap in which the tables have stayed what they are below `Class`. -/
structure Kept (C : Nat) (h h' : Heap) : Prop where
  longer : h.length ≤ h'.length
  linked : ∀ chain, Linked h C chain → Linked h' C chain
  derived : ∀ b < h.length, metatable h' b = metatable h b

theorem Kept.refl (C : Nat) (h : Heap) : Kept C h h := ⟨Nat.le_refl _,fun _ => id,fun _ _ => rfl⟩

theorem Kept.trans {h'' : Heap} (first : Kept C h h') (next : Kept C h' h'') : Kept C h h'' where
  longer := Nat.le_trans first.longer next.longer
  linked := fun chain linked => next.linked chain (first.linked chain linked)
  derived := fun b inside =>
    (next.derived b (Nat.lt_of_lt_of_le inside first.longer)).trans (first.derived b inside)

theorem Kept.below {a : Nat} {above : List Nat} (kept : Kept C h h')
    (below : Below h C a above) : Below h' C a above where
  other := below.other
  inside := Nat.lt_of_lt_of_le below.inside kept.longer
  derived := (kept.derived a below.inside).trans below.derived
  linked := kept.linked above below.linked

theorem kept_append (C : Nat) (h : Heap) (t : Table) : Kept C h (h ++ [t]) where
  longer := by simp
  linked := fun _ linked => linked.congr (linked.kept [t])
  derived := fun _ inside => metatable_congr (List.getElem?_append_left inside)

theorem kept_setfield {a : Nat} {k : Name} {v : Val} (other : a ≠ C)
    (went : setfield h a k v = some h') : Kept C h h' where
  longer := Nat.le_of_eq (length_setfield went).symm
  linked := fun _ linked => linked.setfield other went
  derived := fun _ _ => metatable_setfield went

theorem kept_assign {a : Nat} {fields : List (Name × Val)} (other : a ≠ C)
    (went : assign h a fields = some h') : Kept C h h' :=
  Runs.run_pres (Kept C h) (fun _ _ _ kept stepped => kept.trans (kept_setfield other stepped))
    (Kept.refl C h) went

theorem kept_construct {scripts : Nat → List (Name × Val)} {o : Nat} {c : List Val}
    (other : o ≠ C) (went : c.foldlM (construct (runScript scripts) (.table o) []) h = some h') :
    Kept C h h' := by
  refine Runs.run_pres (Kept C h) (fun m v m' kept stepped => ?_) (Kept.refl C h) went
  unfold construct at stepped
  split at stepped
  next f =>
    unfold runScript at stepped
    split at stepped
    next id o' rest same =>
      cases same
      exact kept.trans (kept_assign other stepped)
    next => cases stepped
  next => cases stepped

/-- Where a class is called, there is a new table below it. -/
theorem call_below {scripts : Nat → List (Name × Val)} {fuel cls : Nat} {rest : List Nat} {v : Val}
    (linked : Linked h C (cls::rest))
    (went : call (runScript scripts) fuel h (.table cls) [] = some (v,h')) :
    Kept C h h' ∧ Below h' C h.length (cls::rest) := by
  simp only [call] at went
  split at went
  next =>
    have fresh : setmetatable (h ++ [Table.fresh fun _ => .nil]) h.length (.table cls) =
        some (h ++ [⟨fun _ => .nil,some cls⟩]) := setmetatable_last rfl
    simp only [_call,fresh,Option.bind_eq_bind,Option.bind_some] at went
    obtain ⟨c,_,went⟩ := Option.bind_eq_some_iff.mp went
    obtain ⟨m,ran,went⟩ := Option.bind_eq_some_iff.mp went
    cases went
    have last : h.length ≠ C := Nat.ne_of_gt (linked.inside C List.mem_cons_self)
    have first := kept_append C h ⟨fun _ => .nil,some cls⟩
    have kept := kept_construct last ran
    refine ⟨first.trans kept,kept.below ⟨last,by simp,?_,first.linked _ linked⟩⟩
    rw [last_metatable]
    rfl
  next => cases went

end

namespace Objects

structure Inv (C : Nat) (s : Objects) : Prop where
  installed : Installed s.h C
  below : ∀ e ∈ s.known, Below s.h C e.addr e.above
  classes : ∀ e ∈ s.known, e.isClass → Linked s.h C (e.addr::e.above)

variable {C : Nat} {s : Objects}

theorem Inv.kept (inv : s.Inv C) {h : Heap} (kept : Kept C s.h h) : Inv C {s with h := h} where
  installed := kept.linked [] inv.installed
  below := fun e member => kept.below (inv.below e member)
  classes := fun e member isClass => kept.linked _ (inv.classes e member isClass)

theorem Inv.more (inv : s.Inv C) {h : Heap} (kept : Kept C s.h h) {e : Known}
    (below : Below h C e.addr e.above) (class_ : e.isClass → Linked h C (e.addr::e.above)) :
    Inv C ⟨h,s.known ++ [e]⟩ where
  installed := kept.linked [] inv.installed
  below := by
    intro f member
    rcases List.mem_append.mp member with old | new
    · exact kept.below (inv.below f old)
    · rw [List.mem_singleton.mp new]
      exact below
  classes := by
    intro f member isClass
    rcases List.mem_append.mp member with old | new
    · exact kept.linked _ (inv.classes f old isClass)
    · rw [List.mem_singleton.mp new] at isClass ⊢
      exact class_ isClass

/-- The classes above a new table. -/
theorem Inv.chain (inv : s.Inv C) {i : Nat} {above : List Nat} (found : s.chain i = some above) :
    above ≠ [] ∧ Linked s.h C above := by
  obtain ⟨e,at_,found⟩ := Option.bind_eq_some_iff.mp found
  split at found
  next isClass =>
    cases found
    exact ⟨List.cons_ne_nil _ _,inv.classes e (List.mem_of_getElem? at_) isClass⟩
  next => cases found

theorem step_inv {fuel : Nat} {scripts : Nat → List (Name × Val)} (s : Objects) (op : ObjectsOp)
    (s' : Objects) (inv : s.Inv C) (stepped : s.step C (fuel+1) scripts op = some s') :
    s'.Inv C := by
  cases op with
  | extend parent fields =>
    simp only [step] at stepped
    obtain ⟨above,found,stepped⟩ := Option.bind_eq_some_iff.mp stepped
    obtain ⟨⟨v,h⟩,made,stepped⟩ := Option.bind_eq_some_iff.mp stepped
    cases stepped
    have linked : Linked s.h C above := by
      cases parent with
      | none =>
        cases found
        exact inv.installed
      | some i => exact (inv.chain found).2
    rw [extend_new linked] at made
    cases made
    have longer := extend_linked linked (body_event fields (by decide))
    have kept := kept_append C s.h (derived s.h (above.headD C) (body fields))
    refine inv.more kept ⟨?_,by simp,last_metatable _,longer.2⟩ fun _ => longer
    exact Nat.ne_of_gt (linked.inside C List.mem_cons_self)
  | new i =>
    simp only [step] at stepped
    obtain ⟨above,found,stepped⟩ := Option.bind_eq_some_iff.mp stepped
    obtain ⟨⟨v,h⟩,made,stepped⟩ := Option.bind_eq_some_iff.mp stepped
    cases stepped
    obtain ⟨some_,linked⟩ := inv.chain found
    obtain ⟨cls,rest,rfl⟩ := List.exists_cons_of_ne_nil some_
    obtain ⟨kept,below⟩ := call_below linked made
    exact inv.more kept below nofun
  | set i k v =>
    simp only [step] at stepped
    obtain ⟨e,at_,stepped⟩ := Option.bind_eq_some_iff.mp stepped
    obtain ⟨h,went,stepped⟩ := Option.bind_eq_some_iff.mp stepped
    cases stepped
    exact inv.kept (kept_setfield (inv.below e (List.mem_of_getElem? at_)).other went)

/-- Whatever scripts define, make and assign. -/
theorem fields_resolve (fuel : Nat) (scripts : Nat → List (Name × Val)) (ops : List ObjectsOp) :
    Runs.Always (step 0 (fuel+1) scripts) (fun s => ∀ e ∈ s.known, ∀ (k : String) (n : Nat),
      e.above.length + 1 < n →
        index s.h n (.table e.addr) k = some (nearest s.h (e.addr::e.above) k)) ⟨world,[]⟩ ops := by
  refine Runs.always_of_pres (Inv 0) ?_ step_inv ?_
  · intro s inv e member k n enough
    exact (inv.below e member).index enough
  · exact ⟨world_installed,fun _ member => absurd member List.not_mem_nil,
      fun _ member => absurd member List.not_mem_nil⟩

end Objects

end Class

end Pworld.Script
