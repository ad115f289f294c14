import Pworld.Lua.Faithful
import Pworld.Lua.Heap

/-! What `Serialize` does to Lua: nothing. Over any heap it comes to an end with the stack
as it was, it calls `lua_next` with keys that are there, and it writes what the function
on trees writes for the table as far as it is followed. -/
namespace Pworld.Lua.Heap

open Stack

variable (heap : Nat → Table)

def shapeOf (t : Table) : Shape := ⟨t.len ≠ .nil,t.pairs ≠ .nil,t.border⟩

/-- A slot as a tree, followed through `n` tables. -/
def unfold : Nat → Slot → Value
  | n+1, .table a =>
    .table (shapeOf (heap a)) ((heap a).entries.map fun e => (unfold n e.1,unfold n e.2))
  | _, v => scalar v

section Entries

variable {es : List (Slot × Slot)} {k v : Slot}

/-- After an entry comes the one behind it. -/
theorem next_found {front back : List (Slot × Slot)}
    (distinct : ((front ++ (k,v)::back).map Prod.fst).Nodup) (key : k ≠ .nil) :
    next (front ++ (k,v)::back) k = some back.head? := by
  rw [next,if_neg key]
  induction front with
  | nil => exact if_pos rfl
  | cons e front ih =>
    rw [List.cons_append,List.map_cons,List.nodup_cons] at distinct
    have other : e.1 ≠ k := by
      intro same
      apply distinct.1
      rw [same]
      exact List.mem_map_of_mem (List.mem_append_right front List.mem_cons_self)
    rw [List.cons_append,nextAfter,if_neg other]
    exact ih distinct.2

theorem rawget_cases (es : List (Slot × Slot)) (k : Slot) :
    rawget es k = .nil ∨ ∃ e ∈ es, rawget es k = e.2 := by
  unfold rawget
  cases found : es.find? fun e => e.1 = k with
  | none => exact .inl rfl
  | some e => exact .inr ⟨e,List.mem_of_find?_eq_some found,rfl⟩

variable (n : Nat)

theorem keyEq_unfold (k : Slot) (i : BitVec 64) :
    keyEq (unfold heap n k) (.int i) = decide (k = .int i) := by
  apply Bool.eq_iff_iff.mpr
  cases n with
  | zero => cases k <;> simp [unfold,scalar,keyEq]
  | succ n => cases k <;> simp [unfold,scalar,keyEq]

def branch (e : Slot × Slot) : Value × Value := (unfold heap n e.1,unfold heap n e.2)

theorem rawget_unfold (es : List (Slot × Slot)) (i : BitVec 64) :
    Lua.rawget (es.map (branch heap n)) (.int i) = unfold heap n (rawget es (.int i)) := by
  induction es with
  | nil =>
    cases n with
    | zero => rfl
    | succ n => rfl
  | cons e es ih =>
    have same := keyEq_unfold heap n e.1 i
    by_cases here : e.1 = .int i
    · have found : rawget (e::es) (.int i) = e.2 := by simp [rawget,here]
      rw [here,decide_eq_true rfl] at same
      rw [found]
      simp [Lua.rawget,branch,here,same]
    · have later : rawget (e::es) (.int i) = rawget es (.int i) := by simp [rawget,here]
      rw [decide_eq_false here] at same
      rw [later,← ih]
      simp [Lua.rawget,branch,same]

theorem nextAfter_unfold {es : List (Slot × Slot)} {i : BitVec 64}
    (there : .int i ∈ es.map Prod.fst) : ∃ o, nextAfter es (.int i) = some o ∧
      Lua.nextAfter (es.map (branch heap n)) (.int i) = o.map (branch heap n) := by
  induction es with
  | nil => exact absurd there List.not_mem_nil
  | cons e es ih =>
    have same := keyEq_unfold heap n e.1 i
    by_cases here : e.1 = .int i
    · refine ⟨es.head?,if_pos here,?_⟩
      rw [List.map_cons,Lua.nextAfter,branch,same,decide_eq_true here,if_pos rfl,List.head?_map]
    · have later : .int i ∈ es.map Prod.fst := by
        rw [List.map_cons] at there
        exact (List.mem_cons.mp there).resolve_left fun first => here first.symm
      obtain ⟨o,found,tree⟩ := ih later
      refine ⟨o,(if_neg here).trans found,?_⟩
      rw [List.map_cons,Lua.nextAfter,branch,same,decide_eq_false here]
      exact tree

end Entries

/-- The key of a call of `lua_next` is nil or in the table. -/
def Sound (e : Nat × Slot) : Prop := e.2 = .nil ∨ (heap e.1).Present e.2

/-- From `h` to `h'` these were written, and `lua_next` was called with sound keys. -/
structure Wrote (puts : List Put) (h h' : Trace) : Prop where
  bb : h'.bb = puts.foldl Put.run h.bb
  nexts : ∃ ns, h'.nexts = h.nexts ++ ns ∧ ∀ e ∈ ns, Sound heap e

theorem Wrote.refl (h : Trace) : Wrote heap [] h h :=
  ⟨rfl,[],(List.append_nil _).symm,fun _ member => absurd member List.not_mem_nil⟩

variable {heap}

theorem Wrote.trans {puts puts' : List Put} {h h' h'' : Trace} (first : Wrote heap puts h h')
    (second : Wrote heap puts' h' h'') : Wrote heap (puts ++ puts') h h'' := by
  obtain ⟨bb,ns,nexts,sound⟩ := first
  obtain ⟨bb',ns',nexts',sound'⟩ := second
  refine ⟨by rw [bb',bb,List.foldl_append],ns ++ ns',?_,?_⟩
  · rw [nexts',nexts,List.append_assoc]
  · intro e member
    rcases List.mem_append.mp member with here | there
    · exact sound e here
    · exact sound' e there

variable (heap)

/-- From the stack `s` the code goes to `s'`, gives `b` and writes `puts`. -/
def Goes {β : Type} (m : Code β) (s : List Slot) (b : β) (puts : List Put) (s' : List Slot) : Prop :=
  ∀ h, ∃ h', m (h,s) = some (b,(h',s')) ∧ Wrote heap puts h h'

/-- The stack is left as it is. -/
abbrev Leaves {β : Type} (m : Code β) (b : β) (puts : List Put) (s : List Slot) : Prop :=
  Goes heap m s b puts s

namespace Goes

variable {heap} {β γ : Type} {m : Code β} {f : β → Code γ} {b : β} {c : γ}
  {puts puts' : List Put} {s s' s'' : List Slot} {v : Slot}

theorem silent (ran : ∀ h, m (h,s) = some (b,(h,s'))) : Goes heap m s b [] s' :=
  fun h => ⟨h,ran h,.refl heap h⟩

theorem pure (b : β) (s : List Slot) : Leaves heap (Pure.pure b) b [] s := silent fun _ => rfl

theorem push (v : Slot) (s : List Slot) : Goes heap (Prog.push v) s () [] (v::s) :=
  silent fun _ => rfl

theorem pop (v : Slot) (s : List Slot) : Goes heap (Prog.pop 1) (v::s) () [] s :=
  silent fun h => Prog.pop_one h s v

theorem put (p : Put) (s : List Slot) : Leaves heap (Heap.put p) () [p] s :=
  fun _ => ⟨_,rfl,rfl,[],(List.append_nil _).symm,fun _ member => absurd member List.not_mem_nil⟩

theorem bind (first : Goes heap m s b puts s') (second : Goes heap (f b) s' c puts' s'') :
    Goes heap (m >>= f) s c (puts ++ puts') s'' := by
  intro h
  obtain ⟨h₁,ran₁,wrote₁⟩ := first h
  obtain ⟨h₂,ran₂,wrote₂⟩ := second h₁
  refine ⟨h₂,?_,wrote₁.trans wrote₂⟩
  rw [Prog.bind_run,ran₁]
  exact ran₂

/-- A beginning that writes nothing. -/
theorem after (first : Goes heap m s b [] s') (second : Goes heap (f b) s' c puts s'') :
    Goes heap (m >>= f) s c puts s'' := bind first second

/-- An end that writes nothing. -/
theorem before (first : Goes heap m s b puts s') (second : Goes heap (f b) s' c [] s'') :
    Goes heap (m >>= f) s c puts s'' := by
  have both := bind first second
  rwa [List.append_nil] at both

theorem peek {i : Nat} (at_ : s[i]? = some v) : Leaves heap (Prog.peek (i+1)) v [] s := by
  apply silent
  intro h
  simp only [Prog.peek,Nat.add_sub_cancel,at_,Option.map_some]

theorem tableAt {i a : Nat} (at_ : s[i]? = some (.table a)) :
    Leaves heap (Heap.tableAt (i+1)) a [] s := after (peek at_) (pure a s)

theorem forM {ι : Type} {xs : List ι} {f : ι → Code Unit} {g : ι → List Put}
    (each : ∀ x ∈ xs, Leaves heap (f x) () (g x) s) :
    Leaves heap (xs.forM f) () (xs.flatMap g) s := by
  induction xs with
  | nil => exact pure () s
  | cons x xs ih =>
    have rest := ih fun y member => each y (List.mem_cons_of_mem x member)
    rw [List.flatMap_cons]
    exact bind (each x List.mem_cons_self) rest

end Goes

section Types

variable {heap} {s : List Slot} {i a : Nat} (at_ : s[i]? = some (.table a))
include at_

theorem getmetafield_nil {event : Table → Slot} (none_ : event (heap a) = .nil) :
    Leaves heap (luaL_getmetafield heap (i+1) event) true [] s := by
  apply Goes.after (Goes.tableAt at_)
  simp only [none_,if_true]
  exact Goes.pure true s

theorem getmetafield_some {event : Table → Slot} (some_ : event (heap a) ≠ .nil) :
    Goes heap (luaL_getmetafield heap (i+1) event) s false [] (event (heap a)::s) := by
  apply Goes.after (Goes.tableAt at_)
  simp only [if_neg some_]
  exact Goes.after (Goes.push _ s) (Goes.pure false _)

theorem rawlen_leaves : Leaves heap (lua_rawlen heap (i+1)) (heap a).border [] s :=
  Goes.after (Goes.tableAt at_) (Goes.pure _ s)

theorem rawgeti_goes (n : Nat) : Goes heap (lua_rawgeti heap (i+1) n) s () []
    (rawget (heap a).entries (.int (BitVec.ofNat 64 n))::s) :=
  Goes.after (Goes.tableAt at_) (Goes.push _ s)

end Types

theorem called_wrote {a : Nat} {k : Slot} (sound : Sound heap (a,k)) (h : Trace) :
    Wrote heap [] h {h with nexts := h.nexts ++ [(a,k)]} := by
  refine ⟨rfl,[(a,k)],rfl,?_⟩
  intro e member
  rw [List.mem_singleton.mp member]
  exact sound

section Next

variable {heap} {s : List Slot} {i a : Nat} {k : Slot} (at_ : (k::s)[i]? = some (.table a))
  (sound : Sound heap (a,k))
include at_ sound

theorem next_end (last : next (heap a).entries k = some none) :
    Goes heap (lua_next heap (i+1)) (k::s) false [] s := by
  apply Goes.after (Goes.tableAt at_)
  apply Goes.after (Goes.peek (i := 0) rfl)
  intro h
  refine ⟨_,?_,called_wrote heap sound h⟩
  simp only [Prog.bind_run,Prog.modify_run,Option.bind_some,last,Prog.pop_one,Prog.pure_run]

theorem next_entry {e : Slot × Slot} (more : next (heap a).entries k = some (some e)) :
    Goes heap (lua_next heap (i+1)) (k::s) true [] (e.2::e.1::s) := by
  apply Goes.after (Goes.tableAt at_)
  apply Goes.after (Goes.peek (i := 0) rfl)
  intro h
  refine ⟨_,?_,called_wrote heap sound h⟩
  simp only [Prog.bind_run,Prog.modify_run,Option.bind_some,more,Prog.pop_one,Prog.push_run,
    Prog.pure_run]

end Next

/-- The key that a table is probed with: its border, or nil. -/
def probeKey (t : Table) : Slot :=
  if t.border ≠ 0 then .int (BitVec.ofNat 64 t.border) else .nil

theorem probe_sound (a : Nat) : Sound heap (a,probeKey (heap a)) := by
  unfold probeKey
  split
  next positive =>
    right
    obtain ⟨e,member,key⟩ := List.mem_map.mp ((heap a).isBorder positive)
    exact ⟨e.2,(heap a).filled e member,by rwa [← key]⟩
  next => exact .inl rfl


/-- The probe finds on the heap what it finds on the tree. -/
theorem probe_next (n a : Nat) : ∃ o, next (heap a).entries (probeKey (heap a)) = some o ∧
    Lua.next (unfold heap (n+1) (.table a)).entries
      (if (heap a).border ≠ 0 then .int (BitVec.ofNat 64 (heap a).border) else .nil) =
        o.map (branch heap n) := by
  unfold probeKey
  split
  next positive => exact nextAfter_unfold heap n ((heap a).isBorder positive)
  next => exact ⟨(heap a).entries.head?,rfl,List.head?_map⟩

theorem getLuaTypeTable_leaves (n : Nat) {a i : Nat} {s : List Slot}
    (at_ : s[i]? = some (.table a)) : Leaves heap (getLuaTypeTable heap (i+1))
      (Lua.getLuaTypeTable (unfold heap (n+1) (.table a))) [] s := by
  have shape : (unfold heap (n+1) (.table a)).shape = shapeOf (heap a) := rfl
  unfold getLuaTypeTable Lua.getLuaTypeTable
  rw [shape]
  by_cases len : (heap a).len = .nil
  · apply Goes.after (getmetafield_nil at_ len)
    rw [if_pos rfl]
    by_cases pairs : (heap a).pairs = .nil
    · apply Goes.after (getmetafield_nil at_ pairs)
      rw [if_pos rfl]
      apply Goes.after (rawlen_leaves at_)
      obtain ⟨o,found,tree⟩ := probe_next heap n a
      have start : Goes heap (if (heap a).border ≠ 0 then
          Prog.push (.int (BitVec.ofNat 64 (heap a).border)) else Prog.push .nil : Code Unit) s () []
          (probeKey (heap a)::s) := by
        unfold probeKey
        split
        · exact Goes.push _ s
        · exact Goes.push _ s
      apply Goes.after start
      have under : (probeKey (heap a)::s)[i+1]? = some (.table a) := at_
      simp only [shapeOf,len,pairs,tree,ne_eq,not_true,decide_false,Bool.false_eq_true,if_false]
      cases o with
      | none => exact Goes.after (next_end under (probe_sound heap a) found) (Goes.pure _ s)
      | some e =>
        apply Goes.after (next_entry under (probe_sound heap a) found)
        exact Goes.after (Goes.silent fun h => Prog.pop_two h s _ _) (Goes.pure _ s)
    · apply Goes.after (getmetafield_some at_ pairs)
      simp only [shapeOf,len,pairs,ne_eq,not_true,not_false_iff,decide_false,decide_true,
        Bool.false_eq_true,if_false,if_true]
      exact Goes.after (Goes.pop _ s) (Goes.pure _ s)
  · apply Goes.after (getmetafield_some at_ len)
    simp only [shapeOf,len,ne_eq,not_false_iff,decide_true,if_true]
    exact Goes.after (Goes.pop _ s) (Goes.pure _ s)

variable (wild : Double → BitVec 64) (numeral : Slot → Bytes)

theorem unfold_scalar (n : Nat) {v : Slot} (noTable : ∀ a, v ≠ .table a) :
    unfold heap n v = scalar v := by
  cases n with
  | zero => rfl
  | succ n =>
    cases v with
    | table a => exact absurd rfl (noTable a)
    | _ => rfl

theorem getLuaType_leaves (n : Nat) {v : Slot} {i : Nat} {s : List Slot} (at_ : s[i]? = some v) :
    Leaves heap (getLuaType heap wild (i+1)) (Lua.getLuaType wild (unfold heap (n+1) v)) [] s := by
  apply Goes.after (Goes.peek at_)
  cases v with
  | table a => exact getLuaTypeTable_leaves heap n at_
  | _ => exact Goes.pure _ s

theorem number_no_string (v : Double) : getLuaTypeNumber wild v ≠ .str := by
  unfold getLuaTypeNumber
  simp only
  split_ifs <;> decide

theorem no_table {n : Nat} {v : Slot}
    (leaf : ¬(Lua.getLuaType wild (unfold heap (n+1) v)).isTable) (a : Nat) : v ≠ .table a := by
  intro same
  apply leaf
  rw [same]
  exact typeTable_isTable _

theorem table_type {n : Nat} {v : Slot}
    (table : (Lua.getLuaType wild (unfold heap (n+1) v)).isTable) : ∃ a, v = .table a := by
  cases v with
  | table a => exact ⟨a,rfl⟩
  | int n => exact absurd table (number_type wild _).2.1
  | flt bits => exact absurd table (number_type wild _).2.1
  | nil => exact absurd table (by rintro (no | no) <;> cases no)
  | bool b => exact absurd table (by rintro (no | no) <;> cases no)
  | str s => exact absurd table (by rintro (no | no) <;> cases no)
  | other id => exact absurd table (by rintro (no | no) <;> cases no)

theorem string_type {v : Slot} (type : Lua.getLuaType wild (scalar v) = .str) :
    ∃ str, v = .str str := by
  cases v with
  | str str => exact ⟨str,rfl⟩
  | int n => exact absurd type (number_no_string wild _)
  | flt bits => exact absurd type (number_no_string wild _)
  | table a => cases type
  | nil => cases type
  | bool b => cases type
  | other id => cases type

section Entity

variable {sub : Nat → LuaValueType → Nat → Code Unit} {tree : LuaValueType → Value → List Put}
  {v : Slot} {s : List Slot} {i depth n : Nat} (at_ : s[i]? = some v)
include at_

theorem putInteger_leaves (w : Nat) :
    Leaves heap (putInteger w (i+1)) () [.int w (scalar v).toInteger.toNat] s := by
  have read : Leaves heap (lua_tointeger (i+1)) (scalar v).toInteger [] s :=
    Goes.after (Goes.peek at_) (Goes.pure _ s)
  exact Goes.after read (Goes.put _ s)

/-- No slot is changed: `lua_tostring` is only asked for a string. -/
theorem scalar_leaves {ty : LuaValueType} (type : ty = Lua.getLuaType wild (unfold heap (n+1) v))
    (val : ty.isVal) (leaf : ¬ty.isTable) :
    Leaves heap (serializeEntity numeral sub ty (i+1) depth) ()
      (Lua.serializeEntity tree ty (unfold heap (n+1) v)) s := by
  have same := unfold_scalar heap (n+1) (no_table heap wild (n := n) (by rwa [← type]))
  rw [same] at type ⊢
  cases ty with
  | i8 => exact putInteger_leaves heap at_ 1
  | i16 => exact putInteger_leaves heap at_ 2
  | i32 => exact putInteger_leaves heap at_ 4
  | i64 => exact putInteger_leaves heap at_ 8
  | u8 => exact putInteger_leaves heap at_ 1
  | u16 => exact putInteger_leaves heap at_ 2
  | u32 => exact putInteger_leaves heap at_ 4
  | u64 => exact putInteger_leaves heap at_ 8
  | str =>
    obtain ⟨str,rfl⟩ := string_type wild type.symm
    have read : Leaves heap (lua_tostring numeral (i+1)) str [] s :=
      Goes.after (Goes.peek at_) (Goes.pure _ s)
    exact Goes.after read (Goes.put _ s)
  | flt =>
    have read : Leaves heap (doubleBits (i+1)) (scalar v).doubleBits [] s :=
      Goes.after (Goes.peek at_) (Goes.pure _ s)
    exact Goes.after read (Goes.put _ s)
  | bool =>
    have read : Leaves heap (lua_toboolean (i+1)) (scalar v).toBoolean [] s :=
      Goes.after (Goes.peek at_) (Goes.pure _ s)
    exact Goes.after read (Goes.put _ s)
  | Arr => exact absurd (.inl rfl) leaf
  | Hash => exact absurd (.inr rfl) leaf
  | nil => exact absurd val (by decide)
  | Unknown => exact absurd val (by decide)

end Entity

/-- The calls for the table in a slot do, on top of any stack, what they do on the tree. -/
def Nested (n room depth : Nat) (v : Slot) : Prop :=
  ∀ a, v = .table a → ∀ i ty s, LuaValueType.isTable ty →
    Leaves heap (serializeTable heap wild numeral n i ty depth) ()
      (Lua.serializeTable wild room ty (unfold heap (room+1) v)) (v::s)

section Entries

variable {n room depth : Nat} {k v : Slot} {s : List Slot}
  (nested : Nested heap wild numeral n room (depth+1) v)
include nested

theorem entity_leaves {ty : LuaValueType}
    (type : ty = Lua.getLuaType wild (unfold heap (room+1) v)) (val : ty.isVal) :
    Leaves heap (serializeEntity numeral (serializeTable heap wild numeral n) ty 1 depth) ()
      (Lua.serializeEntity (Lua.serializeTable wild room) ty (unfold heap (room+1) v)) (v::s) := by
  by_cases table : ty.isTable
  · rw [serializeEntity_table table]
    obtain ⟨a,same⟩ := table_type heap wild (by rwa [← type])
    have inner := nested a same 1 ty s table
    rcases table with rfl | rfl
    · exact inner
    · exact inner
  · exact scalar_leaves heap wild numeral (i := 0) rfl type val table

theorem serializeVal_leaves {ty : LuaValueType}
    (type : ty = Lua.getLuaType wild (unfold heap (room+1) v)) :
    Leaves heap (serializeVal numeral (serializeTable heap wild numeral n) ty 1 depth) ()
      (Lua.serializeVal (Lua.serializeTable wild room) ty (unfold heap (room+1) v)) (v::s) := by
  unfold serializeVal Lua.serializeVal
  split
  next => exact Goes.pure _ _
  next val =>
    exact Goes.bind (Goes.put _ _) (entity_leaves heap wild numeral nested type val)

/-- The key is under the value, and its type is none of a table. -/
theorem serializeKeyVal_leaves {tyKey tyVal : LuaValueType}
    (typeKey : tyKey = Lua.getLuaType wild (unfold heap (room+1) k))
    (typeVal : tyVal = Lua.getLuaType wild (unfold heap (room+1) v)) :
    Leaves heap (serializeKeyVal numeral (serializeTable heap wild numeral n) tyKey 2 tyVal 1 depth) ()
      (Lua.serializeKeyVal (Lua.serializeTable wild room) tyKey (unfold heap (room+1) k) tyVal
        (unfold heap (room+1) v)) (v::k::s) := by
  unfold serializeKeyVal Lua.serializeKeyVal
  split
  next => exact Goes.pure _ _
  next key =>
    split
    next => exact Goes.pure _ _
    next val =>
      obtain ⟨keyVal,leaf⟩ := isVal_of_isKey (show tyKey.isKey from key)
      apply Goes.bind (Goes.put _ _)
      apply Goes.bind
      · exact scalar_leaves heap wild numeral (i := 1) rfl typeKey keyVal leaf
      · exact entity_leaves heap wild numeral nested typeVal val

end Entries

section Rounds

variable {n room depth a : Nat} {s : List Slot}

theorem arrRound_leaves (i : Nat)
    (nested : Nested heap wild numeral n room (depth+1)
      (rawget (heap a).entries (.int (BitVec.ofNat 64 i)))) :
    Leaves heap (arrRound heap wild numeral (serializeTable heap wild numeral n) depth i) ()
      (let val := Lua.rawget (unfold heap (room+2) (.table a)).entries (.int (BitVec.ofNat 64 i))
       Lua.serializeVal (Lua.serializeTable wild room) (Lua.getLuaType wild val) val)
      (.table a::s) := by
  have val : Lua.rawget (unfold heap (room+2) (.table a)).entries (.int (BitVec.ofNat 64 i)) =
      unfold heap (room+1) (rawget (heap a).entries (.int (BitVec.ofNat 64 i))) :=
    rawget_unfold heap (room+1) _ _
  rw [val]
  apply Goes.after (rawgeti_goes (i := 0) rfl i)
  apply Goes.after (getLuaType_leaves heap wild room (i := 0) rfl)
  exact Goes.before (serializeVal_leaves heap wild numeral nested rfl) (Goes.pop _ _)

theorem hashRound_leaves {k v : Slot} (nested : Nested heap wild numeral n room (depth+1) v) :
    Goes heap (hashRound heap wild numeral (serializeTable heap wild numeral n) depth) (v::k::s) ()
      (Lua.serializeKeyVal (Lua.serializeTable wild room)
        (Lua.getLuaType wild (unfold heap (room+1) k)) (unfold heap (room+1) k)
        (Lua.getLuaType wild (unfold heap (room+1) v)) (unfold heap (room+1) v)) (k::s) := by
  apply Goes.after (getLuaType_leaves heap wild room (i := 1) rfl)
  apply Goes.after (getLuaType_leaves heap wild room (i := 0) rfl)
  exact Goes.before (serializeKeyVal_leaves heap wild numeral nested rfl rfl) (Goes.pop _ _)

/-- The rest of a traversal, from a key on: the entries behind it are written, one a round. -/
theorem hashLoop_leaves
    (nested : ∀ e ∈ (heap a).entries, Nested heap wild numeral n room (depth+1) e.2) (s : List Slot)
    (back : List (Slot × Slot)) {front : List (Slot × Slot)} {key : Slot} {rounds : Nat}
    (split : (heap a).entries = front ++ back)
    (here : next (heap a).entries key = some back.head?) (sound : Sound heap (a,key))
    (enough : back.length < rounds) :
    Goes heap (Prog.whileDo (lua_next heap 2)
        (hashRound heap wild numeral (serializeTable heap wild numeral n) depth) rounds)
      (key::.table a::s) ()
      ((back.map (branch heap (room+1))).flatMap fun e =>
        Lua.serializeKeyVal (Lua.serializeTable wild room) (Lua.getLuaType wild e.1) e.1
          (Lua.getLuaType wild e.2) e.2) (.table a::s) := by
  obtain ⟨rounds,rfl⟩ : ∃ k, rounds = k+1 := ⟨rounds-1,by omega⟩
  induction back generalizing front key rounds with
  | nil =>
    apply Goes.after (next_end (i := 1) rfl sound here)
    exact Goes.pure () _
  | cons e back ih =>
    have member : e ∈ (heap a).entries := by
      rw [split]
      exact List.mem_append_right front List.mem_cons_self
    have distinct := (heap a).distinct
    rw [split] at distinct
    have after : next (heap a).entries e.1 = some back.head? := by
      rw [split]
      exact next_found distinct ((heap a).keyed e member)
    have present : Sound heap (a,e.1) := .inr ⟨e.2,(heap a).filled e member,member⟩
    have behind : (heap a).entries = (front ++ [e]) ++ back := by
      rw [split,List.append_assoc]
      rfl
    rw [List.length_cons] at enough
    obtain ⟨rounds,rfl⟩ : ∃ k, rounds = k+1 := ⟨rounds-1,by omega⟩
    rw [List.map_cons,List.flatMap_cons]
    apply Goes.after (next_entry (i := 1) rfl sound here)
    apply Goes.bind (hashRound_leaves heap wild numeral (nested e member))
    exact ih behind after present rounds (by omega)

theorem serializeTable_more
    (nested : ∀ e ∈ (heap a).entries, Nested heap wild numeral n room (depth+1) e.2)
    (enough : (heap a).entries.length < n+1) (shallow : depth < maxDepth) :
    Nested heap wild numeral (n+1) (room+1) depth (.table a) := by
  intro b same i ty s table
  obtain rfl : a = b := Slot.table.inj same
  unfold serializeTable
  rw [if_pos shallow]
  rcases table with rfl | rfl
  · apply Goes.after (rawlen_leaves (i := 0) rfl)
    apply Goes.bind
    · apply Goes.forM
      intro i _
      apply arrRound_leaves heap wild numeral (i+1)
      rcases rawget_cases (heap a).entries (.int (BitVec.ofNat 64 (i+1))) with none_ | ⟨e,member,found⟩
      · rw [none_]
        intro b same
        cases same
      · rw [found]
        exact nested e member
    · exact Goes.put _ _
  · apply Goes.after (Goes.push _ _)
    apply Goes.bind
    · have whole : (heap a).entries = [] ++ (heap a).entries := rfl
      exact hashLoop_leaves heap wild numeral nested s _ whole (if_pos rfl) (.inl rfl) enough
    · exact Goes.put _ _

end Rounds

/-- Every table of the heap, whatever it holds, is left behind after finitely many calls
and rounds: the depth runs out. -/
theorem serializeTable_nested (room : Nat) {depth : Nat} (left : depth + room = maxDepth) (v : Slot) :
    ∃ n, ∀ m, n ≤ m → Nested heap wild numeral m room depth v := by
  induction room generalizing depth v with
  | zero =>
    refine ⟨1,fun m le a same i ty s table => ?_⟩
    obtain ⟨m,rfl⟩ : ∃ k, m = k+1 := ⟨m-1,by omega⟩
    unfold serializeTable
    rw [if_neg (by omega : ¬depth < maxDepth)]
    exact Goes.put _ _
  | succ room ih =>
    cases v with
    | table a =>
      have deeper : depth + 1 + room = maxDepth := by omega
      obtain ⟨n,nested⟩ := Loop.enough_for_all fun (e : Slot × Slot)
        (_ : e ∈ (heap a).entries) => ih deeper e.2
      refine ⟨max n (heap a).entries.length + 1,fun m le => ?_⟩
      obtain ⟨m,rfl⟩ : ∃ k, m = k+1 := ⟨m-1,by omega⟩
      exact serializeTable_more heap wild numeral (nested m (by omega)) (by omega) (by omega)
    | _ => exact ⟨0,fun m _ a same => nomatch same⟩

/-- On the heap is written what the function on trees writes for the table, followed as
far as `MAX_DEPTH` goes. -/
theorem serialize_encodes (a : Nat) : ∃ n, ∀ m, n ≤ m → ∀ stack,
    Leaves heap (Serialize heap wild numeral m) true
      (encode wild (unfold heap maxDepth (.table a))) (.table a::stack) := by
  obtain ⟨n,nested⟩ := serializeTable_nested heap wild numeral 15
    (show 1 + 15 = maxDepth from rfl) (.table a)
  refine ⟨n,fun m le stack => ?_⟩
  apply Goes.after (Goes.peek (i := 0) rfl)
  apply Goes.after (getLuaTypeTable_leaves heap 15 (i := 0) rfl)
  apply Goes.bind (Goes.put _ _)
  exact Goes.before (nested m le a rfl 1 _ stack (typeTable_isTable _)) (Goes.pure true _)

/-- `Serialize` comes to an end on every table of every heap, cyclic or not, with the
stack as it was, and each key it gave to `lua_next` was nil or in that table. -/
theorem serialize_leaves (a : Nat) : ∃ n, ∀ m, n ≤ m → ∀ bb stack, ∃ t,
    Serialize heap wild numeral m (⟨bb,[]⟩,.table a::stack) = some (true,(t,.table a::stack)) ∧
    ∀ e ∈ t.nexts, e.2 = .nil ∨ (heap e.1).Present e.2 := by
  obtain ⟨n,whole⟩ := serialize_encodes heap wild numeral a
  refine ⟨n,fun m le bb stack => ?_⟩
  obtain ⟨t,ran,_,ns,nexts,sound⟩ := whole m le stack ⟨bb,[]⟩
  refine ⟨t,ran,?_⟩
  rw [nexts]
  exact sound

end Pworld.Lua.Heap
