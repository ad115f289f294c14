import Pworld.Lua.Value

/-! Tables whose keys are integers and strings, and when two values hold the same at
every path of keys. -/
namespace Pworld.Lua

def Value.isNil : Value → Bool
  | .nil => true
  | _ => false

def Value.isKey : Value → Bool
  | .int _ | .str _ => true
  | _ => false

theorem Value.isNil_iff {v : Value} : v.isNil = true ↔ v = .nil := by
  cases v <;> simp [isNil]

theorem keyEq_eq {a b : Value} (same : keyEq a b = true) : a = b := by
  cases a <;> cases b <;> simp_all [keyEq]

theorem keyEq_self {k : Value} (key : k.isKey = true) : keyEq k k = true := by
  cases k <;> simp_all [keyEq,Value.isKey]

theorem normKey_key {k : Value} (key : k.isKey = true) : normKey k = k := by
  cases k <;> simp_all [normKey,Value.isKey]

/-- Integers and strings, each once. -/
structure Keyed (es : Entries) : Prop where
  keys : ∀ e ∈ es, e.1.isKey = true
  distinct : es.Pairwise fun e e' => e.1 ≠ e'.1

theorem rawget_cons (e : Value × Value) (es : Entries) (k : Value) :
    rawget (e::es) k = if keyEq e.1 k then e.2 else rawget es k := by
  unfold rawget
  rw [List.find?_cons]
  cases keyEq e.1 k <;> rfl

theorem rawget_cases (es : Entries) (k : Value) :
    rawget es k = .nil ∨ ∃ e ∈ es, e.1 = k ∧ rawget es k = e.2 := by
  induction es with
  | nil => exact .inl rfl
  | cons e es ih =>
    rw [rawget_cons]
    by_cases same : keyEq e.1 k = true
    · rw [if_pos same]
      exact .inr ⟨e,.head es,keyEq_eq same,rfl⟩
    · rw [if_neg same]
      apply ih.imp_right
      rintro ⟨e',member,found⟩
      exact ⟨e',.tail e member,found⟩

theorem rawget_of_mem {es : Entries} (keyed : Keyed es) {e : Value × Value} (member : e ∈ es) :
    rawget es e.1 = e.2 := by
  obtain ⟨keys,distinct⟩ := keyed
  induction es with
  | nil => cases member
  | cons e' es ih =>
    obtain ⟨first,distinct⟩ := List.pairwise_cons.mp distinct
    rw [rawget_cons]
    cases member with
    | head => rw [if_pos (keyEq_self (keys e (.head es)))]
    | tail _ member =>
      rw [if_neg fun same => first e member (keyEq_eq same)]
      exact ih member (fun e member => keys e (.tail e' member)) distinct

theorem rawget_absent {es : Entries} {k : Value} (absent : ∀ e ∈ es, e.1 ≠ k) :
    rawget es k = .nil := by
  apply (rawget_cases es k).resolve_right
  rintro ⟨e,member,same,_⟩
  exact absent e member same

theorem rawset_fresh {es : Entries} {k v : Value} (key : k.isKey = true)
    (fresh : ∀ e ∈ es, e.1 ≠ k) (some_ : v.isNil = false) : rawset es k v = es ++ [(k,v)] := by
  have none_ : es.any (fun e => keyEq e.1 k) = false := by
    rw [List.any_eq_false]
    exact fun e member same => fresh e member (keyEq_eq same)
  unfold rawset
  cases v with
  | nil => cases some_
  | bool | int | flt | str | table | other => simp only [normKey_key key,none_]; rfl

theorem Keyed.map {es : Entries} (keyed : Keyed es) (f : Value → Value) :
    Keyed (es.map fun e => (e.1,f e.2)) := by
  refine ⟨?_,List.pairwise_map.mpr keyed.distinct⟩
  intro _ image
  obtain ⟨e,member,rfl⟩ := List.mem_map.mp image
  exact keyed.keys e member

/-- Values at the consecutive integers from `i` on. -/
def numbered : Nat → List Value → Entries
  | _, [] => []
  | i, v::vs => (.int (BitVec.ofNat 64 i),v) :: numbered (i+1) vs

theorem mem_numbered {i : Nat} {vs : List Value} {e : Value × Value} :
    e ∈ numbered i vs ↔ ∃ j, ∃ h : j < vs.length,
      e.1 = .int (BitVec.ofNat 64 (i+j)) ∧ e.2 = vs[j] := by
  induction vs generalizing i with
  | nil => simp [numbered]
  | cons v vs ih =>
    rw [numbered,List.mem_cons,ih]
    constructor
    · rintro (rfl | ⟨j,inside,key,val⟩)
      · exact ⟨0,by simp,rfl,rfl⟩
      · exact ⟨j+1,by simpa using inside,by rw [key]; congr 2; omega,by simpa using val⟩
    · rintro ⟨j,inside,key,val⟩
      cases j with
      | zero => exact .inl (Prod.ext key val)
      | succ j =>
        exact .inr ⟨j,by simpa using inside,by rw [key]; congr 2; omega,by simpa using val⟩

theorem int_inj {i j : Nat} (small : i < 2^64) (small' : j < 2^64)
    (same : Value.int (BitVec.ofNat 64 i) = .int (BitVec.ofNat 64 j)) : i = j := by
  have toNat := congrArg BitVec.toNat (Value.int.inj same)
  rwa [BitVec.toNat_ofNat,BitVec.toNat_ofNat,Nat.mod_eq_of_lt small,
    Nat.mod_eq_of_lt small'] at toNat

theorem keyed_numbered {i : Nat} {vs : List Value} (fits : i + vs.length ≤ 2^64) :
    Keyed (numbered i vs) := by
  induction vs generalizing i with
  | nil => exact ⟨fun _ member => (nomatch member),.nil⟩
  | cons v vs ih =>
    rw [List.length_cons] at fits
    obtain ⟨keys,distinct⟩ := ih (i := i+1) (by omega)
    refine ⟨?_,List.pairwise_cons.mpr ⟨?_,distinct⟩⟩
    · rintro e (_ | ⟨_,member⟩)
      · rfl
      · exact keys e member
    · intro e member same
      obtain ⟨j,inside,key,_⟩ := mem_numbered.mp member
      have := int_inj (by omega) (by omega) (same.trans key)
      omega

/-- The same scalars at the same keys, at every layer. -/
inductive Same : Value → Value → Prop where
  | leaf {v : Value} (leaf : v.isTable = false) : Same v v
  | table {shape shape' : Shape} {es es' : Entries}
      (entries : ∀ k, Same (rawget es k) (rawget es' k)) :
      Same (.table shape es) (.table shape' es')

namespace Same

variable {shape shape' : Shape} {es es' : Entries}

theorem table_iff : Same (.table shape es) (.table shape' es') ↔
    ∀ k, Same (rawget es k) (rawget es' k) := by
  refine ⟨fun same => ?_,.table⟩
  cases same with
  | leaf leaf => cases leaf
  | table entries => exact entries

theorem isNil {v w : Value} (same : Same v w) : v.isNil = w.isNil := by
  cases same with
  | leaf => rfl
  | table => rfl

theorem map_iff (keyed : Keyed es) (some_ : ∀ e ∈ es, e.2.isNil = false) (f : Value → Value) :
    Same (.table shape es) (.table shape' (es.map fun e => (e.1,f e.2))) ↔
      ∀ e ∈ es, Same e.2 (f e.2) := by
  have image : ∀ e ∈ es, rawget (es.map fun e => (e.1,f e.2)) e.1 = f e.2 := fun e member =>
    rawget_of_mem (keyed.map f) (List.mem_map_of_mem (f := fun e => (e.1,f e.2)) member)
  rw [table_iff]
  constructor
  · intro same e member
    have entry := same e.1
    rwa [rawget_of_mem keyed member,image e member] at entry
  · intro same k
    rcases rawget_cases es k with none_ | ⟨e,member,rfl,_⟩
    · have absent : ∀ e ∈ es.map fun e => (e.1,f e.2), e.1 ≠ k := by
        intro _ image here
        obtain ⟨e,member,rfl⟩ := List.mem_map.mp image
        have found := rawget_of_mem keyed member
        rw [show e.1 = k from here,none_] at found
        have some_ := some_ e member
        rw [← found] at some_
        cases some_
      rw [none_,rawget_absent absent]
      exact .leaf rfl
    · rw [rawget_of_mem keyed member,image e member]
      exact same e member

end Same

/-- The keys are the integers up to the border. -/
structure Sequence (border : Nat) (es : Entries) : Prop where
  keys : ∀ e ∈ es, ∃ i < border, e.1 = .int (BitVec.ofNat 64 (i+1))
  full : ∀ i < border, (rawget es (.int (BitVec.ofNat 64 (i+1)))).isNil = false

/-- What `lua_rawlen` may return. -/
structure Border (border : Nat) (es : Entries) : Prop where
  word : border < 2^63
  last : border ≠ 0 → (rawget es (.int (BitVec.ofNat 64 border))).isNil = false
  next : (rawget es (.int (BitVec.ofNat 64 (border+1)))).isNil = true

/-- The values up to the border that are not nil, in order. -/
def listed (border : Nat) (es : Entries) : List Value :=
  ((List.range border).map fun i => rawget es (.int (BitVec.ofNat 64 (i+1)))).filter
    fun v => !v.isNil

theorem listed_length (border : Nat) (es : Entries) : (listed border es).length ≤ border := by
  apply (List.length_filter_le _ _).trans
  simp

/-- Without a hole, the values are listed where they are. -/
theorem listed_full {border : Nat} {es : Entries}
    (full : (listed border es).length = border ∨
      ∀ i < border, (rawget es (.int (BitVec.ofNat 64 (i+1)))).isNil = false) :
    listed border es =
      (List.range border).map fun i => rawget es (.int (BitVec.ofNat 64 (i+1))) := by
  rcases full with full | full
  · exact List.filter_sublist.eq_of_length (full.trans (by simp))
  · apply List.filter_eq_self.mpr
    intro v member
    obtain ⟨i,inside,rfl⟩ := List.mem_map.mp member
    rw [full i (List.mem_range.mp inside)]
    rfl

theorem mem_listed {border : Nat} {es : Entries} {v : Value} (member : v ∈ listed border es) :
    ∃ e ∈ es, e.2 = v := by
  obtain ⟨member,some_⟩ := List.mem_filter.mp member
  obtain ⟨i,_,rfl⟩ := List.mem_map.mp member
  rcases rawget_cases es (.int (BitVec.ofNat 64 (i+1))) with none_ | ⟨e,member,_,found⟩
  · rw [none_] at some_
    cases some_
  · exact ⟨e,member,found.symm⟩

section
variable {shape shape' : Shape} {border : Nat} {es : Entries} {f : Value → Value}

theorem numbered_at {vs : List Value} (fits : 1 + vs.length ≤ 2^64) {i : Nat}
    (inside : i < vs.length) :
    rawget (numbered 1 vs) (.int (BitVec.ofNat 64 (i+1))) = vs[i] := by
  have member : (Value.int (BitVec.ofNat 64 (1+i)),vs[i]) ∈ numbered 1 vs :=
    mem_numbered.mpr ⟨i,inside,rfl,rfl⟩
  rw [Nat.add_comm i 1]
  exact rawget_of_mem (keyed_numbered fits) member

/-- If the array that is read holds the same, the table is a sequence. -/
theorem sequence_of_same (keyed : Keyed es) (limit : Border border es)
    (some_ : ∀ e ∈ es, e.2.isNil = false ∧ (f e.2).isNil = false)
    (same : Same (.table shape es) (.table shape' (numbered 1 ((listed border es).map f)))) :
    Sequence border es := by
  have short := listed_length border es
  have word := limit.word
  have entries := Same.table_iff.mp same
  have placed : ∀ e ∈ es, ∃ i < (listed border es).length,
      e.1 = .int (BitVec.ofNat 64 (i+1)) := by
    intro e member
    have here := (entries e.1).isNil
    rw [rawget_of_mem keyed member,(some_ e member).1] at here
    rcases rawget_cases (numbered 1 ((listed border es).map f)) e.1 with none_ | ⟨e',member',key,_⟩
    · rw [none_] at here
      cases here
    · obtain ⟨j,inside,key',_⟩ := mem_numbered.mp member'
      rw [List.length_map] at inside
      exact ⟨j,inside,by rw [← key,key',Nat.add_comm]⟩
  have whole : (listed border es).length = border := by
    by_cases zero : border = 0
    · omega
    have last := limit.last zero
    rcases rawget_cases es (.int (BitVec.ofNat 64 border)) with none_ | ⟨e,member,key,_⟩
    · rw [none_] at last
      cases last
    · obtain ⟨i,inside,key'⟩ := placed e member
      have := int_inj (by omega) (by omega) (key.symm.trans key')
      omega
  refine ⟨fun e member => ?_,fun i inside => ?_⟩
  · obtain ⟨i,inside,key⟩ := placed e member
    exact ⟨i,by omega,key⟩
  · have inside' : i < ((listed border es).map f).length := by
      rw [List.length_map]
      omega
    rw [(entries _).isNil,numbered_at (by rw [List.length_map]; omega) inside',List.getElem_map]
    obtain ⟨e,member,same⟩ := mem_listed (List.getElem_mem (by omega : i < (listed border es).length))
    rw [← same]
    exact (some_ e member).2

theorem sequence_at (word : border < 2^63) (keyed : Keyed es) (sequence : Sequence border es)
    {e : Value × Value} (member : e ∈ es) :
    rawget (numbered 1 ((listed border es).map f)) e.1 = f e.2 := by
  have short := listed_length border es
  obtain ⟨i,inside,key⟩ := sequence.keys e member
  have found := rawget_of_mem keyed member
  have list := listed_full (.inr sequence.full)
  have inside' : i < ((listed border es).map f).length := by
    rw [list]
    simpa using inside
  rw [key] at found ⊢
  rw [numbered_at (by rw [List.length_map]; omega) inside',List.getElem_map]
  simp only [list,List.getElem_map,List.getElem_range]
  rw [found]

theorem Same.numbered_iff (keyed : Keyed es) (limit : Border border es)
    (some_ : ∀ e ∈ es, e.2.isNil = false ∧ (f e.2).isNil = false) :
    Same (.table shape es) (.table shape' (numbered 1 ((listed border es).map f))) ↔
      Sequence border es ∧ ∀ e ∈ es, Same e.2 (f e.2) := by
  have word := limit.word
  constructor
  · intro same
    have sequence := sequence_of_same keyed limit some_ same
    refine ⟨sequence,fun e member => ?_⟩
    have entry := Same.table_iff.mp same e.1
    rwa [rawget_of_mem keyed member,sequence_at word keyed sequence member] at entry
  · rintro ⟨sequence,same⟩
    refine .table fun k => ?_
    rcases rawget_cases es k with none_ | ⟨e,member,rfl,_⟩
    · have absent : ∀ e ∈ numbered 1 ((listed border es).map f), e.1 ≠ k := by
        rintro e member rfl
        obtain ⟨j,inside,key,_⟩ := mem_numbered.mp member
        have short := listed_length border es
        rw [List.length_map] at inside
        have full := sequence.full j (by omega)
        rw [key,Nat.add_comm] at none_
        rw [none_] at full
        cases full
      rw [none_,rawget_absent absent]
      exact .leaf rfl
    · rw [rawget_of_mem keyed member,sequence_at word keyed sequence member]
      exact same e member

end

end Pworld.Lua
