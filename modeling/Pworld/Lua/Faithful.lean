import Pworld.Lua.Entries
import Pworld.Lua.RoundTrip

/-! Which tables come back as they were. What `get_lua_type_table` takes for an array is
written without its keys, and layer `MAX_DEPTH` is written empty. -/
namespace Pworld.Lua

def Value.isLeaf : Value → Bool
  | .bool _ | .int _ | .str _ => true
  | _ => false

variable (wild : Double → BitVec 64)

/-- Trees of tables without metatables, with integers and strings for keys, and scalars
that come back as they were. -/
inductive Plain : Value → Prop where
  | leaf {v : Value} (leaf : v.isLeaf = true) (fixed : back (getLuaType wild v) v = v) : Plain v
  | table {border : Nat} {es : Entries} (keyed : Keyed es) (limit : Border border es)
      (fixed : ∀ e ∈ es, back (getLuaType wild e.1) e.1 = e.1) (vals : ∀ e ∈ es, Plain e.2) :
      Plain (.table ⟨false,false,border⟩ es)

/-- Down to `room` layers, a table taken for an array is a sequence; there, every table
is empty. -/
def Faithful : Nat → Value → Prop
  | 0, v => v.entries = []
  | room+1, v => (getLuaTypeTable v = .Arr → Sequence v.shape.border v.entries) ∧
      ∀ e ∈ v.entries, Faithful room e.2

theorem faithful_leaf (room : Nat) {v : Value} (leaf : v.isLeaf = true) : Faithful room v := by
  have empty : v.entries = [] ∧ v.shape.border = 0 := by
    cases v <;> first | exact ⟨rfl,rfl⟩ | cases leaf
  cases room with
  | zero => exact empty.1
  | succ room =>
    refine ⟨fun _ => ?_,by rw [empty.1]; exact fun _ member => nomatch member⟩
    rw [empty.1,empty.2]
    exact ⟨fun _ member => (nomatch member),fun _ inside => absurd inside (Nat.not_lt_zero _)⟩

theorem number_type (v : Double) : (getLuaTypeNumber wild v).isVal ∧
    ¬(getLuaTypeNumber wild v).isTable ∧
    (getLuaTypeNumber wild v ≠ .flt → (getLuaTypeNumber wild v).isKey) := by
  have number : ∀ ty ∈ [LuaValueType.u8,.u16,.u32,.u64,.i8,.i16,.i64,.flt],
      ty.isVal ∧ ¬ty.isTable ∧ (ty ≠ .flt → ty.isKey) := by
    simp only [LuaValueType.isTable]
    decide
  apply number _
  unfold getLuaTypeNumber
  dsimp only
  split_ifs <;> decide

theorem entityImage_leaf {ty : LuaValueType} (leaf : ¬ty.isTable)
    (img : LuaValueType → Value → Entries) (v : Value) : entityImage img ty v = back ty v := by
  cases ty <;> first | rfl | exact absurd (.inl rfl) leaf | exact absurd (.inr rfl) leaf

theorem entityImage_table {ty : LuaValueType} (table : ty.isTable)
    (img : LuaValueType → Value → Entries) (v : Value) :
    entityImage img ty v = .table ⟨false,false,0⟩ (img ty v) := by
  rcases table with rfl | rfl <;> rfl

theorem leaf_type {v : Value} (leaf : v.isLeaf = true) :
    (getLuaType wild v).isVal ∧ ¬(getLuaType wild v).isTable := by
  cases v with
  | int n => exact ⟨(number_type wild _).1,(number_type wild _).2.1⟩
  | bool b => exact ⟨(by decide : LuaValueType.bool.isVal),by rintro (no | no) <;> cases no⟩
  | str s => exact ⟨(by decide : LuaValueType.str.isVal),by rintro (no | no) <;> cases no⟩
  | nil | flt | table | other => cases leaf

theorem leaf_image {v : Value} (leaf : v.isLeaf = true)
    (fixed : back (getLuaType wild v) v = v) : (getLuaType wild v).isVal ∧
      ∀ img, entityImage img (getLuaType wild v) v = v := by
  obtain ⟨val,scalar⟩ := leaf_type wild leaf
  exact ⟨val,fun img => (entityImage_leaf scalar img v).trans fixed⟩

theorem key_image {k : Value} (key : k.isKey = true)
    (fixed : back (getLuaType wild k) k = k) : (getLuaType wild k).isKey ∧
      ∀ img, entityImage img (getLuaType wild k) k = k := by
  have leaf : k.isLeaf = true := by
    cases k <;> first | rfl | cases key
  refine ⟨?_,(leaf_image wild leaf fixed).2⟩
  cases k with
  | str s => exact (by decide : LuaValueType.str.isKey)
  | int n => exact (number_type wild _).2.2 (getLuaType_int wild n)
  | nil | bool | flt | table | other => cases key

/-- What is written of a value of a plain table, and that it is no nil when read. -/
theorem plain_image {v : Value} (plain : Plain wild v) : (getLuaType wild v).isVal ∧
    v.isNil = false ∧ ∀ img, (entityImage img (getLuaType wild v) v).isNil = false := by
  cases plain with
  | leaf leaf fixed =>
    obtain ⟨val,image⟩ := leaf_image wild leaf fixed
    have some_ : v.isNil = false := by
      cases v <;> first | rfl | cases leaf
    exact ⟨val,some_,fun img => by rw [image]; exact some_⟩
  | @table border es _ _ _ _ =>
    have table := typeTable_isTable (.table ⟨false,false,border⟩ es)
    refine ⟨?_,rfl,fun img => ?_⟩
    · rcases table with same | same
      · rw [getLuaType,same]
        decide
      · rw [getLuaType,same]
        decide
    · rw [getLuaType,entityImage_table table]
      rfl

section
variable {img : LuaValueType → Value → Entries}

theorem hash_fold {es acc : Entries} {idx : Nat} (keyed : Keyed es)
    (fixed : ∀ e ∈ es, back (getLuaType wild e.1) e.1 = e.1) (vals : ∀ e ∈ es, Plain wild e.2)
    (fresh : ∀ e ∈ es, ∀ a ∈ acc, a.1 ≠ e.1) :
    (es.foldl (fun s e => hashStep wild img e s) (acc,idx)).1 =
      acc ++ es.map fun e => (e.1,entityImage img (getLuaType wild e.2) e.2) := by
  induction es generalizing acc idx with
  | nil => exact (List.append_nil acc).symm
  | cons e es ih =>
    obtain ⟨keys,distinct⟩ := keyed
    obtain ⟨first,distinct⟩ := List.pairwise_cons.mp distinct
    have key := keys e (.head es)
    obtain ⟨isKey,keyImage⟩ := key_image wild key (fixed e (.head es))
    obtain ⟨isVal,_,some_⟩ := plain_image wild (vals e (.head es))
    have step : hashStep wild img e (acc,idx) =
        (acc ++ [(e.1,entityImage img (getLuaType wild e.2) e.2)],Net.u32 (idx+1)) := by
      rw [hashStep,if_pos ⟨isKey,isVal⟩,keyImage,
        rawset_fresh key (fresh e (.head es)) (some_ img)]
    rw [List.foldl_cons,step,ih ⟨fun e member => keys e (.tail _ member),distinct⟩
      (fun e member => fixed e (.tail _ member)) (fun e member => vals e (.tail _ member)) ?_,
      List.map_cons,List.append_assoc,List.singleton_append]
    intro e' member a here
    rcases List.mem_append.mp here with old | new
    · exact fresh e' (.tail _ member) a old
    · rw [List.mem_singleton.mp new]
      exact first e' member

/-- The rounds of an array number the values that are not nil. -/
theorem arr_fold (vs : List Value) (acc : Entries) (idx : Nat)
    (vals : ∀ v ∈ vs, v.isNil = false → Plain wild v)
    (before : ∀ a ∈ acc, ∃ j < idx, a.1 = .int (BitVec.ofNat 64 j))
    (fits : idx + (vs.filter fun v => !v.isNil).length < 2^32) :
    (vs.foldl (fun s v => arrStep wild img v s) (acc,idx)).1 =
      acc ++ numbered idx ((vs.filter fun v => !v.isNil).map fun v =>
        entityImage img (getLuaType wild v) v) := by
  induction vs generalizing acc idx with
  | nil => exact (List.append_nil acc).symm
  | cons v vs ih =>
    have vals' : ∀ v ∈ vs, v.isNil = false → Plain wild v :=
      fun v member => vals v (.tail _ member)
    cases some_ : v.isNil with
    | true =>
      have none_ := Value.isNil_iff.mp some_
      subst none_
      have step : arrStep wild img .nil (acc,idx) = (acc,idx) :=
        if_neg (by decide : ¬LuaValueType.nil.isVal)
      rw [List.foldl_cons,step]
      exact ih acc idx vals' before fits
    | false =>
      obtain ⟨isVal,_,image⟩ := plain_image wild (vals v (.head vs) some_)
      have kept : (v::vs).filter (fun v => !v.isNil) = v :: vs.filter fun v => !v.isNil :=
        List.filter_cons_of_pos (by rw [some_]; rfl)
      rw [kept,List.length_cons] at fits
      have fresh : ∀ a ∈ acc, a.1 ≠ .int (BitVec.ofNat 64 idx) := by
        intro a member same
        obtain ⟨j,earlier,key⟩ := before a member
        have := int_inj (by omega) (by omega) (key.symm.trans same)
        omega
      have count : Net.u32 (idx+1) = idx+1 := Nat.mod_eq_of_lt (by omega)
      have step : arrStep wild img v (acc,idx) =
          (acc ++ [(.int (BitVec.ofNat 64 idx),entityImage img (getLuaType wild v) v)],idx+1) := by
        rw [arrStep,if_pos isVal,rawset_fresh rfl fresh (image img),count]
      rw [List.foldl_cons,step,ih _ _ vals' ?_ (by omega),kept,List.map_cons,numbered,
        List.append_assoc,List.singleton_append]
      intro a member
      rcases List.mem_append.mp member with old | new
      · obtain ⟨j,earlier,key⟩ := before a old
        exact ⟨j,by omega,key⟩
      · rw [List.mem_singleton.mp new]
        exact ⟨idx,by omega,rfl⟩

end

theorem length_of_mem {α : Type} {xs : List α} (write : α → Bytes) {x : α} (member : x ∈ xs) :
    (write x).length ≤ (xs.flatMap write).length := by
  induction xs with
  | nil => cases member
  | cons y xs ih =>
    rw [List.flatMap_cons,List.length_append]
    cases member with
    | head => omega
    | tail _ member => exact (ih member).trans (Nat.le_add_left _ _)

theorem length_of_filter {α : Type} {xs : List α} (p : α → Bool) (write : α → Bytes)
    (some_ : ∀ x ∈ xs, p x = true → 1 ≤ (write x).length) :
    (xs.filter p).length ≤ (xs.flatMap write).length := by
  induction xs with
  | nil => exact le_refl _
  | cons y xs ih =>
    have rest := ih fun x member => some_ x (.tail y member)
    rw [List.flatMap_cons,List.length_append]
    cases kept : p y with
    | true =>
      have := some_ y (.head xs) kept
      rw [List.filter_cons_of_pos kept,List.length_cons]
      omega
    | false =>
      rw [List.filter_cons_of_neg (by simp [kept])]
      omega

theorem serializeEntity_table {sub : LuaValueType → Value → List Put} {ty : LuaValueType}
    (table : ty.isTable) (v : Value) : serializeEntity sub ty v = sub ty v := by
  rcases table with rfl | rfl <;> rfl

section
variable {sub : LuaValueType → Value → List Put} {border : Nat} {es : Entries}

theorem val_length {v : Value} (val : (getLuaType wild v).isVal) :
    (bytesOf (serializeVal sub (getLuaType wild v) v)).length =
      (bytesOf (serializeEntity sub (getLuaType wild v) v)).length + 1 := by
  rw [serializeVal,if_neg val]
  rfl

theorem keyVal_length {k v : Value} (key : (getLuaType wild k).isKey)
    (val : (getLuaType wild v).isVal) :
    (bytesOf (serializeEntity sub (getLuaType wild v) v)).length ≤
      (bytesOf (serializeKeyVal sub (getLuaType wild k) k (getLuaType wild v) v)).length := by
  have split : serializeKeyVal sub (getLuaType wild k) k (getLuaType wild v) v =
      .int 1 (((getLuaType wild k).code &&& 0x0F) <<< 4 ||| ((getLuaType wild v).code &&& 0x0F)) ::
        serializeEntity sub (getLuaType wild k) k ++
        serializeEntity sub (getLuaType wild v) v := by
    rw [serializeKeyVal,if_neg key,if_neg val]
    rfl
  rw [split,bytesOf_append,List.length_append]
  omega

end

theorem listed_small (room border : Nat) {es : Entries} (vals : ∀ e ∈ es, Plain wild e.2) :
    (listed border es).length + 1 ≤ (bytesOf (serializeTable wild (room+1) .Arr
      (.table ⟨false,false,border⟩ es))).length := by
  rw [serializeTable,bytesOf_append,bytesOf_flatMap,List.length_append,listed,List.filter_map,
    List.length_map]
  refine Nat.add_le_add (length_of_filter _ _ fun i _ some_ => ?_) (le_refl 1)
  rcases rawget_cases es (.int (BitVec.ofNat 64 (i+1))) with none_ | ⟨e,member,_,found⟩
  · simp [none_,Value.isNil] at some_
  · have val := (plain_image wild (vals e member)).1
    rw [← found] at val
    exact (val_length wild val).ge.trans' (Nat.le_add_left 1 _)

theorem arr_small (room : Nat) {border : Nat} {es : Entries} (keyed : Keyed es)
    (vals : ∀ e ∈ es, Plain wild e.2) (sequence : Sequence border es) {e : Value × Value}
    (member : e ∈ es) :
    (bytesOf (serializeEntity (serializeTable wild room) (getLuaType wild e.2) e.2)).length <
      (bytesOf (serializeTable wild (room+1) .Arr (.table ⟨false,false,border⟩ es))).length := by
  obtain ⟨i,inside,key⟩ := sequence.keys e member
  have found := rawget_of_mem keyed member
  rw [key] at found
  have whole := length_of_mem (fun i => bytesOf (serializeVal (serializeTable wild room)
    (getLuaType wild (rawget es (.int (BitVec.ofNat 64 (i+1)))))
    (rawget es (.int (BitVec.ofNat 64 (i+1)))))) (List.mem_range.mpr inside)
  simp only [found] at whole
  rw [val_length wild (plain_image wild (vals e member)).1] at whole
  rw [serializeTable,bytesOf_append,bytesOf_flatMap,List.length_append]
  exact Nat.lt_of_lt_of_le whole (Nat.le_add_right _ _)

theorem hash_small (room border : Nat) {es : Entries} (keyed : Keyed es)
    (fixed : ∀ e ∈ es, back (getLuaType wild e.1) e.1 = e.1) (vals : ∀ e ∈ es, Plain wild e.2)
    {e : Value × Value} (member : e ∈ es) :
    (bytesOf (serializeEntity (serializeTable wild room) (getLuaType wild e.2) e.2)).length ≤
      (bytesOf (serializeTable wild (room+1) .Hash (.table ⟨false,false,border⟩ es))).length := by
  have key := (key_image wild (keyed.keys e member) (fixed e member)).1
  have val := (plain_image wild (vals e member)).1
  have whole := length_of_mem (fun e : Value × Value => bytesOf (serializeKeyVal
    (serializeTable wild room) (getLuaType wild e.1) e.1 (getLuaType wild e.2) e.2)) member
  rw [serializeTable,bytesOf_append,bytesOf_flatMap,List.length_append]
  exact ((keyVal_length wild key val).trans whole).trans (Nat.le_add_right _ _)

theorem image_hash (room : Nat) {shape : Shape} {es : Entries} (keyed : Keyed es)
    (fixed : ∀ e ∈ es, back (getLuaType wild e.1) e.1 = e.1) (vals : ∀ e ∈ es, Plain wild e.2) :
    image wild (room+1) .Hash (.table shape es) =
      es.map fun e => (e.1,entityImage (image wild room) (getLuaType wild e.2) e.2) :=
  hash_fold wild keyed fixed vals fun _ _ _ member => nomatch member

theorem image_arr (room : Nat) {border : Nat} {es : Entries} (vals : ∀ e ∈ es, Plain wild e.2)
    (fits : (listed border es).length + 1 < 2^32) :
    image wild (room+1) .Arr (.table ⟨false,false,border⟩ es) =
      numbered 1 ((listed border es).map fun v =>
        entityImage (image wild room) (getLuaType wild v) v) := by
  have fold : image wild (room+1) .Arr (.table ⟨false,false,border⟩ es) =
      (((List.range border).map fun i => rawget es (.int (BitVec.ofNat 64 (i+1)))).foldl
        (fun s v => arrStep wild (image wild room) v s) ([],1)).1 := by
    rw [List.foldl_map]
    rfl
  rw [fold,arr_fold wild _ [] 1 ?_ (fun _ member => nomatch member)
    (by rw [Nat.add_comm]; exact fits)]
  · rfl
  · intro v member some_
    obtain ⟨i,_,rfl⟩ := List.mem_map.mp member
    rcases rawget_cases es (.int (BitVec.ofNat 64 (i+1))) with none_ | ⟨e,member,_,found⟩
    · rw [none_] at some_
      cases some_
    · rw [found]
      exact vals e member

theorem leaf_same (room : Nat) {v : Value} (leaf : v.isLeaf = true)
    (fixed : back (getLuaType wild v) v = v) :
    Same v (entityImage (image wild room) (getLuaType wild v) v) ↔ Faithful room v := by
  have scalar : v.isTable = false := by
    cases v <;> first | rfl | cases leaf
  rw [(leaf_image wild leaf fixed).2]
  exact iff_of_true (.leaf scalar) (faithful_leaf room leaf)

theorem cut_same {shape shape' : Shape} {es : Entries} (keyed : Keyed es)
    (some_ : ∀ e ∈ es, e.2.isNil = false) :
    Same (.table shape es) (.table shape' []) ↔ es = [] := by
  constructor
  · intro same
    apply List.eq_nil_iff_forall_not_mem.mpr
    intro e member
    have entry := (Same.table_iff.mp same e.1).isNil
    rw [rawget_of_mem keyed member,some_ e member] at entry
    cases entry
  · rintro rfl
    exact .table fun _ => .leaf rfl

/-- What comes back holds the same exactly where the value is faithful. -/
theorem same_image (room : Nat) {v : Value} (plain : Plain wild v)
    (small : (bytesOf (serializeEntity (serializeTable wild room) (getLuaType wild v) v)).length <
      2^32) :
    Same v (entityImage (image wild room) (getLuaType wild v) v) ↔ Faithful room v := by
  induction room generalizing v with
  | zero =>
    cases plain with
    | leaf leaf fixed => exact leaf_same wild 0 leaf fixed
    | @table border es keyed _ _ vals =>
      rw [getLuaType,entityImage_table (typeTable_isTable _)]
      exact cut_same keyed fun e member => (plain_image wild (vals e member)).2.1
  | succ room ih =>
    cases plain with
    | leaf leaf fixed => exact leaf_same wild _ leaf fixed
    | @table border es keyed limit fixed vals =>
      have table := typeTable_isTable (.table ⟨false,false,border⟩ es)
      rw [getLuaType,serializeEntity_table table] at small
      rw [getLuaType,entityImage_table table,Faithful]
      rcases table with arr | hash
      · rw [arr] at small ⊢
        have count := listed_small wild room border vals
        rw [image_arr wild room vals (by omega),Same.numbered_iff keyed limit fun e member =>
          (plain_image wild (vals e member)).2.imp_right fun some_ => some_ _]
        -- a value that is not in the sequence may not even be written
        refine Iff.trans (and_congr_right fun sequence => forall₂_congr fun e member => ?_)
          (and_congr_left fun _ => ⟨fun sequence _ => sequence,fun sequence => sequence rfl⟩)
        have inner := arr_small wild room keyed vals sequence member
        exact ih (vals e member) (by omega)
      · rw [hash] at small ⊢
        rw [image_hash wild room keyed fixed vals]
        refine (Same.map_iff keyed (fun e member => (plain_image wild (vals e member)).2.1)
          fun v => entityImage (image wild room) (getLuaType wild v) v).trans ?_
        refine Iff.trans (forall₂_congr fun e member => ?_)
          (and_iff_right fun no => nomatch no).symm
        have inner := hash_small wild room border keyed fixed vals member
        exact ih (vals e member) (by omega)

/-- `Deserialize` of what `Serialize` wrote pushes a table that holds the same. -/
def RoundTrips (junk : Nat → Nat) (t : Value) (bb : ByteBuffer) : Prop :=
  ∃ n, ∀ m, n ≤ m → ∃ out r,
    Deserialize junk m (Serialize wild t bb).2 = some (.ok (some out,r)) ∧ Same t out

section
variable (junk : Nat → Nat) {t : Value} {bb : ByteBuffer}

theorem roundTrips_image (table : t.isTable = true) (ok : bb.Ok) (empty : bb.readable = [])
    (space : (bytesOf (encode wild t)).length ≤ bb.free) :
    RoundTrips wild junk t bb ↔ Same t (tableImage wild t) := by
  obtain ⟨_,written⟩ := serialize_written wild table ok space
  have readable := written.readable
  rw [empty,List.nil_append,← List.append_nil (bytesOf _)] at readable
  obtain ⟨n,reads⟩ := deserialize_image wild junk t written.ok readable
  constructor
  · rintro ⟨n',same⟩
    obtain ⟨r,read,_⟩ := reads (max n n') (by omega)
    obtain ⟨out,r',read',same⟩ := same (max n n') (by omega)
    cases read.symm.trans read'
    exact same
  · intro same
    refine ⟨n,fun m le => ?_⟩
    obtain ⟨r,read,_⟩ := reads m le
    exact ⟨_,r,read,same⟩

theorem tableImage_same (plain : Plain wild t) (table : t.isTable = true) (ok : bb.Ok)
    (space : (bytesOf (encode wild t)).length ≤ bb.free) :
    Same t (tableImage wild t) ↔ Faithful (maxDepth-1) t := by
  have word := ok.word
  rw [ByteBuffer.free_eq ok] at space
  have whole : (bytesOf (encode wild t)).length =
      (bytesOf (serializeTable wild (maxDepth-1) (getLuaTypeTable t) t)).length + 1 := rfl
  cases t with
  | table shape es =>
    have isTable := typeTable_isTable (.table shape es)
    rw [← same_image wild (maxDepth-1) plain
      (by rw [getLuaType,serializeEntity_table isTable]; omega),getLuaType,
      entityImage_table isTable]
    rfl
  | nil | bool | int | flt | str | other => cases table

/-- A plain table comes back as it was exactly if it is faithful. -/
theorem round_trip (plain : Plain wild t) (table : t.isTable = true) (ok : bb.Ok)
    (empty : bb.readable = []) (space : (bytesOf (encode wild t)).length ≤ bb.free) :
    RoundTrips wild junk t bb ↔ Faithful (maxDepth-1) t :=
  (roundTrips_image wild junk table ok empty space).trans (tableImage_same wild plain table ok space)

end

/-- No conversion of the tables below is out of range. -/
def tame : Double → BitVec 64 := fun _ => 0

theorem plain_leaf {v : Value} (leaf : v.isLeaf = true)
    (fixed : keyEq (back (getLuaType tame v) v) v = true) : Plain tame v :=
  .leaf leaf (keyEq_eq fixed)

theorem plain_two {border : Nat} {k k' v v' : Value} (keys : k.isKey = true ∧ k'.isKey = true)
    (other : k ≠ k') (limit : Border border [(k,v),(k',v')])
    (fixed : keyEq (back (getLuaType tame k) k) k = true ∧
      keyEq (back (getLuaType tame k') k') k' = true)
    (val : Plain tame v) (val' : Plain tame v') :
    Plain tame (.table ⟨false,false,border⟩ [(k,v),(k',v')]) := by
  refine .table ⟨?_,by simpa using other⟩ limit ?_ ?_
  · simpa using keys
  · simpa using And.intro (keyEq_eq fixed.1) (keyEq_eq fixed.2)
  · simpa using And.intro val val'

/-- `{5,x={true}}` -/
def tree : Value := .table ⟨false,false,1⟩
  [(.int 1,.int 5),(.str [120],.table ⟨false,false,1⟩ [(.int 1,.bool true)])]

/-- `{[1]=10,x=20}`, with the string key enumerated first. -/
def mixed : Value := .table ⟨false,false,1⟩ [(.str [120],.int 20),(.int 1,.int 10)]

/-- `{10,nil,30}` -/
def hole : Value := .table ⟨false,false,3⟩ [(.int 1,.int 10),(.int 3,.int 30)]

/-- Arrays of one element in one another, `n+1` layers of them. -/
def nest : Nat → Value
  | 0 => .table ⟨false,false,1⟩ [(.int 1,.bool true)]
  | n+1 => .table ⟨false,false,1⟩ [(.int 1,nest n)]

theorem plain_one {v : Value} (val : Plain tame v) :
    Plain tame (.table ⟨false,false,1⟩ [(.int 1,v)]) := by
  have fixed : keyEq (back (getLuaType tame (.int 1)) (.int 1)) (.int 1) = true := by
    decide +kernel
  have some_ : v.isNil = false := (plain_image tame val).2.1
  refine .table ⟨?_,List.pairwise_singleton _ _⟩ ⟨by decide,fun _ => some_,rfl⟩ ?_ ?_
  · simp [Value.isKey]
  · simpa using keyEq_eq fixed
  · simpa using val

theorem plain_nest (n : Nat) : Plain tame (nest n) := by
  induction n with
  | zero => exact plain_one (plain_leaf rfl (by decide +kernel))
  | succ n ih => exact plain_one ih

theorem nest_cut (n : Nat) : ¬Faithful n (nest n) := by
  induction n with
  | zero => exact fun empty => nomatch empty
  | succ n ih => exact fun faithful => ih (faithful.2 _ (.head _))

theorem faithful_nest (n : Nat) : Faithful (n+1) (nest 0) := by
  refine ⟨fun _ => ⟨fun e member => ?_,by decide⟩,fun e member => ?_⟩
  · rw [List.mem_singleton.mp member]
    exact ⟨0,by decide,rfl⟩
  · rw [List.mem_singleton.mp member]
    exact faithful_leaf n rfl

def roomy : ByteBuffer := .new 64 (some (List.replicate 64 0))

theorem round_trip_tree : RoundTrips tame (fun _ => 0) tree roomy := by
  have plain : Plain tame tree :=
    plain_two ⟨rfl,rfl⟩ (by simp) ⟨by decide,fun _ => rfl,rfl⟩
      ⟨by decide +kernel,by decide +kernel⟩ (plain_leaf rfl (by decide +kernel)) (plain_nest 0)
  apply (round_trip tame _ plain rfl (by decide) (by decide) (by decide +kernel)).mpr
  refine ⟨(nomatch ·),fun e member => ?_⟩
  cases member with
  | head => exact faithful_leaf 14 rfl
  | tail _ member =>
    rw [List.mem_singleton.mp member]
    exact faithful_nest 13

/-- An entry is lost, one is moved, and the last of 16 layers is cut off. -/
theorem round_trip_lossy :
    (Plain tame mixed ∧ ¬RoundTrips tame (fun _ => 0) mixed roomy) ∧
    (Plain tame hole ∧ ¬RoundTrips tame (fun _ => 0) hole roomy) ∧
    (Plain tame (nest 15) ∧ ¬RoundTrips tame (fun _ => 0) (nest 15) roomy) := by
  have lost : ∀ t, Plain tame t → t.isTable = true →
      (bytesOf (encode tame t)).length ≤ roomy.free → ¬Faithful (maxDepth-1) t →
      Plain tame t ∧ ¬RoundTrips tame (fun _ => 0) t roomy := by
    intro t plain table space broken
    have ok : roomy.Ok := by decide
    refine ⟨plain,fun same => broken ?_⟩
    exact (tableImage_same tame plain table ok space).mp
      ((roundTrips_image tame _ table ok (by decide) space).mp same)
  have leaf : ∀ n, keyEq (back (getLuaType tame (.int n)) (.int n)) (.int n) = true →
      Plain tame (.int n) := fun n => plain_leaf rfl
  refine ⟨lost mixed ?_ rfl (by decide +kernel) fun faithful => ?_,
    lost hole ?_ rfl (by decide +kernel) fun faithful => ?_,
    lost (nest 15) (plain_nest 15) rfl (by decide +kernel) (nest_cut 15)⟩
  · exact plain_two ⟨rfl,rfl⟩ (by simp) ⟨by decide,fun _ => rfl,rfl⟩
      ⟨by decide +kernel,by decide +kernel⟩ (leaf 20 (by decide +kernel))
      (leaf 10 (by decide +kernel))
  · obtain ⟨i,_,no⟩ := (faithful.1 rfl).keys _ (.head _)
    cases no
  · exact plain_two ⟨rfl,rfl⟩ (by simp) ⟨by decide,fun _ => rfl,rfl⟩
      ⟨by decide +kernel,by decide +kernel⟩ (leaf 10 (by decide +kernel))
      (leaf 30 (by decide +kernel))
  · exact absurd ((faithful.1 rfl).full 1 (by decide)) (by decide)

end Pworld.Lua
