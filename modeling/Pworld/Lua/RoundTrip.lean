import Pworld.Lua.Termination

/-! `Deserialize` on what `Serialize` wrote. The reader stops where the writer did, with
the table that `image` says: entries of unsupported types are skipped, an array is
numbered again, and tables past `MAX_DEPTH` are empty. -/
namespace Pworld.Lua

open Net

def bytesOf (puts : List Put) : Bytes := puts.flatMap Put.bytes

theorem bytesOf_append (puts puts' : List Put) :
    bytesOf (puts ++ puts') = bytesOf puts ++ bytesOf puts' := List.flatMap_append

theorem bytesOf_flatMap {α : Type} (xs : List α) (f : α → List Put) :
    bytesOf (xs.flatMap f) = xs.flatMap fun x => bytesOf (f x) := List.flatMap_assoc

/-- `bb'` is `bb` after `bs` were written to it. -/
structure Written (bb : ByteBuffer) (bs : Bytes) (bb' : ByteBuffer) : Prop where
  ok : bb'.Ok
  readable : bb'.readable = bb.readable ++ bs
  rdPtr : bb'.rdPtr = bb.rdPtr
  wrPtr : bb'.wrPtr = bb.wrPtr + bs.length
  size : bb'.size = bb.size
  stray : bb'.stray = bb.stray

theorem Written.trans {bb bb' bb'' : ByteBuffer} {bs bs' : Bytes} (first : Written bb bs bb')
    (rest : Written bb' bs' bb'') : Written bb (bs ++ bs') bb'' where
  ok := rest.ok
  readable := by rw [rest.readable,first.readable,List.append_assoc]
  rdPtr := rest.rdPtr.trans first.rdPtr
  wrPtr := by rw [rest.wrPtr,first.wrPtr,List.length_append,Nat.add_assoc]
  size := rest.size.trans first.size
  stray := rest.stray.trans first.stray

theorem put_run {bb : ByteBuffer} (ok : bb.Ok) {p : Put}
    (space : p.bytes.length ≤ bb.size - bb.wrPtr) : Written bb p.bytes (p.run bb) := by
  obtain ⟨bb',same,ok',readable,rdPtr,wrPtr,size,stray⟩ := ByteBuffer.in_spec ok space
  have run : p.run bb = bb' := by
    cases p with
    | int w n => exact congrArg Prod.snd same
    | str s =>
      have word := ok.word
      have whole : u32 (cstr s).length = (cstr s).length := by
        simp only [Put.bytes] at space
        exact Nat.mod_eq_of_lt (by omega)
      simp only [Put.run,ByteBuffer.putStr,whole,List.take_length]
      exact congrArg Prod.snd same
  rw [run]
  exact ⟨ok',readable,rdPtr,wrPtr,size,stray⟩

theorem puts_run {bb : ByteBuffer} (ok : bb.Ok) {puts : List Put}
    (space : (bytesOf puts).length ≤ bb.size - bb.wrPtr) :
    Written bb (bytesOf puts) (puts.foldl Put.run bb) := by
  induction puts generalizing bb with
  | nil => exact ⟨ok,(List.append_nil _).symm,rfl,rfl,rfl,rfl⟩
  | cons p puts ih =>
    have split : bytesOf (p::puts) = p.bytes ++ bytesOf puts := rfl
    rw [split,List.length_append] at space
    have first := put_run ok (p := p) (by omega)
    have rest := ih first.ok (by rw [first.wrPtr,first.size]; omega)
    rw [split,List.foldl_cons]
    exact first.trans rest

/-- A scalar written with a type and read with it. -/
def back (ty : LuaValueType) (v : Value) : Value :=
  match ty with
  | .i8 => signed 1 (v.toInteger.toNat % 256^1)
  | .i16 => signed 2 (v.toInteger.toNat % 256^2)
  | .i32 => signed 4 (v.toInteger.toNat % 256^4)
  | .i64 => signed 8 (v.toInteger.toNat % 256^8)
  | .u8 => unsigned (v.toInteger.toNat % 256^1)
  | .u16 => unsigned (v.toInteger.toNat % 256^2)
  | .u32 => unsigned (v.toInteger.toNat % 256^4)
  | .u64 => unsigned (v.toInteger.toNat % 256^8)
  | .str => .str (v.toBytes.takeWhile (· ≠ 0))
  | .flt => .flt (BitVec.ofNat 64 (v.doubleBits.toNat % 256^8))
  | .bool => .bool ((if v.toBoolean then 1 else 0) % 256^1 != 0)
  | .nil | .Arr | .Hash | .Unknown => .nil

/-- The types `serialize_val` writes, and those `serialize_key_val` writes for a key. -/
def LuaValueType.isVal (ty : LuaValueType) : Prop :=
  ¬(ty.code < LuaValueType.i8.code ∨ ty.code > LuaValueType.Hash.code)

def LuaValueType.isKey (ty : LuaValueType) : Prop :=
  ¬(ty.code < LuaValueType.i8.code ∨ ty.code > LuaValueType.str.code)

instance (ty : LuaValueType) : Decidable ty.isVal := inferInstanceAs (Decidable (¬_))
instance (ty : LuaValueType) : Decidable ty.isKey := inferInstanceAs (Decidable (¬_))

variable (wild : Double → BitVec 64)

/-- `sub` is the image of a table one layer down. -/
def entityImage (sub : LuaValueType → Value → Entries) (ty : LuaValueType) (v : Value) : Value :=
  match ty with
  | .Arr => .table ⟨false,false,0⟩ (sub .Arr v)
  | .Hash => .table ⟨false,false,0⟩ (sub .Hash v)
  | ty => back ty v

def arrStep (sub : LuaValueType → Value → Entries) (v : Value) (s : Entries × Nat) :
    Entries × Nat :=
  if (getLuaType wild v).isVal then
    (rawset s.1 (.int (BitVec.ofNat 64 s.2)) (entityImage sub (getLuaType wild v) v),
      u32 (s.2+1))
  else s

def hashStep (sub : LuaValueType → Value → Entries) (e : Value × Value) (s : Entries × Nat) :
    Entries × Nat :=
  if (getLuaType wild e.1).isKey ∧ (getLuaType wild e.2).isVal then
    (rawset s.1 (entityImage sub (getLuaType wild e.1) e.1)
      (entityImage sub (getLuaType wild e.2) e.2),u32 (s.2+1))
  else s

/-- What comes back of a table, `room` layers above the depth that is cut off. -/
def image : Nat → LuaValueType → Value → Entries
  | 0, _, _ => []
  | room+1, .Arr, v => ((List.range v.shape.border).foldl (fun s i =>
      arrStep wild (image room) (rawget v.entries (.int (BitVec.ofNat 64 (i+1)))) s) ([],1)).1
  | room+1, .Hash, v => (v.entries.foldl (fun s e => hashStep wild (image room) e s) ([],1)).1
  | _+1, _, _ => []

variable (junk : Nat → Nat)

/-- With enough fuel, and whatever follows them, the bytes of a value are read as `v`. -/
def Decodes (ty : LuaValueType) (bs : Bytes) (v : Value) : Prop :=
  ∃ n, ∀ m, n ≤ m → ∀ wr r rest, Reader.At r wr (bs ++ rest) →
    ∃ r', deserializeEntity junk (deserializeTable junk m) ty r = some (.ok (v,r')) ∧
      r'.At wr rest

def Fills (ty : LuaValueType) (bs : Bytes) (es : Entries) : Prop :=
  ∃ n, ∀ m, n ≤ m → ∀ wr r rest, Reader.At r wr (bs ++ rest) →
    ∃ r', deserializeTable junk m ty [] r = some (.ok (es,r')) ∧ r'.At wr rest

def RoundReads (ty : LuaValueType) (b : UInt8) (bs : Bytes)
    (step : Entries × Nat → Entries × Nat) : Prop :=
  ∃ n, ∀ m, n ≤ m → ∀ wr r rest es idx, Reader.At r wr (bs ++ rest) →
    ∃ r', tableRound junk (deserializeTable junk m) ty idx b.toNat es r =
        some (.ok ((step (es,idx)).1,r')) ∧
      (step (es,idx)).2 = u32 (idx+1) ∧ r'.At wr rest

theorem decodes_int {ty : LuaValueType} {w : Nat} {f : Nat → Value}
    (read : ∀ sub r, deserializeEntity junk sub ty r = r.pushInt junk w f) (n : Nat) :
    Decodes junk ty (Bytes.le w n) (f (n % 256^w)) := by
  refine ⟨0,fun m _ wr r rest at_ => ⟨r.advance w,?_,?_⟩⟩
  · have got := Reader.getFresh_spec junk at_ (w := w) (by simp)
    rw [List.take_left' (Bytes.le_length w n),Bytes.ofLe_le] at got
    rw [read,Reader.pushInt,got]
  · have at' := at_.advance (n := w) (by simp)
    rwa [List.drop_left' (Bytes.le_length w n)] at at'

theorem decodes_str (s : Bytes) :
    Decodes junk .str (cstr s) (.str (s.takeWhile (· ≠ 0))) := by
  refine ⟨0,fun m _ wr r rest at_ => ?_⟩
  have plain : 0 ∉ s.takeWhile (· ≠ 0) := fun member => by
    simpa using List.all_eq_true.mp List.all_takeWhile 0 member
  have split : cstr s ++ rest = s.takeWhile (· ≠ 0) ++ 0 :: rest := by
    rw [cstr,List.append_assoc]
    rfl
  rw [split] at at_
  have left : (s.takeWhile (· ≠ 0) ++ 0 :: rest).drop ((s.takeWhile (· ≠ 0)).length + 1) =
      rest := by
    rw [← List.drop_drop,List.drop_left]
    rfl
  have at' := at_.advance (n := (s.takeWhile (· ≠ 0)).length + 1) (by simp)
  rw [left] at at'
  refine ⟨_,?_,at'⟩
  simp only [deserializeEntity,Reader.getStr_spec plain at_]

theorem decodes_scalar {ty : LuaValueType} (scalar : ty.isVal) (leaf : ¬ty.isTable)
    (sub : LuaValueType → Value → List Put) (v : Value) :
    Decodes junk ty (bytesOf (serializeEntity sub ty v)) (back ty v) := by
  have int : ∀ w f n, (∀ sub r, deserializeEntity junk sub ty r = r.pushInt junk w f) →
      Decodes junk ty (bytesOf [.int w n]) (f (n % 256^w)) := by
    intro w f n read
    have bytes : bytesOf [.int w n] = Bytes.le w n := List.append_nil _
    rw [bytes]
    exact decodes_int junk read n
  cases ty with
  | nil | Unknown => exact absurd scalar (by decide)
  | Arr => exact absurd (.inl rfl) leaf
  | Hash => exact absurd (.inr rfl) leaf
  | str =>
    have bytes : bytesOf (serializeEntity sub .str v) = cstr v.toBytes := List.append_nil _
    rw [bytes]
    exact decodes_str junk _
  | i8 => exact int 1 (signed 1) _ fun _ _ => rfl
  | i16 => exact int 2 (signed 2) _ fun _ _ => rfl
  | i32 => exact int 4 (signed 4) _ fun _ _ => rfl
  | i64 => exact int 8 (signed 8) _ fun _ _ => rfl
  | u8 => exact int 1 unsigned _ fun _ _ => rfl
  | u16 => exact int 2 unsigned _ fun _ _ => rfl
  | u32 => exact int 4 unsigned _ fun _ _ => rfl
  | u64 => exact int 8 unsigned _ fun _ _ => rfl
  | flt => exact int 8 (fun n => .flt (BitVec.ofNat 64 n)) _ fun _ _ => rfl
  | bool => exact int 1 (fun n => .bool (n != 0)) _ fun _ _ => rfl

theorem loop_reads {α : Type} {ty : LuaValueType} (xs : List α) (write : α → Bytes)
    (step : α → Entries × Nat → Entries × Nat)
    (each : ∀ x ∈ xs, (write x = [] ∧ ∀ s, step x s = s) ∨
      ∃ b bs, write x = b :: bs ∧ b ≠ 0 ∧ RoundReads junk ty b bs (step x)) :
    ∃ n, ∀ m k, n ≤ m → n ≤ k → ∀ wr r s old rest,
      Reader.At r wr (xs.flatMap write ++ 0 :: rest) →
      ∃ r', Loop.iterate (tableBody (tableRound junk (deserializeTable junk m) ty)) k
          (s.1,(r.getAgain old).2,(r.getAgain old).1,s.2) =
            some (.ok ((xs.foldl (fun s x => step x s) s).1,r')) ∧ r'.At wr rest := by
  induction xs with
  | nil =>
    refine ⟨1,fun m k _ le wr r s old rest at_ => ⟨r.advance 1,?_,Reader.At.next at_⟩⟩
    obtain ⟨k,rfl⟩ : ∃ j, k = j+1 := ⟨k-1,by omega⟩
    rw [Reader.getAgain_cons at_]
    exact Loop.iterate_leave k rfl
  | cons x xs ih =>
    obtain ⟨n,ih⟩ := ih fun y member => each y (.tail x member)
    rcases each x (.head xs) with ⟨none_,same⟩ | ⟨b,bs,some_,more,n',round⟩
    · refine ⟨n,fun m k lem lek wr r s old rest at_ => ?_⟩
      rw [List.flatMap_cons,none_,List.nil_append] at at_
      rw [List.foldl_cons,same]
      exact ih m k lem lek wr r s old rest at_
    · refine ⟨max n n' + 1,fun m k lem lek wr r s old rest at_ => ?_⟩
      obtain ⟨k,rfl⟩ : ∃ j, k = j+1 := ⟨k-1,by omega⟩
      rw [List.flatMap_cons,some_,List.cons_append,List.cons_append,List.append_assoc] at at_
      obtain ⟨r',read,count,at'⟩ :=
        round m (by omega) wr (r.advance 1).round _ s.1 s.2 at_.next.round
      rw [Reader.getAgain_cons at_,List.foldl_cons]
      rw [loop_again (byte_ne more) k read,← count]
      exact ih m k (by omega) (by omega) wr r' (step x s) b.toNat rest at'

theorem fills_of_rounds {α : Type} {ty : LuaValueType} (table : ty.isTable) (xs : List α)
    (write : α → Bytes) (step : α → Entries × Nat → Entries × Nat)
    (each : ∀ x ∈ xs, (write x = [] ∧ ∀ s, step x s = s) ∨
      ∃ b bs, write x = b :: bs ∧ b ≠ 0 ∧ RoundReads junk ty b bs (step x)) :
    Fills junk ty (xs.flatMap write ++ [0]) (xs.foldl (fun s x => step x s) ([],1)).1 := by
  obtain ⟨n,reads⟩ := loop_reads junk xs write step each
  refine ⟨n+1,fun m le wr r rest at_ => ?_⟩
  obtain ⟨m,rfl⟩ : ∃ j, m = j+1 := ⟨m-1,by omega⟩
  rw [List.append_assoc,List.singleton_append] at at_
  obtain ⟨b,tail,split⟩ : ∃ b tail, xs.flatMap write ++ 0 :: rest = b :: tail := by
    cases xs.flatMap write with
    | nil => exact ⟨_,_,rfl⟩
    | cons b tail => exact ⟨_,_,rfl⟩
  obtain ⟨r',read,at'⟩ := reads m (m+1) (by omega) (by omega) wr r.call ([],1) 0 rest at_.call
  rw [split] at at_
  rw [Reader.getAgain_cons at_.call] at read
  exact ⟨r',(table_loop junk table m at_ []).trans read,at'⟩

/-- What is written of a value is read as its image, if what is written of tables is. -/
theorem decodes_entity {sub : LuaValueType → Value → List Put}
    {img : LuaValueType → Value → Entries}
    (nested : ∀ ty v, ty.isTable → Fills junk ty (bytesOf (sub ty v)) (img ty v))
    {ty : LuaValueType} (val : ty.isVal) (v : Value) :
    Decodes junk ty (bytesOf (serializeEntity sub ty v)) (entityImage img ty v) := by
  have pushes : ∀ {ty}, ty.isTable → (∀ m r, deserializeEntity junk (deserializeTable junk m) ty r =
      pushTable (deserializeTable junk m ty [] r)) →
      Decodes junk ty (bytesOf (sub ty v)) (.table ⟨false,false,0⟩ (img ty v)) := by
    intro ty table entity
    obtain ⟨n,fills⟩ := nested ty v table
    refine ⟨n,fun m le wr r rest at_ => ?_⟩
    obtain ⟨r',read,at'⟩ := fills m le wr r rest at_
    exact ⟨r',by rw [entity,read]; rfl,at'⟩
  cases ty with
  | Arr => exact pushes (.inl rfl) fun _ _ => rfl
  | Hash => exact pushes (.inr rfl) fun _ _ => rfl
  | nil | Unknown => exact absurd val (by decide)
  | i8 | i16 | i32 | i64 | u8 | u16 | u32 | u64 | str | flt | bool =>
    exact decodes_scalar junk val (by rintro (no | no) <;> cases no) sub v

theorem byte_code (ty : LuaValueType) : (UInt8.ofNat ty.code).toNat = ty.code := by
  cases ty <;> rfl

theorem byte_nibbles (key val : LuaValueType) :
    (UInt8.ofNat ((key.code &&& 0x0F) <<< 4 ||| (val.code &&& 0x0F))).toNat =
      (key.code &&& 0x0F) <<< 4 ||| (val.code &&& 0x0F) ∧
    keyType ((key.code &&& 0x0F) <<< 4 ||| (val.code &&& 0x0F)) = key ∧
    valType ((key.code &&& 0x0F) <<< 4 ||| (val.code &&& 0x0F)) = val := by
  cases key <;> cases val <;> exact ⟨rfl,rfl,rfl⟩

theorem isVal_of_isKey {ty : LuaValueType} (key : ty.isKey) : ty.isVal ∧ ¬ty.isTable := by
  cases ty with
  | nil | flt | bool | Arr | Hash | Unknown => exact absurd key (by decide)
  | i8 | i16 | i32 | i64 | u8 | u16 | u32 | u64 | str =>
    exact ⟨by decide,by rintro (no | no) <;> cases no⟩

/-- A key that is written is no nil and no float when it comes back. -/
theorem keyImage {ty : LuaValueType} (key : ty.isKey) (img : LuaValueType → Value → Entries)
    (v : Value) : (entityImage img ty v).noKey = false := by
  cases ty with
  | nil | flt | bool | Arr | Hash | Unknown => exact absurd key (by decide)
  | i8 | i16 | i32 | i64 | u8 | u16 | u32 | u64 | str => rfl

section
variable {sub : LuaValueType → Value → List Put} {img : LuaValueType → Value → Entries}
  (nested : ∀ ty v, ty.isTable → Fills junk ty (bytesOf (sub ty v)) (img ty v))
include nested

theorem val_written (v : Value) :
    (bytesOf (serializeVal sub (getLuaType wild v) v) = [] ∧ ∀ s, arrStep wild img v s = s) ∨
      ∃ b bs, bytesOf (serializeVal sub (getLuaType wild v) v) = b :: bs ∧ b ≠ 0 ∧
        RoundReads junk .Arr b bs (arrStep wild img v) := by
  by_cases val : (getLuaType wild v).isVal
  · right
    generalize same : getLuaType wild v = ty at val
    refine ⟨UInt8.ofNat ty.code,bytesOf (serializeEntity sub ty v),?_,?_,?_⟩
    · rw [serializeVal,if_neg val]
      rfl
    · intro zero
      have code := byte_code ty
      rw [zero] at code
      refine val (.inl ?_)
      rw [← code]
      decide
    · obtain ⟨n,decodes⟩ := decodes_entity junk nested val v
      refine ⟨n,fun m le wr r rest es idx at_ => ?_⟩
      obtain ⟨r',read,at'⟩ := decodes m le wr r rest at_
      refine ⟨r',?_,?_,at'⟩
      · simp only [tableRound,arrRound,byte_code,LuaValueType.ofCode_code,read,arrStep,same,
          if_pos val]
      · simp only [arrStep,same,if_pos val]
  · left
    exact ⟨by rw [serializeVal,if_pos (not_not.mp val)]; rfl,fun s => by rw [arrStep,if_neg val]⟩

theorem keyVal_written (e : Value × Value) :
    (bytesOf (serializeKeyVal sub (getLuaType wild e.1) e.1 (getLuaType wild e.2) e.2) = [] ∧
      ∀ s, hashStep wild img e s = s) ∨
      ∃ b bs, bytesOf (serializeKeyVal sub (getLuaType wild e.1) e.1 (getLuaType wild e.2) e.2) =
          b :: bs ∧ b ≠ 0 ∧ RoundReads junk .Hash b bs (hashStep wild img e) := by
  by_cases key : (getLuaType wild e.1).isKey
  case neg =>
    left
    exact ⟨by rw [serializeKeyVal,if_pos (not_not.mp key)]; rfl,
      fun s => by rw [hashStep,if_neg fun both => key both.1]⟩
  by_cases val : (getLuaType wild e.2).isVal
  case neg =>
    left
    exact ⟨by rw [serializeKeyVal,if_neg key,if_pos (not_not.mp val)]; rfl,
      fun s => by rw [hashStep,if_neg fun both => val both.2]⟩
  right
  generalize sameKey : getLuaType wild e.1 = tyKey at key
  generalize sameVal : getLuaType wild e.2 = tyVal at val
  obtain ⟨byte,isKey,isVal⟩ := byte_nibbles tyKey tyVal
  refine ⟨UInt8.ofNat ((tyKey.code &&& 0x0F) <<< 4 ||| (tyVal.code &&& 0x0F)),
    bytesOf (serializeEntity sub tyKey e.1) ++ bytesOf (serializeEntity sub tyVal e.2),?_,?_,?_⟩
  · rw [serializeKeyVal,if_neg key,if_neg val,← bytesOf_append]
    rfl
  · intro zero
    rw [zero] at byte
    rw [← byte] at isVal
    rw [← isVal] at val
    exact absurd val (by decide)
  · obtain ⟨n,decodesKey⟩ := decodes_entity junk nested (isVal_of_isKey key).1 e.1
    obtain ⟨n',decodesVal⟩ := decodes_entity junk nested val e.2
    refine ⟨max n n',fun m le wr r rest es idx at_ => ?_⟩
    rw [List.append_assoc] at at_
    obtain ⟨r1,readKey,at1⟩ := decodesKey m (by omega) wr r _ at_
    obtain ⟨r2,readVal,at2⟩ := decodesVal m (by omega) wr r1 rest at1
    refine ⟨r2,?_,?_,at2⟩
    · simp only [tableRound,hashRound,byte,isKey,isVal,readKey,readVal,keyImage key,hashStep,
        sameKey,sameVal,if_pos (And.intro key val)]
      rfl
    · simp only [hashStep,sameKey,sameVal,if_pos (And.intro key val)]

end

theorem table_fills (room : Nat) (ty : LuaValueType) (v : Value) (table : ty.isTable) :
    Fills junk ty (bytesOf (serializeTable wild room ty v)) (image wild room ty v) := by
  induction room generalizing ty v with
  | zero =>
    exact fills_of_rounds junk table ([] : List Value) (fun _ => []) (fun _ s => s)
      (fun _ member => nomatch member)
  | succ room ih =>
    rcases table with rfl | rfl
    · rw [serializeTable,bytesOf_append,bytesOf_flatMap]
      exact fills_of_rounds junk (.inl rfl) _ _ _ fun i _ => val_written wild junk ih _
    · rw [serializeTable,bytesOf_append,bytesOf_flatMap]
      exact fills_of_rounds junk (.inr rfl) _ _ _ fun e _ => keyVal_written wild junk ih e

theorem typeTable_isTable (v : Value) : (getLuaTypeTable v).isTable := by
  unfold getLuaTypeTable
  dsimp only
  split
  · exact .inl rfl
  split
  · exact .inr rfl
  split
  · exact .inl rfl
  · exact .inr rfl

/-- The table that comes back. -/
def tableImage (v : Value) : Value :=
  .table ⟨false,false,0⟩ (image wild (maxDepth-1) (getLuaTypeTable v) v)

theorem serialize_written {v : Value} (table : v.isTable = true) {bb : ByteBuffer} (ok : bb.Ok)
    (space : (bytesOf (encode wild v)).length ≤ bb.free) :
    (Serialize wild v bb).1 = true ∧
      Written bb (bytesOf (encode wild v)) (Serialize wild v bb).2 := by
  rw [ByteBuffer.free_eq ok] at space
  have same : Serialize wild v bb = (true,(encode wild v).foldl Put.run bb) := by
    rw [Serialize,table]
    rfl
  rw [same]
  exact ⟨rfl,puts_run ok space⟩

theorem deserialize_image (v : Value) {later : ByteBuffer} (ok : later.Ok) {rest : Bytes}
    (written : later.readable = bytesOf (encode wild v) ++ rest) :
    ∃ n, ∀ m, n ≤ m → ∃ r, Deserialize junk m later = some (.ok (some (tableImage wild v),r)) ∧
      r.At later.wrPtr rest := by
  have table := typeTable_isTable v
  obtain ⟨n,fills⟩ := table_fills wild junk (maxDepth-1) _ v table
  refine ⟨n,fun m le => ?_⟩
  have at_ := start_at ok
  rw [written] at at_
  have code := congrArg LuaValueType.ofCode (byte_code (getLuaTypeTable v))
  rw [LuaValueType.ofCode_code] at code
  obtain ⟨r,read,at'⟩ := fills m le later.wrPtr (start later) rest at_.next
  have first := deserialize_table junk at_ (by rw [code]; exact table) m
  rw [code,read] at first
  exact ⟨r,first,at'⟩

/-- `Serialize` has written a table that `Deserialize` stops at the end of, whatever is
written after it. -/
structure Delimited (v : Value) (bb : ByteBuffer) : Prop where
  wrote : (Serialize wild v bb).1 = true
  ok : (Serialize wild v bb).2.Ok
  appends : bb.readable <+: (Serialize wild v bb).2.readable
  reads : ∀ (later : ByteBuffer) (after : Bytes), later.Ok →
    later.readable = (Serialize wild v bb).2.readable.drop bb.readable.length ++ after →
    ∃ n, ∀ m, n ≤ m → ∃ out r, Deserialize junk m later = some (.ok (some out,r)) ∧
      r.bb.rdPtr = later.rdPtr + ((Serialize wild v bb).2.wrPtr - bb.wrPtr) ∧
      r.bb.wrPtr = later.wrPtr ∧ r.bb.readable = after

/-- The encoding of a table, of any depth and with whatever in it, says where it ends. -/
theorem table_delimited {v : Value} (table : v.isTable = true) {bb : ByteBuffer} (ok : bb.Ok)
    (space : (bytesOf (encode wild v)).length ≤ bb.free) : Delimited wild junk v bb := by
  obtain ⟨wrote,written⟩ := serialize_written wild table ok space
  refine ⟨wrote,written.ok,⟨_,written.readable.symm⟩,fun later after okLater readable => ?_⟩
  rw [written.readable,List.drop_left] at readable
  obtain ⟨n,reads⟩ := deserialize_image wild junk v okLater readable
  refine ⟨n,fun m le => ?_⟩
  obtain ⟨r,read,at_⟩ := reads m le
  refine ⟨_,r,read,?_,at_.wr,at_.readable⟩
  have before := ByteBuffer.readable_length okLater
  have after_ := ByteBuffer.readable_length at_.ok
  have order := okLater.order
  have order' := at_.ok.order
  rw [readable,List.length_append] at before
  rw [at_.readable,at_.wr] at after_
  rw [at_.wr] at order'
  rw [written.wrPtr]
  omega

theorem table_delimited_nested :
    Delimited (fun _ => 0) (fun _ => 0)
      (.table ⟨false,false,0⟩ [(.str [97],.other 0),
        (.int 7,.table ⟨false,false,1⟩ [(.int 1,.bool true)])])
      (ByteBuffer.new 16 (some (List.replicate 16 0))) :=
  table_delimited _ _ rfl (by decide) (by decide +kernel)

end Pworld.Lua
