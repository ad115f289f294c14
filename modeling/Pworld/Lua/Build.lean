import Pworld.Lua.Grammar
import Pworld.Lua.Heap
import Pworld.Support.Exec

/-! `LuaTable::Deserialize` on the Lua stack, on which the caller has values of its own.
How the code can be left, with a stack that is short of a value too, is in the model: what
`CORE_ASSERT(false)` does depends on the build. -/
namespace Pworld.Lua.Build

structure Machine where
  reader : Reader
  stack : List Slot
  heap : Nat → List (Slot × Slot)
  next : Nat  -- where the next table will be
  peak : Nat  -- the most slots that the stack has had
  unread : Bool  -- a local was used that its `>>` had not set

inductive Halt where
  | raised  -- an error of Lua
  | crashed  -- `CORE_ASSERT(false)` where assertions are compiled in
  | broken  -- an index where no table is
  | pending
  deriving DecidableEq,Repr

abbrev Code (β : Type) := Exec Machine Halt β

/-- Lua raises an error where such a key is assigned to. -/
def noKey : Slot → Bool
  | .nil => true
  | .flt bits => Double.ofBits bits == .nan
  | _ => false

/-- A float that is an integer indexes as that integer. -/
def normKey : Slot → Slot
  | .flt bits =>
    match (Double.ofBits bits).int? with
    | some n => if -2^63 ≤ n ∧ n < 2^63 then .int (BitVec.ofInt 64 n) else .flt bits
    | none => .flt bits
  | k => k

def rawset (es : List (Slot × Slot)) (k v : Slot) : List (Slot × Slot) :=
  if v = .nil then es.filter fun e => e.1 ≠ normKey k
  else if es.any fun e => e.1 = normKey k then
    es.map fun e => if e.1 = normKey k then (e.1,v) else e
  else es ++ [(normKey k,v)]

variable (debug : Bool) (junk : Nat → Nat)

def push (v : Slot) : Code Unit := fun s =>
  (.ok (),{s with stack := v::s.stack, peak := max s.peak (s.stack.length+1)})

def lua_newtable : Code Unit := fun s =>
  push (.table s.next) {s with heap := Function.update s.heap s.next [], next := s.next+1}

def Machine.assign (s : Machine) (a : Nat) (k v : Slot) (stack : List Slot) : Machine :=
  {s with heap := Function.update s.heap a (rawset (s.heap a) k v), stack := stack}

/-- `lua_rawseti(L, -2, idx)`. -/
def lua_rawseti (idx : Nat) : Code Unit := fun s =>
  match s.stack with
  | v::.table a::rest => (.ok (),s.assign a (.int (BitVec.ofNat 64 idx)) v (.table a::rest))
  | _ => (.error .broken,s)

/-- `lua_rawset(L, -3)`. -/
def lua_rawset : Code Unit := fun s =>
  match s.stack with
  | v::k::.table a::rest =>
    if noKey k then (.error .raised,s) else (.ok (),s.assign a k v (.table a::rest))
  | _ => (.error .broken,s)

/-- `bb >> x` into a local of `w` bytes that is not assigned yet. -/
def getFresh (w : Nat) : Code Nat := fun s =>
  (.ok (s.reader.getFresh junk w).1,{s with
    reader := (s.reader.getFresh junk w).2
    unread := s.unread || (s.reader.bb.getInt w).1.isNone})

def getAgain (ty : Nat) : Code Nat := fun s =>
  (.ok (s.reader.getAgain ty).1,{s with
    reader := (s.reader.getAgain ty).2
    unread := s.unread || (s.reader.bb.getInt 1).1.isNone})

def getStr : Code Bytes := fun s =>
  (.ok s.reader.getStr.1,{s with
    reader := s.reader.getStr.2
    unread := s.unread || s.reader.bb.getStr.1.isNone})

/-- `CORE_ASSERT(false)`. -/
def coreAssertFalse : Code Unit := if debug then Exec.stop .crashed else pure ()

def signed (w n : Nat) : Slot := .int ((BitVec.ofNat (8*w) n).signExtend 64)
def unsigned (n : Nat) : Slot := .int (BitVec.ofNat 64 n)

def pushRead (w : Nat) (f : Nat → Slot) : Code Unit := do
  let n ← getFresh junk w
  push (f n)

/-- `sub` is `deserialize_table`. -/
def deserializeEntity (sub : LuaValueType → Code Unit) : LuaValueType → Code Unit
  | .i8 => pushRead junk 1 (signed 1)
  | .i16 => pushRead junk 2 (signed 2)
  | .i32 => pushRead junk 4 (signed 4)
  | .i64 => pushRead junk 8 (signed 8)
  | .u8 => pushRead junk 1 unsigned
  | .u16 => pushRead junk 2 unsigned
  | .u32 => pushRead junk 4 unsigned
  | .u64 => pushRead junk 8 unsigned
  | .str => do
    let str ← getStr
    push (.str str)
  | .flt => pushRead junk 8 fun n => .flt (BitVec.ofNat 64 n)
  | .bool => pushRead junk 1 fun n => .bool (n != 0)
  | .Arr => do
    lua_newtable
    sub .Arr
  | .Hash => do
    lua_newtable
    sub .Hash
  | .nil | .Unknown => coreAssertFalse debug

/-- A round of the loop over a table, without the read of the next type. -/
def tableRound (sub : LuaValueType → Code Unit) : LuaValueType → Nat → Nat → Code Unit
  | .Arr, idx, ty => do
    deserializeEntity debug junk sub (.ofCode ty)
    lua_rawseti idx
  | .Hash, _, ty => do
    deserializeEntity debug junk sub (keyType ty)
    deserializeEntity debug junk sub (valType ty)
    lua_rawset
  | _, _, _ => pure ()

-- the loop over `LVT_Hash` has no `idx`, and its rounds do not look at it
def tableBody (round : Nat → Nat → Code Unit) : Nat × Nat → Code (Nat × Nat)
  | (ty,idx) => do
    round idx ty
    let ty ← getAgain ty
    pure (ty,Net.u32 (idx+1))

def more (l : Nat × Nat) : Bool := l.1 != LuaValueType.nil.code

def tableCall (sub : LuaValueType → Code Unit) (n : Nat) (type : LuaValueType) : Code Unit :=
  if type = .Arr ∨ type = .Hash then do
    let ty ← getFresh junk 1
    let _ ← Exec.loop .pending more (tableBody (tableRound debug junk sub type)) n (ty,1)
    pure ()
  else pure ()

/-- In `n` nested calls of at most `n` rounds. -/
def deserializeTable : Nat → LuaValueType → Code Unit
  | 0, _ => Exec.stop .pending
  | n+1, type => tableCall debug junk (deserializeTable n) (n+1) type

-- `lua_checkstack` makes room for `2*maxDepth+1` slots and changes nothing
def Deserialize (n : Nat) : Code Bool := do
  let ty ← getFresh junk 1
  if LuaValueType.ofCode ty = .Arr ∨ LuaValueType.ofCode ty = .Hash then
    lua_newtable
    deserializeTable debug junk n (.ofCode ty)
    pure true
  else pure false

/-- Where `Deserialize` is called. -/
def start (bb : ByteBuffer) (stack : List Slot) (heap : Nat → List (Slot × Slot)) (next : Nat) :
    Machine := ⟨⟨bb,0,0,0⟩,stack,heap,next,stack.length,false⟩

/-- No value is pushed for such a code. -/
def isBlank (ty : LuaValueType) : Prop := ty = .nil ∨ ty = .Unknown

theorem kinds (ty : LuaValueType) :
    (∃ w, ty.width = some w) ∨ ty = .str ∨ ty.isTable ∨ isBlank ty := by
  cases ty with
  | str => exact .inr (.inl rfl)
  | Arr => exact .inr (.inr (.inl (.inl rfl)))
  | Hash => exact .inr (.inr (.inl (.inr rfl)))
  | nil => exact .inr (.inr (.inr (.inl rfl)))
  | Unknown => exact .inr (.inr (.inr (.inr rfl)))
  | _ => exact .inl ⟨_,rfl⟩

section Entities

variable {ty : LuaValueType}

theorem entity_scalar {w : Nat} (width : ty.width = some w) : ∃ f : Nat → Slot,
    (∀ sub, deserializeEntity debug junk sub ty = pushRead junk w f) ∧
    ∀ n, noKey (f n) = true ↔ ty = .flt ∧ (Value.flt (BitVec.ofNat 64 n)).noKey = true := by
  cases ty with
  | nil | str | Arr | Hash | Unknown => cases width
  | flt =>
    cases Option.some.inj width
    exact ⟨fun n => .flt (BitVec.ofNat 64 n),fun _ => rfl,fun _ => by simp [noKey,Value.noKey]⟩
  | bool =>
    cases Option.some.inj width
    exact ⟨fun n => .bool (n != 0),fun _ => rfl,fun _ => by simp [noKey]⟩
  | _ =>
    cases Option.some.inj width
    exact ⟨_,fun _ => rfl,fun _ => by simp [signed,unsigned,noKey]⟩

variable (sub : LuaValueType → Code Unit)

theorem entity_table (table : ty.isTable) : deserializeEntity debug junk sub ty = (do
    lua_newtable
    sub ty) := by
  rcases table with rfl | rfl
  · rfl
  · rfl

theorem entity_blank (blank : isBlank ty) :
    deserializeEntity debug junk sub ty = coreAssertFalse debug := by
  rcases blank with rfl | rfl
  · rfl
  · rfl

end Entities

section Steps

variable {s : Machine} {wr : Nat} {bs : Bytes} (at_ : s.reader.At wr bs)
include at_

theorem getFresh_spec {w : Nat} (le : w ≤ bs.length) : getFresh junk w s =
    (.ok (Bytes.ofLe (bs.take w)),{s with reader := s.reader.advance w}) := by
  simp only [getFresh,Reader.getFresh_spec junk at_ le,Reader.getInt_spec at_ le,
    Option.isNone_some,Bool.or_false]

theorem getFresh_first {b : UInt8} {tail : Bytes} (some_ : bs = b::tail) :
    getFresh junk 1 s = (.ok b.toNat,{s with reader := s.reader.advance 1}) := by
  subst some_
  have one : 1 ≤ (b::tail).length := Nat.succ_le_succ (Nat.zero_le _)
  have byte : Bytes.ofLe ((b::tail).take 1) = b.toNat := Reader.ofLe_one b
  rw [getFresh_spec junk at_ one,byte]

theorem getFresh_short {w : Nat} (short : bs.length < w) : getFresh junk w s =
    (.ok (junk s.reader.drawn % 256^w),{s with
      reader := {s.reader with drawn := s.reader.drawn + 1}, unread := true}) := by
  simp only [getFresh,Reader.getFresh_short junk at_ short,Reader.getInt_short at_ short,
    Option.isNone_none,Bool.or_true]

theorem getAgain_nil (empty : bs = []) (ty : Nat) :
    getAgain ty s = (.ok ty,{s with unread := true}) := by
  subst empty
  have short : ([] : Bytes).length < 1 := Nat.zero_lt_one
  simp only [getAgain,Reader.getAgain_nil at_,Reader.getInt_short at_ short,Option.isNone_none,
    Bool.or_true]

theorem getAgain_cons {b : UInt8} {tail : Bytes} (some_ : bs = b::tail) (ty : Nat) :
    getAgain ty s = (.ok b.toNat,{s with reader := s.reader.advance 1}) := by
  subst some_
  have le : 1 ≤ (b::tail).length := Nat.succ_le_succ (Nat.zero_le _)
  simp only [getAgain,Reader.getAgain_cons at_,Reader.getInt_spec at_ le,Option.isNone_some,
    Bool.or_false]

theorem at_str {str rest : Bytes} (same : bs = str ++ 0::rest) :
    (s.reader.advance (str.length + 1)).At wr rest := by
  subst same
  have left : (str ++ 0::rest).drop (str.length + 1) = rest := by
    rw [← List.drop_drop,List.drop_left]
    rfl
  have at' := at_.advance (n := str.length + 1) (by simp)
  rwa [left] at at'

theorem at_stray (stray : Bool) :
    Reader.At {s.reader with bb := {s.reader.bb with stray := stray}} wr bs :=
  ⟨⟨at_.ok.order,at_.ok.within,at_.ok.word,at_.ok.fits,at_.ok.small⟩,at_.wr,at_.readable⟩

theorem getStr_spec {str rest : Bytes} (plain : 0 ∉ str) (same : bs = str ++ 0::rest) :
    getStr s = (.ok str,{s with reader := s.reader.advance (str.length + 1)}) := by
  subst same
  have read := ByteBuffer.getStr_spec at_.ok plain at_.readable
  simp only [getStr,Reader.getStr_spec plain at_,read,Option.isNone_some,Bool.or_false]

theorem getStr_none (endless : 0 ∉ bs) : ∃ stray, getStr s = (.ok [],{s with
    reader := {s.reader with bb := {s.reader.bb with stray := stray}}, unread := true}) := by
  obtain ⟨stray,none_⟩ := ByteBuffer.getStr_none at_.ok (by rwa [at_.readable])
  refine ⟨stray,?_⟩
  simp only [getStr,Reader.getStr,none_,Option.isNone_none,Bool.or_true]

end Steps

theorem rawseti_back {idx : Nat} {s t : Machine} (ran : lua_rawseti idx s = (.ok (),t)) :
    ∃ v, s.stack = v::t.stack := by
  unfold lua_rawseti at ran
  split at ran
  next v a below top =>
    cases ran
    exact ⟨v,top⟩
  next => cases ran

theorem rawset_back {s t : Machine} (ran : lua_rawset s = (.ok (),t)) :
    ∃ v k, s.stack = v::k::t.stack ∧ ¬noKey k = true := by
  unfold lua_rawset at ran
  split at ran
  next v k a below top =>
    split at ran
    next => cases ran
    next fine =>
      cases ran
      exact ⟨v,k,top,fine⟩
  next => cases ran

/-- What an assignment leaves as it was. -/
structure Assigned (s t : Machine) : Prop where
  reader : t.reader = s.reader
  unread : t.unread = s.unread
  peak : t.peak = s.peak

theorem rawseti_assigned (idx : Nat) : Exec.Keeps Assigned (lua_rawseti idx) := by
  intro s
  unfold lua_rawseti
  split
  · exact ⟨rfl,rfl,rfl⟩
  · exact ⟨rfl,rfl,rfl⟩

theorem rawset_assigned : Exec.Keeps Assigned lua_rawset := by
  intro s
  unfold lua_rawset
  split
  · split
    · exact ⟨rfl,rfl,rfl⟩
    · exact ⟨rfl,rfl,rfl⟩
  · exact ⟨rfl,rfl,rfl⟩

/-- What only grows: the reads that failed and the height that was reached. -/
structure Onward (s t : Machine) : Prop where
  unread : s.unread = true → t.unread = true
  peak : s.peak ≤ t.peak

namespace Onward

theorem refl (s : Machine) : Onward s s := ⟨id,Nat.le_refl _⟩

theorem trans (s t u : Machine) (first : Onward s t) (second : Onward t u) : Onward s u :=
  ⟨second.unread ∘ first.unread,first.peak.trans second.peak⟩

theorem push (v : Slot) : Exec.Keeps Onward (push v) := fun _ => ⟨id,Nat.le_max_left _ _⟩

theorem newtable : Exec.Keeps Onward lua_newtable := fun _ => ⟨id,Nat.le_max_left _ _⟩

theorem reads {s : Machine} {r : Reader} {b : Bool} :
    Onward s {s with reader := r, unread := s.unread || b} :=
  ⟨fun before => by rw [before,Bool.true_or],Nat.le_refl _⟩

theorem pushRead (w : Nat) (f : Nat → Slot) : Exec.Keeps Onward (pushRead junk w f) :=
  Exec.keeps_bind trans (fun _ => reads) fun _ => push _

theorem assigned {m : Code Unit} (keeps : Exec.Keeps Assigned m) : Exec.Keeps Onward m := by
  intro s
  obtain ⟨_,unread,peak⟩ := keeps s
  exact ⟨unread.trans,Nat.le_of_eq peak.symm⟩

theorem rawseti (idx : Nat) : Exec.Keeps Onward (lua_rawseti idx) := assigned (rawseti_assigned idx)

theorem rawset : Exec.Keeps Onward lua_rawset := assigned rawset_assigned

variable {sub : LuaValueType → Code Unit}

theorem entity (nested : ∀ ty, Exec.Keeps Onward (sub ty)) (ty : LuaValueType) :
    Exec.Keeps Onward (deserializeEntity debug junk sub ty) := by
  rcases kinds ty with ⟨w,width⟩ | rfl | table | blank
  · obtain ⟨f,same,_⟩ := entity_scalar debug junk width
    rw [same]
    exact pushRead junk w f
  · exact Exec.keeps_bind trans (fun _ => reads) fun _ => push _
  · rw [entity_table debug junk sub table]
    exact Exec.keeps_bind trans newtable fun _ => nested ty
  · rw [entity_blank debug junk sub blank,coreAssertFalse]
    split
    · exact Exec.keeps_stop refl _
    · exact Exec.keeps_pure refl _

theorem round (nested : ∀ ty, Exec.Keeps Onward (sub ty)) (type : LuaValueType) (idx ty : Nat) :
    Exec.Keeps Onward (tableRound debug junk sub type idx ty) := by
  cases type with
  | Arr => exact Exec.keeps_bind trans (entity debug junk nested _) fun _ => rawseti idx
  | Hash =>
    apply Exec.keeps_bind trans (entity debug junk nested _)
    intro _
    exact Exec.keeps_bind trans (entity debug junk nested _) fun _ => rawset
  | _ => exact Exec.keeps_pure refl _

theorem loop {round : Nat → Nat → Code Unit} (rounds : ∀ idx ty, Exec.Keeps Onward (round idx ty))
    (n : Nat) (l : Nat × Nat) :
    Exec.Keeps Onward (Exec.loop .pending more (tableBody round) n l) := by
  apply Exec.keeps_loop refl trans
  intro l
  apply Exec.keeps_bind trans (rounds _ _)
  intro _
  exact Exec.keeps_bind trans (fun _ => reads) fun _ => Exec.keeps_pure refl _

theorem table (n : Nat) (type : LuaValueType) :
    Exec.Keeps Onward (deserializeTable debug junk n type) := by
  induction n generalizing type with
  | zero => exact Exec.keeps_stop refl _
  | succ n ih =>
    rw [deserializeTable,tableCall]
    split
    · apply Exec.keeps_bind trans (fun _ => reads)
      intro _
      apply Exec.keeps_bind trans (loop (round debug junk ih type) _ _)
      intro _
      exact Exec.keeps_pure refl _
    · exact Exec.keeps_pure refl _

end Onward

/-- More fuel changes nothing once there is enough. -/
theorem table_fueled {n k : Nat} (le : n ≤ k) (type : LuaValueType) :
    Exec.Fueled .pending (deserializeTable debug junk n type)
      (deserializeTable debug junk k type) := by
  induction n generalizing k type with
  | zero => exact fun _ => .inl rfl
  | succ n ih =>
    obtain ⟨k,rfl⟩ : ∃ j, k = j+1 := ⟨k-1,by omega⟩
    have nested := ih (by omega : n ≤ k)
    have entity (ty : LuaValueType) : Exec.Fueled .pending
        (deserializeEntity debug junk (deserializeTable debug junk n) ty)
        (deserializeEntity debug junk (deserializeTable debug junk k) ty) := by
      cases ty with
      | Arr => exact .bind (.refl _) fun _ => nested .Arr
      | Hash => exact .bind (.refl _) fun _ => nested .Hash
      | _ => exact .refl _
    have round (idx ty : Nat) : Exec.Fueled .pending
        (tableRound debug junk (deserializeTable debug junk n) type idx ty)
        (tableRound debug junk (deserializeTable debug junk k) type idx ty) := by
      cases type with
      | Arr => exact .bind (entity _) fun _ => .refl _
      | Hash => exact .bind (entity _) fun _ => .bind (entity _) fun _ => .refl _
      | _ => exact .refl _
    rw [deserializeTable,deserializeTable,tableCall,tableCall]
    split
    · apply Exec.Fueled.bind (.refl _)
      intro ty
      apply Exec.Fueled.bind _ fun _ => .refl _
      apply Exec.Fueled.loop _ le
      intro l
      exact .bind (round _ _) fun _ => .refl _
    · exact .refl _

theorem Deserialize_fueled {n k : Nat} (le : n ≤ k) :
    Exec.Fueled .pending (Deserialize debug junk n) (Deserialize debug junk k) := by
  apply Exec.Fueled.bind (.refl _)
  intro ty
  split
  · apply Exec.Fueled.bind (.refl _)
    intro _
    exact .bind (table_fueled debug junk le _) fun _ => .refl _
  · exact .refl _

/-- What the code leaves when it returns is at most `k` slots more, `j` of which are popped. -/
def Adds (j k : Nat) {β : Type} (m : Code β) : Prop :=
  ∀ s b t, m s = (.ok b,t) → t.stack.length + j ≤ s.stack.length + k

namespace Adds

variable {β γ : Type} {m : Code β} {f : β → Code γ} {i j k l : Nat}

theorem pure (b : β) : Adds 0 0 (Pure.pure b : Code β) := by
  intro s c t ran
  cases ran
  exact Nat.le_refl _

theorem bind (first : Adds i j m) (rest : ∀ b, Adds k l (f b)) : Adds (i+k) (j+l) (m >>= f) := by
  intro s c t ran
  obtain ⟨b,u,ran₁,ran₂⟩ := Exec.bind_back ran
  have before := first s b u ran₁
  have after := rest b u c t ran₂
  omega

theorem then_ (first : Adds 0 0 m) (rest : ∀ b, Adds 0 0 (f b)) : Adds 0 0 (m >>= f) :=
  bind first rest

theorem weaken (adds : Adds i j m) (le : k + j ≤ i + l) : Adds k l m := by
  intro s b t ran
  have := adds s b t ran
  omega

theorem push (v : Slot) : Adds 0 1 (push v) := by
  intro s b t ran
  cases ran
  exact Nat.le_refl _

theorem newtable : Adds 0 1 lua_newtable := by
  intro s b t ran
  cases ran
  exact Nat.le_refl _

theorem getFresh (w : Nat) : Adds 0 0 (getFresh junk w) := by
  intro s b t ran
  cases ran
  exact Nat.le_refl _

theorem rawseti (idx : Nat) : Adds 1 0 (lua_rawseti idx) := by
  intro s b t ran
  obtain ⟨v,stack⟩ := rawseti_back ran
  rw [stack,List.length_cons]

theorem rawset : Adds 2 0 lua_rawset := by
  intro s b t ran
  obtain ⟨v,k,stack,_⟩ := rawset_back ran
  rw [stack,List.length_cons,List.length_cons]

variable {sub : LuaValueType → Code Unit}

theorem entity (nested : ∀ ty, Adds 0 0 (sub ty)) (ty : LuaValueType) :
    Adds 0 1 (deserializeEntity debug junk sub ty) := by
  rcases kinds ty with ⟨w,width⟩ | rfl | table | blank
  · obtain ⟨f,same,_⟩ := entity_scalar debug junk width
    rw [same]
    exact bind (getFresh junk w) fun _ => push _
  · intro s b t ran
    cases ran
    exact Nat.le_refl _
  · rw [entity_table debug junk sub table]
    exact bind newtable fun _ => nested ty
  · rw [entity_blank debug junk sub blank,coreAssertFalse]
    split
    · intro s b t ran
      cases ran
    · exact weaken (pure _) (by omega)

theorem round (nested : ∀ ty, Adds 0 0 (sub ty)) (type : LuaValueType) (idx ty : Nat) :
    Adds 0 0 (tableRound debug junk sub type idx ty) := by
  have one (ty : LuaValueType) := entity debug junk nested ty
  cases type with
  | Arr => exact weaken (bind (one _) fun _ => rawseti idx) (by omega)
  | Hash => exact weaken (bind (one _) fun _ => bind (one _) fun _ => rawset) (by omega)
  | _ => exact pure _

theorem loop {round : Nat → Nat → Code Unit} (rounds : ∀ idx ty, Adds 0 0 (round idx ty)) (n : Nat)
    (l : Nat × Nat) : Adds 0 0 (Exec.loop .pending more (tableBody round) n l) := by
  induction n generalizing l with
  | zero =>
    intro s b t ran
    cases ran
  | succ n ih =>
    unfold Exec.loop
    split
    · apply then_ _ ih
      apply then_ (rounds _ _)
      intro _ s b t ran
      cases ran
      exact Nat.le_refl _
    · exact pure _

theorem table (n : Nat) (type : LuaValueType) : Adds 0 0 (deserializeTable debug junk n type) := by
  induction n generalizing type with
  | zero =>
    intro s b t ran
    cases ran
  | succ n ih =>
    rw [deserializeTable,tableCall]
    split
    · apply then_ (getFresh junk 1)
      intro ty
      exact then_ (loop (round debug junk ih type) _ _) fun _ => pure _
    · exact pure _

end Adds

end Pworld.Lua.Build
