import Pworld.Script.ScriptParam

/-! `ScriptParam` written into another buffer and read back from it: a size, then the
bytes. What `In` and `ReadOffset` refuse is not looked at, and that the size lies inside
the buffer it came from is only asserted. -/
namespace Pworld

open Net

namespace ByteBuffer

/-- `In(other.ReadPtr(),size)`. -/
def inFrom (b other : ByteBuffer) (size : Nat) : ByteBuffer × ByteBuffer :=
  let data := (other.load other.rdPtr size).rightpad size 0
  ((b.In data).2,{other with
    stray := other.stray || ((b.In data).1 && !other.inside other.rdPtr size)})

/-- There are `n` bytes of memory after the write cursor, inside the capacity. -/
structure Room (b : ByteBuffer) (n : Nat) : Prop where
  order : b.rdPtr ≤ b.wrPtr
  room : b.wrPtr + n ≤ b.size
  word : b.size < 2^32
  memory : b.inside 0 (b.wrPtr + n) = true
  small : ∀ block ∈ b.buffer, block.mem.length < 2^32

variable {b : ByteBuffer}

theorem Room.ok {n : Nat} (room : b.Room n) : Ok {b with size := b.wrPtr + n} :=
  ⟨room.order,Nat.le_add_right _ _,room.room.trans_lt room.word,room.memory,room.small⟩

theorem Room.free {n : Nat} (room : b.Room n) : n ≤ b.free := by
  have bound := room.room
  have word := room.word
  simp only [ByteBuffer.free,u32Sub,u32]
  omega

theorem Room.readable_length {n : Nat} (room : b.Room n) :
    b.readable.length = b.wrPtr - b.rdPtr := by
  have order := room.order
  apply load_length
  have inside := inside_of_le room.ok (show b.rdPtr + (b.wrPtr - b.rdPtr) ≤ b.wrPtr + n by omega)
  exact inside

theorem in_room {data : Bytes} {n : Nat} (room : b.Room (data.length + n)) :
    ∃ b', b.In data = (true,b') ∧ b'.Room n ∧ b'.readable = b.readable ++ data ∧
      b'.rdPtr = b.rdPtr ∧ b'.wrPtr = b.wrPtr + data.length ∧ b'.stray = b.stray := by
  have le : data.length ≤ b.wrPtr + (data.length + n) - b.wrPtr := by omega
  obtain ⟨c,ran,ok,readable,rdPtr,wrPtr,size,stray⟩ := in_spec room.ok le
  have fits := (Nat.le_add_right _ _).trans room.free
  have same : b.In data = (true,{c with size := b.size}) := by
    rw [In,if_pos (le.trans_eq (free_eq room.ok).symm)] at ran
    rw [In,if_pos fits,← (Prod.mk.inj ran).2]
    rfl
  have bound := room.room
  refine ⟨_,same,⟨ok.order,?_,room.word,?_,ok.small⟩,readable,rdPtr,wrPtr,stray⟩
  · simp only [wrPtr]
    omega
  · have memory : c.inside 0 (c.wrPtr + n) = true := by
      apply inside_of_le ok
      rw [wrPtr,size]
      simp only
      omega
    exact memory

theorem avail_of_order (order : b.rdPtr ≤ b.wrPtr) (word : b.wrPtr < 2^32) :
    b.avail = b.wrPtr - b.rdPtr := by
  simp only [avail,u32Sub,u32]
  omega

theorem out_room {n : Nat} (room : b.Room n) {data rest : Bytes}
    (first : b.readable = data ++ rest) :
    b.Out data.length = (some data,{b with rdPtr := b.rdPtr + data.length}) ∧
      Room {b with rdPtr := b.rdPtr + data.length} n ∧
      readable {b with rdPtr := b.rdPtr + data.length} = rest := by
  obtain ⟨order,bound,word,memory,small⟩ := room
  have fits : data.length ≤ b.wrPtr - b.rdPtr := by
    apply (readable_le b).trans'
    rw [first,List.length_append]
    omega
  have inside : b.inside b.rdPtr data.length = true := by
    have inside := inside_of_le (Room.ok ⟨order,bound,word,memory,small⟩)
      (show b.rdPtr + data.length ≤ b.wrPtr + n by omega)
    exact inside
  have loaded : b.load b.rdPtr data.length = data := by
    rw [load_take b fits]
    change b.readable.take data.length = data
    rw [first,List.take_left]
  have next : u32 (b.rdPtr + data.length) = b.rdPtr + data.length := Nat.mod_eq_of_lt (by omega)
  have left := readable_advance b fits b.stray
  rw [first,List.drop_left] at left
  refine ⟨?_,⟨?_,bound,word,memory,small⟩,left⟩
  · rw [Out,if_pos (by rw [avail_of_order order (by omega)]; exact fits),loaded,next,inside,
      Bool.not_true,Bool.or_false]
  · simp only
    omega

end ByteBuffer

namespace Script.ScriptParam

def Serialize (_params bb : ByteBuffer) : ByteBuffer × ByteBuffer :=
  let bb := bb.putInt 4 _params.avail
  let (bb,_params) := bb.inFrom _params _params.avail
  (_params,bb)

/-- `junk` is what the local holds that a failed read leaves alone; `none` is the assertion,
which is there when `debug`. -/
def Deserialize (debug : Bool) (junk : Nat) (fresh : Option Bytes) (_params bb : ByteBuffer) :
    Option (ByteBuffer × ByteBuffer) :=
  let _params := if _params.size = 0 then _params.resize (16*1024) fresh else _params
  let _params := _params.reset
  let (read,bb) := bb.getInt 4
  let size := read.getD (u32 junk)
  if size = 0 then some (_params,bb)
  else if debug && decide (bb.avail < size) then none
  else
    let (_params,bb) := _params.inFrom bb size
    some (_params,bb.readOffset (toInt32 size))

/-- The states of the buffer of parameters: the methods only write to it, read from it,
reset it and make it larger. -/
inductive Reached : ByteBuffer → Prop where
  | construct {sz : Nat} {fresh : Option Bytes} (word : sz < 2^32)
      (length : ∀ mem ∈ fresh, mem.length = sz) : Reached (.new sz fresh)
  | move {rhs : ByteBuffer} : Reached rhs → Reached (move rhs)
  | assign {p rhs : ByteBuffer} : Reached p → Reached rhs → Reached (p.moveFrom rhs)
  | moved {rhs : ByteBuffer} : Reached rhs → Reached rhs.moved
  | write {p : ByteBuffer} (data : Bytes) : Reached p → Reached (p.In data).2
  | read {p : ByteBuffer} (size : Nat) : Reached p → Reached (p.Out size).2
  | readStr {p : ByteBuffer} : Reached p → Reached p.getStr.2
  | reset {p : ByteBuffer} : Reached p → Reached p.reset
  | resize {p : ByteBuffer} {size : Nat} {fresh : Option Bytes} (word : size < 2^32)
      (length : ∀ mem ∈ fresh, mem.length = size) : Reached p → Reached (p.resize size fresh)

/-- The cursors are in order, and the capacity is memory where there is any. -/
structure Held (p : ByteBuffer) : Prop where
  order : p.rdPtr ≤ p.wrPtr
  within : p.wrPtr ≤ p.size
  word : p.size < 2^32
  owned : p.attach = false
  memory : ∀ block ∈ p.buffer, block.off + p.size ≤ block.mem.length ∧ block.mem.length < 2^32

theorem reached_held {p : ByteBuffer} (reached : Reached p) : Held p := by
  induction reached with
  | construct word length =>
    refine ⟨Nat.le_refl _,Nat.zero_le _,word,rfl,?_⟩
    intro block here
    simp only [ByteBuffer.new] at here ⊢
    split at here
    · cases here
    · obtain ⟨mem,got,rfl⟩ := Option.map_eq_some_iff.mp here
      have length := length mem got
      simp only
      omega
  | move _ ih => exact ⟨ih.order,ih.within,ih.word,rfl,ih.memory⟩
  | assign _ _ ih ih' => exact ⟨ih'.order,ih'.within,ih'.word,ih.owned,ih'.memory⟩
  | moved _ ih => exact ⟨ih.order,ih.within,ih.word,ih.owned,fun _ here => by cases here⟩
  | reset _ ih => exact ⟨Nat.le_refl _,Nat.zero_le _,ih.word,ih.owned,ih.memory⟩
  | @write p data _ ih =>
    obtain ⟨order,within,word,owned,memory⟩ := ih
    unfold ByteBuffer.In
    split
    next fits =>
      simp only [ByteBuffer.free,u32Sub,u32] at fits
      have next : u32 (p.wrPtr + data.length) = p.wrPtr + data.length :=
        Nat.mod_eq_of_lt (by omega)
      refine ⟨?_,?_,word,owned,?_⟩
      · simp only [next,ByteBuffer.store]
        omega
      · simp only [next,ByteBuffer.store]
        omega
      · intro block here
        obtain ⟨old,got,rfl⟩ := Option.map_eq_some_iff.mp here
        have known := memory old got
        simp only [ByteBuffer.store]
        rw [Bytes.overwrite_length (by omega)]
        exact known
    · exact ⟨order,within,word,owned,memory⟩
  | @read p size _ ih =>
    obtain ⟨order,within,word,owned,memory⟩ := ih
    unfold ByteBuffer.Out
    split
    next fits =>
      rw [ByteBuffer.avail_of_order order (by omega)] at fits
      have next : u32 (p.rdPtr + size) = p.rdPtr + size := Nat.mod_eq_of_lt (by omega)
      refine ⟨?_,within,word,owned,memory⟩
      simp only [next]
      omega
    · exact ⟨order,within,word,owned,memory⟩
  | @readStr p _ ih =>
    obtain ⟨order,within,word,owned,memory⟩ := ih
    unfold ByteBuffer.getStr
    split
    · exact ⟨order,within,word,owned,memory⟩
    · dsimp only
      split
      · exact ⟨order,within,word,owned,memory⟩
      next le => exact ⟨Nat.le_of_not_lt le,within,word,owned,memory⟩
  | @resize p size fresh word length _ ih =>
    obtain ⟨order,within,word',owned,memory⟩ := ih
    unfold ByteBuffer.resize
    split
    · exact ⟨order,within,word',owned,memory⟩
    next grows =>
      simp only [not_or,not_le] at grows
      refine ⟨order,?_,word,owned,?_⟩
      · simp only
        omega
      · intro block here
        obtain ⟨mem,got,rfl⟩ := Option.map_eq_some_iff.mp here
        have length := length mem got
        simp only [List.length_append,List.length_take,List.length_drop]
        omega

/-- The capacity that `Deserialize` finds or makes. -/
def capacity (q : ByteBuffer) : Nat := if q.size = 0 then 16*1024 else q.size

/-- What the size is read as. -/
def announced (junk : Nat) (bb : ByteBuffer) : Nat :=
  if bb.avail < 4 then u32 junk else Bytes.ofLe (bb.load bb.rdPtr 4)

/-- `p` written to `bb`, and read back where it was written, with `after` behind it. -/
def RoundTrips (debug : Bool) (junk : Nat) (fresh : Option Bytes) (p q bb : ByteBuffer)
    (after : Bytes) : Prop :=
  (Serialize p bb).1 = p ∧
  ∃ r, (((Serialize p bb).2.In after).2.Out bb.avail) = (some bb.readable,r) ∧
  ∃ q' r', Deserialize debug junk fresh q r = some (q',r') ∧
    q'.readable = p.readable ∧ q'.stray = false ∧
    r'.readable = after ∧ r'.rdPtr = (Serialize p bb).2.wrPtr ∧ r'.stray = bb.stray

/-- All that `q` takes lies before the write cursor. -/
def Within (debug : Bool) (junk : Nat) (fresh : Option Bytes) (q bb : ByteBuffer) : Prop :=
  ∀ q' bb', Deserialize debug junk fresh q bb = some (q',bb') →
    (bb.Out 4).2.rdPtr + q'.wrPtr ≤ bb.wrPtr

/-- There is nothing to carry, or there is memory on both sides, as much as is needed, and
the size is an `int32`. -/
def Carries (p q : ByteBuffer) (fresh : Option Bytes) : Prop :=
  p.avail = 0 ∨ (p.buffer.isSome ∧ (if q.size = 0 then fresh else q.buffer.map Block.mem).isSome ∧
    p.avail ≤ capacity q ∧ p.avail < 2^31)

def Checked (debug : Bool) (junk : Nat) (q bb : ByteBuffer) : Prop :=
  debug = true ∨ capacity q < announced junk bb ∨
    (bb.Out 4).2.rdPtr + announced junk bb ≤ bb.wrPtr

variable {p q bb r : ByteBuffer} {debug : Bool} {junk : Nat} {fresh : Option Bytes}
  {after data : Bytes}

/-- The buffer that is filled. -/
def cleared (q : ByteBuffer) (fresh : Option Bytes) : ByteBuffer :=
  (if q.size = 0 then q.resize (16*1024) fresh else q).reset

theorem cleared_capacity (fresh : Option Bytes) (held : Held q) :
    (cleared q fresh).size = capacity q := by
  unfold cleared capacity
  split
  next none_ =>
    have more : ¬(q.attach = true ∨ 16*1024 ≤ q.size) := by
      rw [held.owned,none_]
      decide
    rw [ByteBuffer.reset,ByteBuffer.resize,if_neg more]
  · rfl

theorem cleared_held (reached : Reached q) (length : ∀ mem ∈ fresh, mem.length = 16*1024) :
    Held (cleared q fresh) := by
  apply reached_held
  unfold cleared
  split
  · exact .reset (.resize (by decide) length reached)
  · exact .reset reached

theorem cleared_stray : (cleared q fresh).stray = q.stray := by
  unfold cleared ByteBuffer.resize
  split_ifs <;> rfl

theorem cleared_buffer (fresh : Option Bytes) (held : Held q) : (cleared q fresh).buffer.isSome =
    (if q.size = 0 then fresh else q.buffer.map Block.mem).isSome := by
  unfold cleared
  split
  next none_ =>
    have more : ¬(q.attach = true ∨ 16*1024 ≤ q.size) := by
      rw [held.owned,none_]
      decide
    simp only [ByteBuffer.reset,ByteBuffer.resize,if_neg more,Option.isSome_map]
  · simp only [ByteBuffer.reset,Option.isSome_map]

theorem announced_eq : (bb.getInt 4).1.getD (u32 junk) = announced junk bb := by
  unfold announced ByteBuffer.getInt ByteBuffer.Out
  split
  next fits => rw [if_neg (Nat.not_lt.mpr fits)]; rfl
  next short => rw [if_pos (Nat.lt_of_not_le short)]; rfl

theorem deserialize_eq : Deserialize debug junk fresh q bb =
    if announced junk bb = 0 then some (cleared q fresh,(bb.Out 4).2)
    else if debug && decide ((bb.Out 4).2.avail < announced junk bb) then none
    else some (((cleared q fresh).inFrom (bb.Out 4).2 (announced junk bb)).1,
      ((cleared q fresh).inFrom (bb.Out 4).2 (announced junk bb)).2.readOffset
        (toInt32 (announced junk bb))) := by
  rw [← announced_eq]
  unfold Deserialize ByteBuffer.getInt cleared
  cases bb.Out 4
  dsimp only

theorem memory_iff (held : Held p) (some_ : p.avail = 0 ∨ p.buffer.isSome) :
    p.inside p.rdPtr p.avail = true ∧ p.readable.length = p.avail ∧
      p.load p.rdPtr p.avail = p.readable := by
  have avail := ByteBuffer.avail_of_order held.order (held.within.trans_lt held.word)
  have order := held.order
  have within := held.within
  have inside : p.inside p.rdPtr p.avail = true := by
    rw [ByteBuffer.inside_iff]
    cases buffer : p.buffer with
    | none =>
      rw [buffer] at some_
      simpa using some_
    | some block =>
      have memory := held.memory block buffer
      simp only
      omega
  refine ⟨inside,?_,?_⟩
  · rw [ByteBuffer.readable,← avail]
    exact ByteBuffer.load_length inside
  · rw [ByteBuffer.readable,← avail]

theorem fetched (length : (p.load p.rdPtr p.avail).length = p.avail) :
    (p.load p.rdPtr p.avail).rightpad p.avail 0 = p.load p.rdPtr p.avail := by
  rw [List.rightpad,length,Nat.sub_self,List.replicate_zero,List.append_nil]

/-- What is in the other buffer after `Serialize`, and in what state `p` is. -/
theorem serialize_spec (held : Held p) (some_ : p.avail = 0 ∨ p.buffer.isSome) {n : Nat}
    (room : bb.Room (4 + p.avail + n)) :
    ∃ w, Serialize p bb = (p,w) ∧ w.Room n ∧
      w.readable = bb.readable ++ Bytes.le 4 p.avail ++ p.readable ∧ w.rdPtr = bb.rdPtr ∧
      w.wrPtr = bb.wrPtr + 4 + p.avail ∧ w.stray = bb.stray := by
  obtain ⟨inside,length,loaded⟩ := memory_iff held some_
  have room' : bb.Room ((Bytes.le 4 p.avail).length + (p.readable.length + n)) := by
    rw [Bytes.le_length,length,← Nat.add_assoc]
    exact room
  obtain ⟨b,ran,roomB,readableB,rdB,wrB,strayB⟩ := ByteBuffer.in_room room'
  obtain ⟨w,ran',roomW,readableW,rdW,wrW,strayW⟩ := ByteBuffer.in_room roomB
  refine ⟨w,?_,roomW,?_,rdW.trans rdB,?_,strayW.trans strayB⟩
  · rw [← loaded] at ran'
    have put : bb.putInt 4 p.avail = b := by rw [ByteBuffer.putInt,ran]
    simp only [Serialize,put,ByteBuffer.inFrom,fetched (by rw [loaded,length]),ran',inside,
      Bool.not_true,Bool.and_false,Bool.or_false]
  · rw [readableW,readableB]
  · rw [wrW,wrB,length,Bytes.le_length]

/-- The memory of a moved buffer is read at a null pointer. -/
theorem serialize_moved {n : Nat} (room : bb.Room (4 + p.avail + n)) (gone : p.buffer = none)
    (more : p.avail ≠ 0) : (Serialize p bb).1.stray = true := by
  have nothing : p.load p.rdPtr p.avail = [] := by rw [ByteBuffer.load,gone]
  have length : ((p.load p.rdPtr p.avail).rightpad p.avail 0).length = p.avail := by
    rw [nothing,List.rightpad,List.nil_append,List.length_nil,Nat.sub_zero,List.length_replicate]
  have room' : bb.Room ((Bytes.le 4 p.avail).length +
      (((p.load p.rdPtr p.avail).rightpad p.avail 0).length + n)) := by
    rw [Bytes.le_length,length,← Nat.add_assoc]
    exact room
  obtain ⟨b,ran,roomB,_⟩ := ByteBuffer.in_room room'
  obtain ⟨w,ran',_⟩ := ByteBuffer.in_room roomB
  have outside : p.inside p.rdPtr p.avail = false := by
    rw [ByteBuffer.inside,gone]
    exact beq_false_of_ne more
  have put : bb.putInt 4 p.avail = b := by rw [ByteBuffer.putInt,ran]
  simp only [Serialize,put,ByteBuffer.inFrom,ran',outside,Bool.not_false,Bool.and_true,
    Bool.or_true]

theorem readOffset_size {size : Nat} (more : size ≠ 0) (inside : bb.rdPtr + size ≤ bb.wrPtr)
    (word : bb.wrPtr < 2^32) : bb.readOffset (toInt32 size) =
      if size < 2^31 then {bb with rdPtr := bb.rdPtr + size} else bb := by
  unfold ByteBuffer.readOffset
  by_cases small : size < 2^31
  · have same : toInt32 size = size := by
      simp only [toInt32]
      omega
    have next : toUInt32 (bb.rdPtr + size) = bb.rdPtr + size := by
      simp only [toUInt32]
      omega
    rw [same,if_pos (by omega),next,if_pos inside,if_pos small]
  · have same : toInt32 size = size - 2^32 := by
      simp only [toInt32]
      omega
    have before : toInt32 (toInt32 bb.rdPtr + (size - 2^32)) < 0 := by
      simp only [toInt32]
      omega
    rw [same,if_neg (by omega),if_pos (by omega),if_neg (by omega),if_neg small]

/-- The buffer with what is sent to it. -/
def filled (q : ByteBuffer) (fresh : Option Bytes) (data : Bytes) : ByteBuffer :=
  if data = [] then cleared q fresh else ((cleared q fresh).In data).2

/-- What `Deserialize` makes of a size and as many bytes. -/
theorem deserialize_spec (debug : Bool) (junk : Nat) (fresh : Option Bytes) (q : ByteBuffer)
    {n : Nat} (room : r.Room n) (word : data.length < 2^32)
    (first : r.readable = Bytes.le 4 data.length ++ (data ++ after)) :
    ∃ r', Deserialize debug junk fresh q r = some (filled q fresh data,r') ∧
      r'.rdPtr = (if data.length < 2^31 then r.rdPtr + 4 + data.length else r.rdPtr + 4) ∧
      (data.length < 2^31 → r'.readable = after) ∧ r'.stray = r.stray := by
  obtain ⟨out,room',left⟩ := ByteBuffer.out_room room first
  rw [Bytes.le_length] at out room' left
  generalize next : ({r with rdPtr := r.rdPtr + 4} : ByteBuffer) = b at out room' left
  have rdPtr : b.rdPtr = r.rdPtr + 4 := by rw [← next]
  have stray : b.stray = r.stray := by rw [← next]
  have size : announced junk r = data.length := by
    rw [← announced_eq,ByteBuffer.getInt,out]
    exact Bytes.ofLe_le_of_lt word
  have word' := room'.room.trans_lt room'.word
  have fits : data.length ≤ b.wrPtr - b.rdPtr := by
    apply (ByteBuffer.readable_le b).trans'
    rw [left,List.length_append]
    omega
  have order := room'.order
  rw [deserialize_eq,size,out]
  by_cases empty : data = []
  · subst empty
    exact ⟨b,rfl,rdPtr,fun _ => left,stray⟩
  have more : data.length ≠ 0 := fun none_ => empty (List.eq_nil_of_length_eq_zero none_)
  have enough : ¬ b.avail < data.length := by
    rw [ByteBuffer.avail_of_order order (by omega)]
    omega
  have loaded : b.load b.rdPtr data.length = data := by
    rw [ByteBuffer.load_take b fits]
    change b.readable.take data.length = data
    rw [left,List.take_left]
  have inside : b.inside b.rdPtr data.length = true :=
    ByteBuffer.inside_of_le room'.ok (show b.rdPtr + data.length ≤ b.wrPtr + n by omega)
  have padded : data.rightpad data.length 0 = data := by
    rw [List.rightpad,Nat.sub_self,List.replicate_zero,List.append_nil]
  have same : ({b with stray := b.stray || (((cleared q fresh).In data).1 && !true)} : ByteBuffer) =
      b := by
    rw [Bool.not_true,Bool.and_false,Bool.or_false]
  have offset := readOffset_size more (show b.rdPtr + data.length ≤ b.wrPtr by omega) (by omega)
  refine ⟨b.readOffset (toInt32 data.length),?_,?_,?_,?_⟩
  · rw [if_neg more,decide_eq_false enough,Bool.and_false,if_neg Bool.false_ne_true]
    simp only [ByteBuffer.inFrom,loaded,padded,inside,same,filled,if_neg empty]
  · rw [offset]
    split
    · exact congrArg (· + data.length) rdPtr
    · exact rdPtr
  · intro small
    have advanced := ByteBuffer.readable_advance b fits b.stray
    rw [offset,if_pos small]
    rw [left,List.drop_left] at advanced
    exact advanced
  · rw [offset]
    split <;> exact stray

/-- When a reset buffer holds what is written to it. -/
theorem filled_iff (reached : Reached q) (clean : q.stray = false)
    (length : ∀ mem ∈ fresh, mem.length = 16*1024) :
    ((filled q fresh data).readable = data ∧ (filled q fresh data).stray = false) ↔
      data = [] ∨ ((if q.size = 0 then fresh else q.buffer.map Block.mem).isSome ∧
        data.length ≤ capacity q) := by
  have held := reached_held reached
  have held' := cleared_held reached length
  have stray : (cleared q fresh).stray = false := (cleared_stray ..).trans clean
  have start : (cleared q fresh).rdPtr = 0 ∧ (cleared q fresh).wrPtr = 0 := ⟨rfl,rfl⟩
  rw [← cleared_buffer fresh held,← cleared_capacity fresh held]
  unfold filled
  generalize cleared q fresh = c at *
  have none_ : c.readable = [] := by
    apply List.eq_nil_of_length_eq_zero
    have le := ByteBuffer.readable_le c
    omega
  by_cases empty : data = []
  · rw [if_pos empty,empty]
    exact iff_of_true ⟨none_,stray⟩ (Or.inl rfl)
  rw [if_neg empty,or_iff_right empty]
  cases buffer : c.buffer with
  | none =>
    have gone : (c.In data).2.buffer = none := by
      unfold ByteBuffer.In
      split
      · simp only [ByteBuffer.store,buffer,Option.map_none]
      · exact buffer
    have left : (c.In data).2.readable = [] := by
      rw [ByteBuffer.readable,ByteBuffer.load,gone]
    apply iff_of_false
    · intro same
      exact empty (same.1.symm.trans left)
    · intro some_
      cases some_.1
  | some block =>
    have ok : c.Ok := by
      refine ⟨held'.order,held'.within,held'.word,?_,fun block here => (held'.memory block here).2⟩
      rw [ByteBuffer.inside_iff,buffer]
      have memory := held'.memory block buffer
      simp only
      omega
    by_cases fits : data.length ≤ c.size
    · have room : data.length ≤ c.size - c.wrPtr := by omega
      obtain ⟨b,ran,_,readable,_,_,_,stray'⟩ := ByteBuffer.in_spec ok room
      rw [ran,readable,none_,stray']
      exact iff_of_true ⟨rfl,stray⟩ ⟨rfl,fits⟩
    · rw [ByteBuffer.in_short ok (by omega)]
      apply iff_of_false
      · intro same
        exact empty (same.1.symm.trans none_)
      · intro some_
        exact fits some_.2

theorem carries_iff (some_ : p.avail = 0 ∨ p.buffer.isSome) (length : p.readable.length = p.avail) :
    Carries p q fresh ↔ (p.readable = [] ∨
      ((if q.size = 0 then fresh else q.buffer.map Block.mem).isSome ∧
        p.readable.length ≤ capacity q)) ∧ p.readable.length < 2^31 := by
  rw [← List.length_eq_zero_iff,length]
  unfold Carries
  by_cases empty : p.avail = 0
  · rw [empty]
    exact iff_of_true (Or.inl rfl) ⟨Or.inl rfl,by decide⟩
  · have here : p.buffer.isSome := some_.resolve_left empty
    rw [or_iff_right empty,or_iff_right empty,and_iff_right here,and_assoc]

/-- When what one buffer of parameters holds arrives at another. -/
theorem round_trips_iff (sent : Reached p) (clean : p.stray = false) (taken : Reached q)
    (cleanQ : q.stray = false) (room : bb.Room (4 + p.avail + after.length))
    (length : ∀ mem ∈ fresh, mem.length = 16*1024) :
    RoundTrips debug junk fresh p q bb after ↔ Carries p q fresh := by
  have held := reached_held sent
  by_cases some_ : p.avail = 0 ∨ p.buffer.isSome
  · obtain ⟨_,whole,_⟩ := memory_iff held some_
    obtain ⟨w,wrote,roomW,readableW,rdW,wrW,strayW⟩ := serialize_spec held some_ room
    obtain ⟨w',ran,roomW',readableW',rdW',wrW',strayW'⟩ := ByteBuffer.in_room (n := 0) roomW
    have first : w'.readable =
        bb.readable ++ (Bytes.le 4 p.readable.length ++ (p.readable ++ after)) := by
      simp only [readableW',readableW,whole,List.append_assoc]
    obtain ⟨out,roomR,left⟩ := ByteBuffer.out_room roomW' first
    have before := room.readable_length
    have order := room.order
    have avail : bb.readable.length = bb.avail := by
      have room := room.room.trans_lt room.word
      rw [ByteBuffer.avail_of_order order (by omega),before]
    have word : p.readable.length < 2^32 := by
      have word := room.room.trans_lt room.word
      omega
    obtain ⟨r',made,rdR,readableR,strayR⟩ :=
      deserialize_spec debug junk fresh q roomR word left
    rw [carries_iff some_ whole,← filled_iff taken cleanQ length]
    unfold RoundTrips
    rw [wrote]
    simp only [ran]
    rw [← avail,out]
    constructor
    · rintro ⟨_,r,same,q',r'',made',fills,strayQ,_,rdPtr,_⟩
      cases same
      cases made.symm.trans made'
      refine ⟨⟨fills,strayQ⟩,?_⟩
      by_contra large
      rw [if_neg large] at rdR
      simp only [rdW',rdW,wrW] at rdR rdPtr
      omega
    · rintro ⟨⟨fills,strayQ⟩,small⟩
      refine ⟨trivial,_,rfl,_,r',made,fills,strayQ,readableR small,?_,?_⟩
      · rw [rdR,if_pos small]
        simp only [rdW',rdW,wrW]
        omega
      · rw [strayR]
        exact strayW'.trans strayW
  · have more : p.avail ≠ 0 := fun empty => some_ (Or.inl empty)
    have gone : p.buffer = none := by
      apply Option.not_isSome_iff_eq_none.mp
      exact fun here => some_ (Or.inr here)
    have moved := serialize_moved room gone more
    apply iff_of_false
    · intro trips
      rw [trips.1,clean] at moved
      cases moved
    · rintro (empty | ⟨here,_⟩)
      · exact more empty
      · exact some_ (Or.inr here)

theorem out_order (order : bb.rdPtr ≤ bb.wrPtr) (word : bb.wrPtr < 2^32) (n : Nat) :
    (bb.Out n).2.rdPtr ≤ (bb.Out n).2.wrPtr ∧ (bb.Out n).2.wrPtr = bb.wrPtr := by
  unfold ByteBuffer.Out
  split
  next fits =>
    rw [ByteBuffer.avail_of_order order word] at fits
    refine ⟨?_,rfl⟩
    simp only [u32]
    omega
  · exact ⟨order,rfl⟩

theorem inFrom_wrPtr {c b : ByteBuffer} (held : Held c) (start : c.wrPtr = 0) (a : Nat) :
    (c.inFrom b a).1.wrPtr = if a ≤ c.size then a else 0 := by
  have whole : ((b.load b.rdPtr a).rightpad a 0).length = a := by
    rw [List.length_rightpad,Nat.max_eq_left (ByteBuffer.load_le b b.rdPtr a)]
  have word := held.word
  have room : c.free = c.size := by
    simp only [ByteBuffer.free,start,u32Sub,u32]
    omega
  unfold ByteBuffer.inFrom ByteBuffer.In
  simp only [whole,room,start]
  split
  next fits =>
    simp only [u32]
    omega
  · exact start

/-- What is taken for a size of `a`, from where the size ended. -/
theorem taken_iff (debug : Bool) {c b : ByteBuffer} (a : Nat) (held : Held c) (start : c.wrPtr = 0)
    (order : b.rdPtr ≤ b.wrPtr) (word : b.wrPtr < 2^32) :
    (∀ q' bb', (if a = 0 then some (c,b)
      else if debug && decide (b.avail < a) then none
      else some ((c.inFrom b a).1,(c.inFrom b a).2.readOffset (toInt32 a))) = some (q',bb') →
        b.rdPtr + q'.wrPtr ≤ b.wrPtr) ↔
      debug = true ∨ c.size < a ∨ b.rdPtr + a ≤ b.wrPtr := by
  have avail := ByteBuffer.avail_of_order order word
  have taken := inFrom_wrPtr (b := b) held start a
  split_ifs with none_ refused
  · apply iff_of_true
    · intro q' bb' made
      cases made
      omega
    · right; right
      omega
  · apply iff_of_true
    · intro q' bb' made
      cases made
    · left
      exact (Bool.and_eq_true_iff.mp refused).1
  · have every : (∀ q' bb', some ((c.inFrom b a).1,(c.inFrom b a).2.readOffset (toInt32 a)) =
        some (q',bb') → b.rdPtr + q'.wrPtr ≤ b.wrPtr) ↔
        b.rdPtr + (c.inFrom b a).1.wrPtr ≤ b.wrPtr := by
      constructor
      · intro all
        exact all _ _ rfl
      · intro fits q' bb' made
        rw [Option.some.injEq,Prod.mk.injEq] at made
        rw [← made.1]
        exact fits
    rw [every,taken]
    simp only [Bool.and_eq_true,decide_eq_true_eq] at refused
    split
    next fits =>
      constructor
      · exact fun inside => Or.inr (Or.inr inside)
      · rintro (checked | large | inside)
        · have enough : ¬ b.avail < a := fun short => refused ⟨checked,short⟩
          omega
        · omega
        · exact inside
    next large => exact iff_of_true order (Or.inr (Or.inl (Nat.lt_of_not_le large)))

theorem within_iff (reached : Reached q) (length : ∀ mem ∈ fresh, mem.length = 16*1024)
    (order : bb.rdPtr ≤ bb.wrPtr) (word : bb.wrPtr < 2^32) :
    Within debug junk fresh q bb ↔ Checked debug junk q bb := by
  obtain ⟨order',same⟩ := out_order order word 4
  rw [← same] at word
  have taken := taken_iff debug (announced junk bb) (cleared_held reached length) rfl order' word
  rw [same,cleared_capacity fresh (reached_held reached)] at taken
  unfold Within Checked
  rw [deserialize_eq]
  exact taken

/-- The round trip holds exactly where the bytes have memory at both ends, fit the receiver and
are fewer than 2 GiB; and nothing past the write cursor is taken exactly where the size is
asserted, refused for the receiver's capacity or true. -/
theorem script_param_embeds (sent : Reached p) (clean : p.stray = false) (taken : Reached q)
    (cleanQ : q.stray = false) (room : bb.Room (4 + p.avail + after.length))
    (length : ∀ mem ∈ fresh, mem.length = 16*1024) :
    (RoundTrips debug junk fresh p q bb after ↔ Carries p q fresh) ∧
    ∀ other : ByteBuffer, other.rdPtr ≤ other.wrPtr → other.wrPtr < 2^32 →
      (Within debug junk fresh q other ↔ Checked debug junk q other) :=
  ⟨round_trips_iff sent clean taken cleanQ room length,
    fun _ order word => within_iff taken length order word⟩

instance : Decidable (Carries p q fresh) := inferInstanceAs (Decidable (_ ∨ _))

instance : Decidable (Checked debug junk q bb) := inferInstanceAs (Decidable (_ ∨ _))

/-- Two bytes of parameters, and sixteen bytes to write to. -/
def sender : ByteBuffer := ((ByteBuffer.new 8 (some (List.replicate 8 0))).In [1,2]).2
def carrier : ByteBuffer := .new 16 (some (List.replicate 16 0))

/-- A receiver of a single byte, and a size of a hundred with nothing behind it. -/
def receiver : ByteBuffer := .new 1 (some [0])
def hostile : ByteBuffer := (carrier.In (Bytes.le 4 100)).2

theorem reached_sender : Reached sender := by
  apply Reached.write
  apply Reached.construct (by decide)
  intro mem here
  cases here
  rfl

theorem room_carrier : carrier.Room (4 + sender.avail + ([9] : Bytes).length) :=
  ⟨by decide,by decide,by decide,by decide,fun _ here => by cases here; decide⟩

theorem script_param_embeds_default :
    RoundTrips false 0 (some (List.replicate (16*1024) 0)) sender (.new 0 none) carrier [9] ∧
    Within true 0 (some (List.replicate (16*1024) 0)) (.new 0 none) hostile := by
  have length : ∀ mem ∈ some (List.replicate (16*1024) (0 : UInt8)), mem.length = 16*1024 := by
    intro mem here
    cases here
    exact List.length_replicate
  have taken : Reached (.new 0 none) := .construct (by decide) fun _ here => by cases here
  constructor
  · apply (script_param_embeds reached_sender rfl taken rfl room_carrier length).1.mpr
    decide
  · apply ((script_param_embeds reached_sender rfl taken rfl room_carrier length).2 hostile
      (by decide) (by decide)).mpr
    exact Or.inl rfl

/-- The single byte cannot hold the two, and the size is believed where nothing asserts it. -/
theorem small_receiver_loses :
    (Reached sender ∧ Reached receiver ∧ carrier.Room (4 + sender.avail + ([9] : Bytes).length) ∧
      ¬ RoundTrips false 0 none sender receiver carrier [9]) ∧
    hostile.rdPtr ≤ hostile.wrPtr ∧
      ¬ Within false 0 (some (List.replicate (16*1024) 0)) (.new 0 none) hostile := by
  have taken : Reached receiver := .construct (by decide) fun _ here => by
    cases here
    rfl
  refine ⟨⟨reached_sender,taken,room_carrier,?_⟩,by decide,?_⟩
  · rw [round_trips_iff reached_sender rfl taken rfl room_carrier fun _ here => by cases here]
    decide
  · rw [within_iff (.construct (by decide) fun _ here => by cases here) _ (by decide) (by decide)]
    · decide
    · intro mem here
      cases here
      exact List.length_replicate

end Script.ScriptParam

end Pworld
