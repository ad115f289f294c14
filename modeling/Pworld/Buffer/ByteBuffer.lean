import Pworld.Net.Message

/-! `ByteBuffer` as it computes: two cursors with `uint32` and `int32` arithmetic
over a block of memory, which it owns or which is that of a packet. An access
outside the block is recorded and gives no bytes that are relied on. -/
namespace Pworld

open Net

/-- The memory `_buffer` points into, and where. -/
structure Block where
  mem : Bytes
  off : Nat
  deriving DecidableEq,Repr

structure ByteBuffer where
  rdPtr : Nat
  wrPtr : Nat
  buffer : Option Block
  size : Nat
  growth : Nat
  attach : Bool
  stray : Bool  -- not a field of the class: an access was outside the memory
  deriving DecidableEq,Repr

def Net.Message.packetData (m : Message) : Block := ⟨m.data,2⟩

/-- A value converted to `uint32`, and to `int32`. -/
def toUInt32 (n : Int) : Nat := (n % 2^32).toNat
def toInt32 (n : Int) : Int := (n + 2^31) % 2^32 - 2^31

/-- The bytes of a C string, terminator included. -/
def cstr (str : Bytes) : Bytes := str.takeWhile (· ≠ 0) ++ [0]

namespace ByteBuffer

-- `fresh` is what `malloc` returns
def new (size : Nat) (fresh : Option Bytes) : ByteBuffer where
  rdPtr := 0
  wrPtr := 0
  buffer := if size = 0 then none else fresh.map fun mem => ⟨mem,0⟩
  size := size
  growth := 0
  attach := false
  stray := false

def Attach (b : ByteBuffer) (packet : Message) : Bool × ByteBuffer :=
  if b.size ≠ 0 ∨ b.attach then (false,b)
  else (true,{b with
    attach := true
    buffer := some packet.packetData
    size := packet.size
    rdPtr := 0
    wrPtr := packet.packetLength})

def Detach (b : ByteBuffer) : ByteBuffer :=
  {b with attach := false, buffer := none, rdPtr := 0, wrPtr := 0, size := 0, growth := 0}

/-- `operator=(ByteBuffer&&)`: what the target takes over, and what is left of `rval`. -/
def moveFrom (b rval : ByteBuffer) : ByteBuffer :=
  {b with
    rdPtr := rval.rdPtr
    wrPtr := rval.wrPtr
    size := rval.size
    growth := rval.growth
    buffer := rval.buffer}

def moved (rval : ByteBuffer) : ByteBuffer := {rval with buffer := none}

-- the move constructor leaves `_attach` as it finds it
def uninit (attach : Bool) : ByteBuffer := ⟨0,0,none,0,0,attach,false⟩

def avail (b : ByteBuffer) : Nat := u32Sub b.wrPtr b.rdPtr
def free (b : ByteBuffer) : Nat := u32Sub b.size b.wrPtr

/-- `n` bytes from `_buffer + at_` on are memory. -/
def inside (b : ByteBuffer) (at_ n : Nat) : Bool :=
  match b.buffer with
  | none => n == 0
  | some block => block.off + at_ + n ≤ block.mem.length

def load (b : ByteBuffer) (at_ n : Nat) : Bytes :=
  match b.buffer with
  | none => []
  | some block => (block.mem.drop (block.off + at_)).take n

def store (b : ByteBuffer) (at_ : Nat) (data : Bytes) : ByteBuffer :=
  {b with buffer := b.buffer.map fun block =>
    {block with mem := Bytes.overwrite block.mem (block.off + at_) data}}

def Out (b : ByteBuffer) (size : Nat) : Option Bytes × ByteBuffer :=
  if size ≤ b.avail then
    (some (b.load b.rdPtr size),{b with
      rdPtr := u32 (b.rdPtr + size)
      stray := b.stray || !b.inside b.rdPtr size})
  else (none,b)

def In (b : ByteBuffer) (data : Bytes) : Bool × ByteBuffer :=
  if data.length ≤ b.free then
    (true,{b.store b.wrPtr data with
      wrPtr := u32 (b.wrPtr + data.length)
      stray := b.stray || !b.inside b.wrPtr data.length})
  else (false,b)

/-- `operator <<` of an integer of `w` bytes; `operator >>` gives nothing when it
leaves its argument as it was. -/
def putInt (w : Nat) (b : ByteBuffer) (n : Nat) : ByteBuffer := (b.In (Bytes.le w n)).2

def getInt (w : Nat) (b : ByteBuffer) : Option Nat × ByteBuffer :=
  ((b.Out w).1.map Bytes.ofLe,(b.Out w).2)

def putStr (b : ByteBuffer) (str : Bytes) : ByteBuffer :=
  (b.In ((cstr str).take (u32 (cstr str).length))).2

/-- Where the C string at the read cursor ends, counted from there. -/
def terminator (b : ByteBuffer) : Option Nat :=
  b.buffer.bind fun block => (block.mem.drop (block.off + b.rdPtr)).findIdx? (· == 0)

def getStr (b : ByteBuffer) : Option Bytes × ByteBuffer :=
  match b.terminator with
  | none => (none,{b with stray := true})
  | some n =>
    let len := u32 (u32 n + 1)
    if u32 (b.rdPtr + len) > b.wrPtr then (none,b)
    else (some (b.load b.rdPtr n),{b with rdPtr := u32 (b.rdPtr + len)})

def readOffset (b : ByteBuffer) (offset : Int) : ByteBuffer :=
  if offset > 0 then
    if toUInt32 (b.rdPtr + offset) ≤ b.wrPtr then {b with rdPtr := toUInt32 (b.rdPtr + offset)}
    else b
  else if offset < 0 then
    if toInt32 (toInt32 b.rdPtr + offset) ≥ 0 then {b with rdPtr := toUInt32 (b.rdPtr + offset)}
    else b
  else b

def writeOffset (b : ByteBuffer) (offset : Int) : ByteBuffer :=
  if offset > 0 then
    if toUInt32 (b.wrPtr + offset) ≤ b.size then {b with wrPtr := toUInt32 (b.wrPtr + offset)}
    else b
  else if offset < 0 then
    if toInt32 (toInt32 b.wrPtr + offset) ≥ toInt32 b.rdPtr then
      {b with wrPtr := toUInt32 (b.wrPtr + offset)}
    else b
  else b

def reset (b : ByteBuffer) : ByteBuffer := {b with rdPtr := 0, wrPtr := 0}

-- `fresh` is the block `realloc` returns, before the old bytes are copied there
def resize (b : ByteBuffer) (size : Nat) (fresh : Option Bytes) : ByteBuffer :=
  if b.attach ∨ size ≤ b.size then b
  else {b with
    buffer := fresh.map fun mem =>
      ⟨(b.load 0 b.size).take mem.length ++ mem.drop (b.load 0 b.size).length,0⟩
    size := size}

/-- The cursors are in order and the capacity is memory. -/
structure Ok (b : ByteBuffer) : Prop where
  order : b.rdPtr ≤ b.wrPtr
  within : b.wrPtr ≤ b.size
  word : b.size < 2^32
  fits : b.inside 0 b.size = true
  small : ∀ block ∈ b.buffer, block.mem.length < 2^32

instance (b : ByteBuffer) : Decidable b.Ok :=
  decidable_of_iff (b.rdPtr ≤ b.wrPtr ∧ b.wrPtr ≤ b.size ∧ b.size < 2^32 ∧
      b.inside 0 b.size = true ∧ ∀ block ∈ b.buffer, block.mem.length < 2^32)
    ⟨fun ⟨order,within,word,fits,small⟩ => ⟨order,within,word,fits,small⟩,
      fun ok => ⟨ok.order,ok.within,ok.word,ok.fits,ok.small⟩⟩

/-- The bytes between the cursors. -/
def readable (b : ByteBuffer) : Bytes := b.load b.rdPtr (b.wrPtr - b.rdPtr)

theorem avail_eq {b : ByteBuffer} (ok : b.Ok) : b.avail = b.wrPtr - b.rdPtr := by
  obtain ⟨order,within,word,_,_⟩ := ok
  simp only [avail,u32Sub,u32]
  omega

theorem free_eq {b : ByteBuffer} (ok : b.Ok) : b.free = b.size - b.wrPtr := by
  obtain ⟨order,within,word,_,_⟩ := ok
  simp only [free,u32Sub,u32]
  omega

theorem inside_iff (b : ByteBuffer) (at_ n : Nat) : b.inside at_ n = true ↔
    match b.buffer with
    | none => n = 0
    | some block => block.off + at_ + n ≤ block.mem.length := by
  unfold inside
  cases b.buffer <;> simp

theorem inside_of_le {b : ByteBuffer} (ok : b.Ok) {at_ n : Nat} (le : at_ + n ≤ b.size) :
    b.inside at_ n = true := by
  have fits := (inside_iff b 0 b.size).mp ok.fits
  rw [inside_iff]
  cases buffer : b.buffer with
  | none =>
    rw [buffer] at fits
    simp only at fits ⊢
    omega
  | some block =>
    rw [buffer] at fits
    simp only at fits ⊢
    omega

theorem load_length {b : ByteBuffer} {at_ n : Nat} (inside : b.inside at_ n = true) :
    (b.load at_ n).length = n := by
  rw [inside_iff] at inside
  unfold load
  cases buffer : b.buffer with
  | none => simp_all
  | some block =>
    rw [buffer] at inside
    simp only [List.length_take,List.length_drop] at inside ⊢
    omega

theorem readable_length {b : ByteBuffer} (ok : b.Ok) :
    b.readable.length = b.wrPtr - b.rdPtr :=
  load_length (inside_of_le ok (by have := ok.order; have := ok.within; omega))

theorem avail_readable {b : ByteBuffer} (ok : b.Ok) : b.avail = b.readable.length := by
  rw [avail_eq ok,readable_length ok]

theorem load_take (b : ByteBuffer) {at_ n m : Nat} (le : n ≤ m) :
    b.load at_ n = (b.load at_ m).take n := by
  unfold load
  cases b.buffer with
  | none => simp
  | some block =>
    simp only [List.take_take]
    congr 1
    omega

theorem load_drop (b : ByteBuffer) (at_ k n : Nat) :
    b.load (at_ + k) n = (b.load at_ (k + n)).drop k := by
  unfold load
  cases b.buffer with
  | none => simp
  | some block =>
    simp only [List.drop_take,List.drop_drop,Nat.add_sub_cancel_left,Nat.add_assoc]

theorem readable_advance (b : ByteBuffer) {n : Nat} (le : n ≤ b.wrPtr - b.rdPtr) (stray : Bool) :
    readable {b with rdPtr := b.rdPtr + n, stray := stray} = b.readable.drop n := by
  have split : b.wrPtr - b.rdPtr = n + (b.wrPtr - (b.rdPtr + n)) := by omega
  rw [readable,readable,split,← load_drop]
  rfl

theorem advance_ok {b : ByteBuffer} (ok : b.Ok) {n : Nat} (le : n ≤ b.wrPtr - b.rdPtr)
    (stray : Bool) : Ok {b with rdPtr := b.rdPtr + n, stray := stray} := by
  obtain ⟨order,within,word,fits,small⟩ := ok
  exact ⟨by simp only; omega,within,word,fits,small⟩

theorem out_spec {b : ByteBuffer} (ok : b.Ok) {size : Nat} (le : size ≤ b.readable.length) :
    b.Out size = (some (b.readable.take size),{b with rdPtr := b.rdPtr + size}) := by
  rw [readable_length ok] at le
  have order := ok.order
  have within := ok.within
  have word := ok.word
  have inside : b.inside b.rdPtr size = true := inside_of_le ok (by omega)
  have small : u32 (b.rdPtr + size) = b.rdPtr + size := Nat.mod_eq_of_lt (by omega)
  rw [Out,if_pos (by rw [avail_eq ok]; exact le),load_take b le,inside,small,Bool.not_true,
    Bool.or_false]
  rfl

theorem out_short {b : ByteBuffer} (ok : b.Ok) {size : Nat} (short : b.readable.length < size) :
    b.Out size = (none,b) := by
  rw [← avail_readable ok] at short
  rw [Out,if_neg (by omega)]

/-- A write that fits appends to what can be read. -/
theorem in_spec {b : ByteBuffer} (ok : b.Ok) {data : Bytes} (le : data.length ≤ b.size - b.wrPtr) :
    ∃ b', b.In data = (true,b') ∧ b'.Ok ∧ b'.readable = b.readable ++ data ∧
      b'.rdPtr = b.rdPtr ∧ b'.wrPtr = b.wrPtr + data.length ∧ b'.size = b.size ∧
      b'.stray = b.stray := by
  have within := ok.within
  have order := ok.order
  have word := ok.word
  have inside : b.inside b.wrPtr data.length = true := inside_of_le ok (by omega)
  have small : u32 (b.wrPtr + data.length) = b.wrPtr + data.length := Nat.mod_eq_of_lt (by omega)
  have fits := (inside_iff b 0 b.size).mp ok.fits
  refine ⟨{b.store b.wrPtr data with wrPtr := b.wrPtr + data.length},?_,?_,?_,rfl,rfl,rfl,rfl⟩
  · rw [In,if_pos (by rw [free_eq ok]; exact le),small,inside,Bool.not_true,Bool.or_false]
    rfl
  · refine ⟨show b.rdPtr ≤ b.wrPtr + data.length by omega,
      show b.wrPtr + data.length ≤ b.size by omega,word,?_,?_⟩
    · rw [inside_iff]
      cases buffer : b.buffer with
      | none =>
        rw [buffer] at fits
        simpa [store,buffer] using fits
      | some block =>
        rw [buffer] at fits
        simp only [store,buffer,Option.map_some] at fits ⊢
        rw [Bytes.overwrite_length (by omega)]
        exact fits
    · intro block here
      obtain ⟨old,buffer,same⟩ := Option.map_eq_some_iff.mp here
      have fits := fits
      rw [buffer] at fits
      simp only at fits
      rw [← same,Bytes.overwrite_length (by omega)]
      exact ok.small old buffer
  · rw [readable,readable]
    unfold load
    cases buffer : b.buffer with
    | none =>
      rw [buffer] at fits
      have empty : data = [] := List.eq_nil_of_length_eq_zero (by simp only at fits; omega)
      simp [store,buffer,empty]
    | some block =>
      rw [buffer] at fits
      simp only at fits
      simp only [store,buffer,Option.map_some]
      have far : b.wrPtr + data.length - b.rdPtr =
          (block.off + b.wrPtr + data.length) - (block.off + b.rdPtr) := by omega
      have near : b.wrPtr - b.rdPtr = (block.off + b.wrPtr) - (block.off + b.rdPtr) := by omega
      rw [far,near,← List.drop_take,← List.drop_take,Bytes.overwrite_take (by omega),
        List.drop_append_of_le_length (by rw [List.length_take]; omega)]

theorem in_short {b : ByteBuffer} (ok : b.Ok) {data : Bytes}
    (short : b.size - b.wrPtr < data.length) : b.In data = (false,b) := by
  rw [In,if_neg (by rw [free_eq ok]; omega)]

/-- The scan ends at the first zero byte that can be read. -/
theorem terminator_ends {b : ByteBuffer} {str rest : Bytes} (plain : 0 ∉ str)
    (ends : b.readable = str ++ 0 :: rest) : b.terminator = some str.length := by
  unfold readable load at ends
  unfold terminator
  cases buffer : b.buffer with
  | none => simp [buffer] at ends
  | some block =>
    rw [buffer] at ends
    have whole := List.take_append_drop (b.wrPtr - b.rdPtr)
      (block.mem.drop (block.off + b.rdPtr))
    simp only at ends
    rw [ends,List.append_assoc] at whole
    have none_ : str.findIdx? (· == 0) = none := by
      rw [List.findIdx?_eq_none_iff]
      intro byte member
      simp only [beq_eq_false_iff_ne]
      rintro rfl
      exact plain member
    rw [Option.bind_some,← whole,List.findIdx?_append,none_]
    simp [List.findIdx?_cons]

theorem load_le (b : ByteBuffer) (at_ n : Nat) : (b.load at_ n).length ≤ n := by
  unfold load
  cases b.buffer with
  | none => exact Nat.zero_le _
  | some block => exact List.length_take_le _ _

theorem readable_le (b : ByteBuffer) : b.readable.length ≤ b.wrPtr - b.rdPtr :=
  load_le b b.rdPtr _

/-- Such a string is read, whatever is known of the capacity. -/
theorem getStr_ends {b : ByteBuffer} (word : b.wrPtr < 2^32) {str rest : Bytes} (plain : 0 ∉ str)
    (ends : b.readable = str ++ 0 :: rest) :
    b.getStr = (some str,{b with rdPtr := b.rdPtr + (str.length + 1)}) := by
  have length := readable_le b
  rw [ends] at length
  simp only [List.length_append,List.length_cons] at length
  have first : u32 (u32 str.length + 1) = str.length + 1 := by
    simp only [u32]
    omega
  have second : u32 (b.rdPtr + (str.length + 1)) = b.rdPtr + (str.length + 1) := by
    simp only [u32]
    omega
  have loaded : b.load b.rdPtr str.length = str := by
    rw [load_take b (show str.length ≤ b.wrPtr - b.rdPtr by omega)]
    change b.readable.take str.length = str
    rw [ends,List.take_left]
  unfold getStr
  rw [terminator_ends plain ends]
  simp only [first,second,loaded]
  rw [if_neg (by omega)]

theorem getStr_spec {b : ByteBuffer} (ok : b.Ok) {str rest : Bytes} (plain : 0 ∉ str)
    (ends : b.readable = str ++ 0 :: rest) :
    b.getStr = (some str,{b with rdPtr := b.rdPtr + (str.length + 1)}) :=
  getStr_ends (ok.within.trans_lt ok.word) plain ends

/-- Without a terminator before the write cursor nothing is consumed. -/
theorem getStr_none {b : ByteBuffer} (ok : b.Ok) (endless : 0 ∉ b.readable) :
    ∃ stray, b.getStr = (none,{b with stray := stray}) := by
  unfold getStr
  cases found : b.terminator with
  | none => exact ⟨true,rfl⟩
  | some n =>
    refine ⟨b.stray,?_⟩
    obtain ⟨block,buffer,at_⟩ := Option.bind_eq_some_iff.mp found
    have small := ok.small block buffer
    have order := ok.order
    obtain ⟨bound,zero,_⟩ := List.findIdx?_eq_some_iff_getElem.mp at_
    have late : b.wrPtr - b.rdPtr ≤ n := by
      by_contra early
      apply endless
      rw [beq_iff_eq] at zero
      rw [readable,load,buffer,← zero]
      exact List.mem_iff_getElem.mpr ⟨n,by simp only [List.length_take]; omega,List.getElem_take⟩
    simp only [List.length_drop] at bound
    have first : u32 (u32 n + 1) = n + 1 := by
      simp only [u32]
      omega
    have second : u32 (b.rdPtr + (n + 1)) = b.rdPtr + (n + 1) := by
      simp only [u32]
      omega
    simp only [first,second]
    rw [if_pos (by omega)]

end ByteBuffer

end Pworld
