import Pworld.Support.Bytes
import Pworld.Support.Loop

/-! The packet buffers of the network layer and the queue they circulate through.
`RawMessage` is the class as it computes, with `uint32` arithmetic; `Message`
carries the relation of its three lengths and its block of memory. -/
namespace Pworld.Net

def maxBufferSize : Nat := 0x1000
def maxPacketSize : Nat := 0x4000
def memoryUnitSize : Nat := maxBufferSize

def u32 (n : Nat) : Nat := n % 2^32
def u64 (n : Nat) : Nat := n % 2^64

def u32Sub (a b : Nat) : Nat := u32 (a + 2^32 - b)

structure RawMessage where
  addr : Nat
  size : Nat
  data : Bytes  -- the block, as long as it was really allocated
  currLen : Nat
  dataLen : Nat
  param : Nat
  ptr : Option Nat  -- the session that received the message
  deriving Repr,DecidableEq

namespace RawMessage

-- what a fresh block holds is never read before it is written
def new (addr size : Nat) : RawMessage :=
  ⟨addr,size,List.replicate size 0,0,0,0,none⟩

def full (m : RawMessage) : Bool := m.dataLen == m.currLen

def grown (old size : Nat) : Nat :=
  u32 (old + u32 ((size / memoryUnitSize + 1) * memoryUnitSize))

def reset (m : RawMessage) (size : Nat) : RawMessage :=
  if size > m.size then
    ⟨m.addr,grown m.size size,List.replicate (grown m.size size) 0,0,size,0,none⟩
  else
    ⟨m.addr,m.size,m.data,0,size,0,none⟩

/-- One round of the loop of `Fill`, over the bytes not yet taken. -/
def fillBody : RawMessage × Bytes → Option ((RawMessage × Bytes) ⊕ (RawMessage × Bytes))
  | (m,data) =>
    if !m.full && !data.isEmpty then
      let free := u32Sub m.dataLen m.currLen
      let byte := min free data.length
      some (.inl ({m with
        data := Bytes.overwrite m.data m.currLen (data.take byte)
        currLen := u32 (m.currLen + byte)},data.drop byte))
    else some (.inr (m,data))

def fill (m : RawMessage) (data : Bytes) : Option (RawMessage × Bytes) :=
  if m.dataLen = 0 then some (m,data) else Loop.iterate fillBody (data.length+1) (m,data)

/-- The lengths agree with each other and with the memory, and capacity stays
within eight units of its remainder. -/
structure Ok (m : RawMessage) : Prop where
  alloc : m.data.length = m.size
  cap : m.dataLen ≤ m.size
  pos : m.currLen ≤ m.dataLen
  bound : m.size ≤ 8*maxBufferSize + m.size % maxBufferSize

theorem Ok.small {m : RawMessage} (ok : m.Ok) : m.size < 2^16 := by
  have bound := ok.bound
  have rem := Nat.mod_lt m.size (show 0 < maxBufferSize by decide)
  simp only [maxBufferSize] at bound rem
  omega

theorem new_ok (addr size : Nat) (bound : size ≤ 8*maxBufferSize) : (new addr size).Ok :=
  ⟨List.length_replicate,Nat.zero_le _,Nat.le_refl _,by simp only [new]; omega⟩

theorem grown_eq {old size : Nat} (fits : size ≤ maxPacketSize) (small : old < size) :
    grown old size = old + (size / maxBufferSize + 1) * maxBufferSize := by
  simp only [grown,u32,memoryUnitSize,maxBufferSize,maxPacketSize] at *
  omega

theorem reset_ok {m : RawMessage} (ok : m.Ok) {size : Nat} (fits : size ≤ maxPacketSize) :
    (m.reset size).Ok := by
  unfold reset
  split
  next larger =>
    have grown := grown_eq fits larger
    have bound := ok.bound
    refine ⟨List.length_replicate,?_,Nat.zero_le _,?_⟩
    · simp only [grown,maxBufferSize] at *
      omega
    · simp only [grown,maxBufferSize,maxPacketSize] at *
      omega
  next within => exact ⟨ok.alloc,by simp only; omega,Nat.zero_le _,ok.bound⟩

def filled (m : RawMessage) (data : Bytes) : RawMessage :=
  {m with
    data := Bytes.overwrite m.data m.currLen (data.take (m.dataLen-m.currLen))
    currLen := m.currLen + min (m.dataLen-m.currLen) data.length}

theorem fillBody_progress {m : RawMessage} (ok : m.Ok) {data : Bytes}
    (room : m.currLen < m.dataLen) (input : data ≠ []) :
    fillBody (m,data) = some (.inl (m.filled data,data.drop (m.dataLen-m.currLen))) := by
  have small := ok.small
  have cap := ok.cap
  have open_ : m.full = false := by simp only [full,beq_eq_false_iff_ne]; omega
  have free : u32Sub m.dataLen m.currLen = m.dataLen - m.currLen := by
    simp only [u32Sub,u32]
    omega
  have take : data.take (min (m.dataLen-m.currLen) data.length) =
      data.take (m.dataLen-m.currLen) := by rw [List.take_eq_take_iff]; omega
  have drop : data.drop (min (m.dataLen-m.currLen) data.length) =
      data.drop (m.dataLen-m.currLen) := by
    rcases Nat.le_total (m.dataLen-m.currLen) data.length with less | more
    · rw [Nat.min_eq_left less]
    · rw [Nat.min_eq_right more,List.drop_length,List.drop_of_length_le more]
  have wrap : u32 (m.currLen + min (m.dataLen-m.currLen) data.length) =
      m.currLen + min (m.dataLen-m.currLen) data.length := by
    simp only [u32]
    omega
  have nonempty : data.isEmpty = false := by simpa using input
  simp only [fillBody,open_,nonempty,Bool.not_false,Bool.and_self,if_true,free,take,drop,wrap,
    filled]

theorem fillBody_stop {m : RawMessage} {data : Bytes} (stop : m.full = true ∨ data = []) :
    fillBody (m,data) = some (.inr (m,data)) := by
  rcases stop with full | rfl
  · simp [fillBody,full]
  · simp [fillBody]

theorem filled_stop {m : RawMessage} {data : Bytes}
    (stop : m.full = true ∨ data = []) : m.filled data = m := by
  have none_taken : data.take (m.dataLen-m.currLen) = [] := by
    rcases stop with full | rfl
    · simp only [RawMessage.full,beq_iff_eq] at full
      simp [full]
    · simp
  have same : Bytes.overwrite m.data m.currLen [] = m.data := by
    simp [Bytes.overwrite]
  have length : min (m.dataLen-m.currLen) data.length = 0 := by
    simpa using congrArg List.length none_taken
  simp only [filled,none_taken,same,length,Nat.add_zero]

theorem fill_eq {m : RawMessage} (ok : m.Ok) (data : Bytes) :
    m.fill data = some (m.filled data,data.drop (m.dataLen-m.currLen)) := by
  by_cases stop : m.full = true ∨ data = []
  · have rest : data.drop (m.dataLen-m.currLen) = data := by
      rcases stop with full | rfl
      · simp only [RawMessage.full,beq_iff_eq] at full
        simp [full]
      · simp
    rw [filled_stop stop,rest]
    unfold fill
    split
    · rfl
    · exact Loop.iterate_leave _ (fillBody_stop stop)
  · have pos := ok.pos
    simp only [full,beq_iff_eq,not_or] at stop
    have room : m.currLen < m.dataLen := by omega
    have nonzero : m.dataLen ≠ 0 := by omega
    have input : 0 < data.length := List.length_pos_iff.mpr stop.2
    obtain ⟨k,size⟩ : ∃ k, data.length = k+1 := ⟨data.length-1,by omega⟩
    rw [fill,if_neg nonzero,Loop.iterate_again _ (fillBody_progress ok room stop.2),size]
    apply Loop.iterate_leave
    apply fillBody_stop
    rcases Nat.le_total (m.dataLen-m.currLen) data.length with less | more
    · left
      simp only [full,filled,beq_iff_eq]
      omega
    · right
      exact List.drop_of_length_le more

theorem filled_ok {m : RawMessage} (ok : m.Ok) (data : Bytes) : (m.filled data).Ok := by
  have pos := ok.pos
  have cap := ok.cap
  have alloc := ok.alloc
  refine ⟨?_,cap,?_,ok.bound⟩
  · rw [filled,Bytes.overwrite_length]
    · exact alloc
    · simp only [List.length_take]
      omega
  · simp only [filled]
    omega

end RawMessage

structure Message extends RawMessage where
  ok : toRawMessage.Ok

namespace Message

instance : DecidableEq Message := fun a b =>
  decidable_of_iff (a.toRawMessage = b.toRawMessage)
    ⟨fun same => by cases a; cases b; cases same; rfl,fun same => congrArg _ same⟩

/-- `Data()` up to `DataLength()`. -/
def bytes (m : Message) : Bytes := m.data.take m.currLen

def new (addr : Nat) : Message :=
  ⟨.new addr memoryUnitSize,RawMessage.new_ok _ _ (by decide)⟩

def newHeader (addr : Nat) : Message :=
  ⟨.new addr 4,RawMessage.new_ok _ _ (by decide)⟩

def reset (m : Message) (size : Nat) (fits : size ≤ maxPacketSize) : Message :=
  ⟨m.toRawMessage.reset size,RawMessage.reset_ok m.ok fits⟩

theorem fill_returns (m : Message) (data : Bytes) :
    (m.toRawMessage.fill data).isSome = true := by
  rw [RawMessage.fill_eq m.ok]
  rfl

theorem fill_ok (m : Message) (data : Bytes) :
    ((m.toRawMessage.fill data).get (m.fill_returns data)).1.Ok := by
  simp only [RawMessage.fill_eq m.ok,Option.get_some]
  exact RawMessage.filled_ok m.ok data

def fill (m : Message) (data : Bytes) : Message × Bytes :=
  let r := (m.toRawMessage.fill data).get (m.fill_returns data)
  (⟨r.1,m.fill_ok data⟩,r.2)

theorem fill_raw (m : Message) (data : Bytes) :
    (m.fill data).1.toRawMessage = m.toRawMessage.filled data := by
  simp [fill,RawMessage.fill_eq m.ok]

@[simp] theorem fill_rest (m : Message) (data : Bytes) :
    (m.fill data).2 = data.drop (m.dataLen-m.currLen) := by
  simp [fill,RawMessage.fill_eq m.ok]

@[simp] theorem fill_dataLen (m : Message) (data : Bytes) :
    (m.fill data).1.dataLen = m.dataLen := by
  rw [fill_raw]; rfl

@[simp] theorem fill_currLen (m : Message) (data : Bytes) :
    (m.fill data).1.currLen = m.currLen + min (m.dataLen-m.currLen) data.length := by
  rw [fill_raw]; rfl

@[simp] theorem fill_bytes (m : Message) (data : Bytes) :
    (m.fill data).1.bytes = m.bytes ++ data.take (m.dataLen-m.currLen) := by
  have alloc := m.ok.alloc
  have cap := m.ok.cap
  have pos := m.ok.pos
  rw [bytes,fill_currLen,fill_raw,RawMessage.filled,← List.length_take]
  exact Bytes.overwrite_take (by omega)

theorem bytes_length (m : Message) : m.bytes.length = m.currLen := by
  have alloc := m.ok.alloc
  have cap := m.ok.cap
  have pos := m.ok.pos
  rw [bytes,List.length_take]
  omega

theorem full_iff (m : Message) : m.full = true ↔ m.currLen = m.dataLen := by
  simp only [RawMessage.full,beq_iff_eq]
  omega

@[simp] theorem reset_bytes (m : Message) (size : Nat) (fits : size ≤ maxPacketSize) :
    (m.reset size fits).bytes = [] := by
  simp only [bytes,reset,RawMessage.reset]
  split <;> rfl

@[simp] theorem reset_currLen (m : Message) (size : Nat) (fits : size ≤ maxPacketSize) :
    (m.reset size fits).currLen = 0 := by
  simp only [reset,RawMessage.reset]
  split <;> rfl

@[simp] theorem reset_dataLen (m : Message) (size : Nat) (fits : size ≤ maxPacketSize) :
    (m.reset size fits).dataLen = size := by
  simp only [reset,RawMessage.reset]
  split <;> rfl

def own (m : Message) (s : Nat) : Message :=
  ⟨{m.toRawMessage with param := 0, ptr := some s},m.ok.alloc,m.ok.cap,m.ok.pos,m.ok.bound⟩

@[simp] theorem own_ptr (m : Message) (s : Nat) : (m.own s).ptr = some s := rfl

/-- `while (size && !m.Full()) m.Fill(data, size)`, as the receive path writes it. -/
def fillWhile (m : Message) (data : Bytes) : Option (Message × Bytes) :=
  Loop.whileDo (fun s : Message × Bytes => !s.2.isEmpty && !s.1.full)
    (fun s => s.1.fill s.2) (data.length+1) (m,data)

theorem fill_stop (m : Message) {data : Bytes} (stop : m.full = true ∨ data = []) :
    m.fill data = (m,data) := by
  have rest : data.drop (m.dataLen-m.currLen) = data := by
    rcases stop with full | rfl
    · simp [(m.full_iff.mp full)]
    · simp
  apply Prod.ext
  · have raw := m.fill_raw data
    rw [RawMessage.filled_stop stop] at raw
    cases m
    simp only at raw
    generalize fill _ _ = r at raw
    cases r with
    | mk m' rest => cases m'; cases raw; rfl
  · rw [fill_rest,rest]

theorem fill_stops (m : Message) (data : Bytes) :
    (m.fill data).1.full = true ∨ (m.fill data).2 = [] := by
  have pos := m.ok.pos
  rcases Nat.le_total (m.dataLen-m.currLen) data.length with less | more
  · left
    rw [full_iff,fill_currLen,fill_dataLen]
    omega
  · right
    rw [fill_rest]
    exact List.drop_of_length_le more

/-- The surrounding loop adds nothing to one `Fill`, and ends. -/
theorem fillWhile_eq (m : Message) (data : Bytes) : m.fillWhile data = some (m.fill data) := by
  have leave (k : Nat) (n : Message) (rest : Bytes) (stop : n.full = true ∨ rest = []) :
      Loop.whileDo (fun s : Message × Bytes => !s.2.isEmpty && !s.1.full)
        (fun s => s.1.fill s.2) (k+1) (n,rest) = some (n,rest) := by
    apply Loop.iterate_leave
    rcases stop with full | rfl
    · simp [full]
    · simp
  by_cases stop : m.full = true ∨ data = []
  · rw [fill_stop m stop]
    exact leave _ _ _ stop
  · simp only [not_or,Bool.not_eq_true] at stop
    obtain ⟨k,size⟩ : ∃ k, data.length = k+1 :=
      ⟨data.length-1,by have := List.length_pos_iff.mpr stop.2; omega⟩
    have again : (if !data.isEmpty && !m.full then Sum.inl (m.fill data) else Sum.inr (m,data)) =
        (.inl (m.fill data) : (Message × Bytes) ⊕ (Message × Bytes)) := by simp [stop]
    rw [fillWhile,size,Loop.whileDo,Loop.iterate_again _ (congrArg some again)]
    exact leave k _ _ (m.fill_stops data)

end Message

def Message.opcode (m : Message) : Nat := Bytes.ofLe (m.data.take 2)
def Message.packetLength (m : Message) : Nat := u32Sub m.currLen 2

structure MessageQueue where
  waiting : List Message
  recycle : List Message
  deriving DecidableEq

namespace MessageQueue

/-- `ApplyMessage`, with the address that `new` would return; true when it was used. -/
def applyMessage (q : MessageQueue) (fresh : Nat) : Message × MessageQueue × Bool :=
  match q.recycle with
  | [] => (.new fresh,q,true)
  | m::rest => (m,{q with recycle := rest},false)

def freeMessage (q : MessageQueue) (m : Message) : MessageQueue :=
  {q with recycle := q.recycle ++ [m]}

def pushMessage (q : MessageQueue) (m : Message) : MessageQueue :=
  {q with waiting := q.waiting ++ [m]}

def popMessage (q : MessageQueue) : Option Message × MessageQueue :=
  match q.waiting with
  | [] => (none,q)
  | m::rest => (some m,{q with waiting := rest})

theorem applyMessage_waiting (q : MessageQueue) (fresh : Nat) :
    (q.applyMessage fresh).2.1.waiting = q.waiting := by
  unfold applyMessage
  split <;> rfl

end MessageQueue

end Pworld.Net
