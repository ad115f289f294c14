import Pworld.Net.Intake
import Pworld.Net.Transmit
import Pworld.Support.Runs
import Mathlib.Logic.Relation

/-! How large the buffers become. They are reset for one purpose after another and keep the
memory they have; the lengths that sessions ask for keep all of it in range. -/
namespace Pworld.Net

/-- The lengths that `Reset` is given: of a header, of a buffer to send, of a packet. -/
def Passed (size : Nat) : Prop :=
  size = 4 ∨ size = maxBufferSize ∨ 2 ≤ size ∧ size ≤ maxPacketSize

instance (size : Nat) : Decidable (Passed size) :=
  inferInstanceAs (Decidable (size = 4 ∨ size = maxBufferSize ∨ 2 ≤ size ∧ size ≤ maxPacketSize))

theorem Passed.fits {size : Nat} (passed : Passed size) : size ≤ maxPacketSize := by
  unfold Passed at passed
  simp only [maxBufferSize,maxPacketSize] at passed ⊢
  omega

namespace RawMessage

/-- The loop of `Fill` comes from the first to the second. -/
def Rounds : RawMessage × Bytes → RawMessage × Bytes → Prop :=
  Relation.ReflTransGen fun s t => fillBody s = some (.inl t)

/-- What is promised of a message that circulates. Where `Reset` allocates, its sum and its
product are what they are without bound; where `Fill` copies, its difference and its sum are,
and what it copies fits into the memory. -/
structure Safe (m : RawMessage) : Prop where
  lengths : m.currLen ≤ m.dataLen ∧ m.dataLen ≤ m.size
  alloc : m.data.length = m.size
  reset : ∀ size, Passed size → m.size < size →
    m.size + (size / memoryUnitSize + 1) * memoryUnitSize < 2^32
  fill : ∀ data m' rest, Rounds (m,data) (m',rest) → m'.currLen ≤ m'.dataLen ∧
    m'.currLen + min (m'.dataLen - m'.currLen) rest.length ≤ m'.data.length ∧ m'.data.length < 2^32
  consumes : ∀ data, m.full = false → data ≠ [] →
    ∃ m' rest, m.fill data = some (m',rest) ∧ rest.length < data.length

theorem fillBody_ok {m : RawMessage} (ok : m.Ok) {data : Bytes} {s : RawMessage × Bytes}
    (again : fillBody (m,data) = some (.inl s)) : s.1.Ok := by
  by_cases stop : m.full = true ∨ data = []
  · rw [fillBody_stop stop] at again
    cases again
  · simp only [full,beq_iff_eq,not_or] at stop
    have pos := ok.pos
    have room : m.currLen < m.dataLen := by omega
    rw [fillBody_progress ok room stop.2] at again
    cases again
    exact filled_ok ok data

theorem Rounds.ok {m : RawMessage} (ok : m.Ok) {data : Bytes} {s : RawMessage × Bytes}
    (rounds : Rounds (m,data) s) : s.1.Ok := by
  induction rounds with
  | refl => exact ok
  | tail _ again ih => exact fillBody_ok ih again

theorem Ok.safe {m : RawMessage} (ok : m.Ok) : m.Safe where
  lengths := ⟨ok.pos,ok.cap⟩
  alloc := ok.alloc
  reset := by
    intro size passed _
    have fits := passed.fits
    have small := ok.small
    simp only [memoryUnitSize,maxBufferSize,maxPacketSize] at *
    omega
  fill := by
    intro data m' rest rounds
    have ok' : m'.Ok := rounds.ok ok
    have small := ok'.small
    have cap := ok'.cap
    have pos := ok'.pos
    have alloc := ok'.alloc
    refine ⟨pos,?_,?_⟩
    · omega
    · omega
  consumes := by
    intro data open_ input
    refine ⟨_,_,fill_eq ok data,?_⟩
    simp only [full,beq_eq_false_iff_ne] at open_
    have pos := ok.pos
    have length : 0 < data.length := List.length_pos_iff.mpr input
    rw [List.length_drop]
    omega

/-- The capacity of a message that comes from a pool. -/
structure Pooled (m : RawMessage) : Prop where
  ok : m.Ok
  units : m.size % maxBufferSize = 0

theorem Pooled.size_le {m : RawMessage} (pooled : m.Pooled) : m.size ≤ 8 * maxBufferSize := by
  have bound := pooled.ok.bound
  rwa [pooled.units,Nat.add_zero] at bound

theorem Pooled.new (addr : Nat) : (RawMessage.new addr memoryUnitSize).Pooled :=
  ⟨new_ok _ _ (by decide),Nat.mod_self _⟩

theorem Pooled.reset {m : RawMessage} (pooled : m.Pooled) {size : Nat} (passed : Passed size) :
    (m.reset size).Pooled := by
  refine ⟨reset_ok pooled.ok passed.fits,?_⟩
  unfold RawMessage.reset
  split
  next larger =>
    simp only [grown_eq passed.fits larger]
    rw [Nat.add_mul_mod_self_right]
    exact pooled.units
  next => exact pooled.units

theorem Pooled.filled {m : RawMessage} (pooled : m.Pooled) (data : Bytes) :
    (m.filled data).Pooled :=
  ⟨filled_ok pooled.ok data,pooled.units⟩

end RawMessage

/-- The headers of the sessions, and the buffers of a pool: those applied for and those freed. -/
structure BufferPool where
  headers : List RawMessage
  used : List RawMessage
  recycle : List RawMessage
  next : Nat
  deriving DecidableEq,Repr

inductive BufferPoolOp where
  | session
  | resetHeader (n : Nat)
  | fillHeader (n : Nat) (data : Bytes)
  | apply
  | reset (n size : Nat)
  | fill (n : Nat) (data : Bytes)
  | free (n : Nat)
  | delete (n : Nat)
  deriving DecidableEq,Repr

namespace BufferPool

def start : BufferPool := ⟨[],[],[],0⟩

def onHeader (b : BufferPool) (n : Nat) (f : RawMessage → Option RawMessage) : Option BufferPool :=
  (b.headers[n]?).bind fun m => (f m).map fun m => {b with headers := b.headers.set n m}

def onUsed (b : BufferPool) (n : Nat) (f : RawMessage → Option RawMessage) : Option BufferPool :=
  (b.used[n]?).bind fun m => (f m).map fun m => {b with used := b.used.set n m}

def step (b : BufferPool) : BufferPoolOp → Option BufferPool
  | .session => some {b with headers := b.headers ++ [.new b.next 4], next := b.next + 1}
  | .resetHeader n => b.onHeader n fun m => some (m.reset 4)
  | .fillHeader n data => b.onHeader n fun m => (m.fill data).map Prod.fst
  | .apply =>
    match b.recycle with
    | [] => some {b with used := b.used ++ [.new b.next memoryUnitSize], next := b.next + 1}
    | m::rest => some {b with used := b.used ++ [m], recycle := rest}
  | .reset n size => b.onUsed n fun m => if Passed size then some (m.reset size) else none
  | .fill n data => b.onUsed n fun m => (m.fill data).map Prod.fst
  | .free n => (b.used[n]?).map fun m => {b with
      used := b.used.eraseIdx n, recycle := b.recycle ++ [m]}
  | .delete n => (b.used[n]?).map fun _ => {b with used := b.used.eraseIdx n}

structure Inv (b : BufferPool) : Prop where
  headers : ∀ m ∈ b.headers, m.Ok
  used : ∀ m ∈ b.used, m.Pooled
  recycle : ∀ m ∈ b.recycle, m.Pooled

/-- All are safe, and those of the pool have at most eight units. -/
structure Sound (b : BufferPool) : Prop where
  safe : ∀ m ∈ b.headers ++ b.used ++ b.recycle, m.Safe
  size : ∀ m ∈ b.used ++ b.recycle, m.size ≤ 8 * maxBufferSize

theorem Inv.sound {b : BufferPool} (inv : b.Inv) : b.Sound := by
  constructor
  · intro m member
    rcases List.mem_append.mp member with front | free
    · rcases List.mem_append.mp front with header | used
      · exact (inv.headers m header).safe
      · exact (inv.used m used).ok.safe
    · exact (inv.recycle m free).ok.safe
  · intro m member
    rcases List.mem_append.mp member with used | free
    · exact (inv.used m used).size_le
    · exact (inv.recycle m free).size_le

theorem Inv.onHeader {b b' : BufferPool} {n : Nat} {f : RawMessage → Option RawMessage}
    (inv : b.Inv) (keeps : ∀ m m', m.Ok → f m = some m' → m'.Ok)
    (stepped : b.onHeader n f = some b') : b'.Inv := by
  obtain ⟨m,at_,stepped⟩ := Option.bind_eq_some_iff.mp stepped
  obtain ⟨m',done,rfl⟩ := Option.map_eq_some_iff.mp stepped
  refine ⟨?_,inv.used,inv.recycle⟩
  intro x member
  rcases List.mem_or_eq_of_mem_set member with old | rfl
  · exact inv.headers x old
  · exact keeps m x (inv.headers m (List.mem_of_getElem? at_)) done

theorem Inv.onUsed {b b' : BufferPool} {n : Nat} {f : RawMessage → Option RawMessage} (inv : b.Inv)
    (keeps : ∀ m m', m.Pooled → f m = some m' → m'.Pooled) (stepped : b.onUsed n f = some b') :
    b'.Inv := by
  obtain ⟨m,at_,stepped⟩ := Option.bind_eq_some_iff.mp stepped
  obtain ⟨m',done,rfl⟩ := Option.map_eq_some_iff.mp stepped
  refine ⟨inv.headers,?_,inv.recycle⟩
  intro x member
  rcases List.mem_or_eq_of_mem_set member with old | rfl
  · exact inv.used x old
  · exact keeps m x (inv.used m (List.mem_of_getElem? at_)) done

theorem fill_fst {m m' : RawMessage} (ok : m.Ok) {data : Bytes}
    (filled : (m.fill data).map Prod.fst = some m') : m' = m.filled data := by
  rw [RawMessage.fill_eq ok] at filled
  exact (Option.some.inj filled).symm

theorem inv_step {b b' : BufferPool} {o : BufferPoolOp} (inv : b.Inv) (stepped : b.step o = some b') :
    b'.Inv := by
  cases o with
  | session =>
    cases stepped
    refine ⟨?_,inv.used,inv.recycle⟩
    intro m member
    rcases List.mem_append.mp member with old | new
    · exact inv.headers m old
    · rw [List.mem_singleton.mp new]
      exact RawMessage.new_ok _ _ (by decide)
  | resetHeader n =>
    apply inv.onHeader _ stepped
    intro m m' ok same
    cases same
    exact RawMessage.reset_ok ok (by decide)
  | fillHeader n data =>
    apply inv.onHeader _ stepped
    intro m m' ok filled
    rw [fill_fst ok filled]
    exact RawMessage.filled_ok ok data
  | apply =>
    simp only [step] at stepped
    split at stepped
    next =>
      cases stepped
      refine ⟨inv.headers,?_,inv.recycle⟩
      intro m member
      rcases List.mem_append.mp member with old | new
      · exact inv.used m old
      · rw [List.mem_singleton.mp new]
        exact .new _
    next m rest pool =>
      cases stepped
      have free := inv.recycle
      rw [pool] at free
      refine ⟨inv.headers,?_,fun x member => free x (List.mem_cons_of_mem m member)⟩
      intro x member
      rcases List.mem_append.mp member with old | new
      · exact inv.used x old
      · rw [List.mem_singleton.mp new]
        exact free m List.mem_cons_self
  | reset n size =>
    apply inv.onUsed _ stepped
    intro m m' pooled same
    split at same
    next passed =>
      cases same
      exact pooled.reset passed
    next => cases same
  | fill n data =>
    apply inv.onUsed _ stepped
    intro m m' pooled filled
    rw [fill_fst pooled.ok filled]
    exact pooled.filled data
  | free n =>
    obtain ⟨m,at_,rfl⟩ := Option.map_eq_some_iff.mp stepped
    refine ⟨inv.headers,fun x member => inv.used x (List.mem_of_mem_eraseIdx member),?_⟩
    intro x member
    rcases List.mem_append.mp member with old | new
    · exact inv.recycle x old
    · rw [List.mem_singleton.mp new]
      exact inv.used m (List.mem_of_getElem? at_)
  | delete n =>
    obtain ⟨m,at_,rfl⟩ := Option.map_eq_some_iff.mp stepped
    exact ⟨inv.headers,fun x member => inv.used x (List.mem_of_mem_eraseIdx member),inv.recycle⟩

theorem inv_start : start.Inv := by
  refine ⟨?_,?_,?_⟩
  · intro m member
    cases member
  · intro m member
    cases member
  · intro m member
    cases member

end BufferPool

/-- Those that are queued or free; a packet that waits has two bytes at least. -/
structure Env.Sized (env : Env) : Prop where
  waiting : ∀ m ∈ env.recvQue.waiting, 2 ≤ m.currLen ∧ m.Pooled
  recv : ∀ m ∈ env.recvQue.recycle, m.Pooled
  send : ∀ m ∈ env.sendQue.waiting ++ env.sendQue.recycle, m.Pooled
  deleted : ∀ m ∈ env.deleted, m.Pooled

/-- Those that a session holds; a packet begun is to have two bytes at least. -/
structure Session.Sized (s : Session) : Prop where
  begun : ∀ m, s.msgRecv = some m → 2 ≤ m.dataLen ∧ m.Pooled
  queued : ∀ m ∈ s.queSend, m.Pooled
  current : ∀ m, s.msgSend = some m → m.Pooled

theorem Session.Sized.of_same {s t : Session} (sized : s.Sized) (recv : t.msgRecv = s.msgRecv)
    (que : t.queSend = s.queSend) (msg : t.msgSend = s.msgSend) : t.Sized := by
  refine ⟨?_,?_,?_⟩
  · rw [recv]
    exact sized.begun
  · rw [que]
    exact sized.queued
  · rw [msg]
    exact sized.current

theorem Message.fill_pooled {m : Message} (pooled : m.Pooled) (data : Bytes) :
    (m.fill data).1.Pooled := by
  rw [Message.fill_raw]
  exact pooled.filled data

theorem MessageQueue.applyMessage_pooled {q : MessageQueue} (fresh : Nat)
    (pooled : ∀ m ∈ q.recycle, m.Pooled) : (q.applyMessage fresh).1.Pooled ∧
      ∀ m ∈ (q.applyMessage fresh).2.1.recycle, m.Pooled := by
  unfold applyMessage
  split
  next => exact ⟨.new fresh,pooled⟩
  next m rest free =>
    rw [free] at pooled
    exact ⟨pooled m List.mem_cons_self,fun x member => pooled x (List.mem_cons_of_mem m member)⟩

namespace Ctx

structure Sized (c : Ctx) : Prop where
  env : c.env.Sized
  self : c.self.Sized

theorem Sized.of_same {c : Ctx} {s : Session} (sized : c.Sized) (recv : s.msgRecv = c.self.msgRecv)
    (que : s.queSend = c.self.queSend) (msg : s.msgSend = c.self.msgSend) :
    Sized {c with self := s} :=
  ⟨sized.env,sized.self.of_same recv que msg⟩

theorem disconnect_sized {c : Ctx} (sized : c.Sized) : Sized {c with self := c.self.Disconnect} := by
  unfold Session.Disconnect
  split
  · exact sized.of_same rfl rfl rfl
  · exact sized

theorem applySend_sized {c : Ctx} (sized : c.Sized) :
    c.applySend.1.Pooled ∧ c.applySend.2.Sized := by
  obtain ⟨applied,rest⟩ := MessageQueue.applyMessage_pooled c.env.next
    fun m member => sized.env.send m (List.mem_append_right _ member)
  refine ⟨applied,⟨sized.env.waiting,sized.env.recv,?_,sized.env.deleted⟩,sized.self⟩
  intro m member
  rcases List.mem_append.mp member with waits | free
  · rw [applySend,MessageQueue.applyMessage_waiting] at waits
    exact sized.env.send m (List.mem_append_left _ waits)
  · exact rest m free

theorem openBack_sized {c : Ctx} (sized : c.Sized) : c.openBack.Sized := by
  unfold openBack
  split
  next =>
    obtain ⟨applied,rest⟩ := applySend_sized sized
    refine ⟨rest.env,rest.self.begun,?_,rest.self.current⟩
    intro m member
    rcases List.mem_append.mp member with old | new
    · exact rest.self.queued m old
    · rw [List.mem_singleton.mp new]
      exact applied.reset (.inr (.inl rfl))
  next => exact sized

theorem sendBody_sized {c : Ctx} {data : Bytes} {o : (Ctx × Bytes) ⊕ Ctx} (sized : c.Sized)
    (ran : _sendBody (c,data) = some o) : (o.elim Prod.fst id).Sized := by
  simp only [_sendBody] at ran
  split at ran
  next =>
    cases ran
    exact sized
  next =>
    split at ran
    next => cases ran
    next writer back =>
      cases ran
      have opened := openBack_sized sized
      refine ⟨opened.env,opened.self.begun,?_,opened.self.current⟩
      intro m member
      rcases List.mem_append.mp member with old | new
      · exact opened.self.queued m (List.dropLast_subset _ old)
      · rw [List.mem_singleton.mp new]
        exact Message.fill_pooled (opened.self.queued writer (List.mem_of_getLast? back)) data

theorem send_sized {c c' : Ctx} {data : Bytes} (sized : c.Sized) (ran : c.send data = some c') :
    c'.Sized := by
  have wrote {d d' : Ctx} {bytes : Bytes} (before : d.Sized) (ran : d._send bytes = some d') :
      d'.Sized := by
    apply Loop.iterate_partial (fun s => s.1.Sized) Sized _ _ before ran
    · intro s s' before again
      exact sendBody_sized before again
    · intro s d before left
      exact sendBody_sized before left
  unfold send at ran
  split at ran
  next =>
    cases ran
    exact sized
  next =>
    split at ran
    next => cases ran
    next d first => exact wrote (wrote sized first) ran

theorem fetchSend_sized {c : Ctx} (sized : c.Sized) : c.fetchSend.2.Sized := by
  unfold fetchSend
  split
  next => exact sized
  next empty =>
    split
    next => exact sized
    next m rest que =>
      split
      next => exact sized.of_same rfl rfl empty.symm
      next =>
        have queued := sized.self.queued
        rw [que] at queued
        refine ⟨sized.env,sized.self.begun,?_,?_⟩
        · exact fun x member => queued x (List.mem_cons_of_mem m member)
        · intro x same
          cases same
          exact queued m List.mem_cons_self

theorem sendRound_sized {c : Ctx} {m : Message} {ret : SendRet} {o : Ctx ⊕ Ctx} (sized : c.Sized)
    (current : c.self.msgSend = some m) (stepped : c.sendRound m ret = some o) :
    (o.elim id id).Sized := by
  unfold sendRound at stepped
  cases ret with
  | again =>
    cases stepped
    exact sized.of_same rfl rfl rfl
  | intr =>
    cases stepped
    exact sized.of_same rfl rfl rfl
  | err errno =>
    cases stepped
    exact sized.of_same rfl rfl rfl
  | sent n =>
    simp only at stepped
    split_ifs at stepped
    · cases stepped
      refine ⟨⟨sized.env.waiting,sized.env.recv,?_,sized.env.deleted⟩,sized.self.begun,
        sized.self.queued,?_⟩
      · intro x member
        rcases List.mem_append.mp member with waits | free
        · exact sized.env.send x (List.mem_append_left _ waits)
        · rcases List.mem_append.mp free with old | new
          · exact sized.env.send x (List.mem_append_right _ old)
          · rw [List.mem_singleton.mp new]
            exact sized.self.current m current
      · intro x impossible
        cases impossible
    · cases stepped
      exact sized.of_same rfl rfl rfl

theorem postSend_sized {rets : List SendRet} {c c' : Ctx} (sized : c.Sized)
    (ran : c.postSend rets = some c') : c'.Sized := by
  unfold postSend at ran
  split_ifs at ran
  · cases ran
    exact sized.of_same rfl rfl rfl
  · cases ran
    exact sized
  · cases ran
    exact sized
  · apply postSendLoop_rule Sized _ _ sized ran
    · intro d before
      exact fetchSend_sized before
    · intro d m ret o _ before current stepped
      exact sendRound_sized before current stepped

/-- The length announced is checked before a packet is begun. -/
theorem beginRecv_sized {c d : Ctx} {m : Message} (sized : c.Sized)
    (began : c.beginRecv = some (m,d)) : 2 ≤ m.dataLen ∧ m.Pooled ∧ d.Sized := by
  unfold beginRecv at began
  split at began
  next m' stored =>
    cases began
    obtain ⟨low,pooled⟩ := sized.self.begun m stored
    exact ⟨low,pooled,sized⟩
  next =>
    split at began
    next => cases began
    next accept =>
      cases began
      obtain ⟨applied,rest⟩ := MessageQueue.applyMessage_pooled c.env.next sized.env.recv
      refine ⟨?_,applied.reset (.inr (.inr (by omega))),⟨?_,rest,sized.env.send,
        sized.env.deleted⟩,sized.self⟩
      · rw [Message.reset_dataLen]
        omega
      · rw [applyRecv_waiting]
        exact sized.env.waiting

theorem endRecv_sized {d : Ctx} {m : Message} (now : Nat) (low : 2 ≤ m.dataLen)
    (pooled : m.Pooled) (sized : d.Sized) : Sized
      (if m.full then d.pushRecv m now else {d with self := {d.self with msgRecv := some m}}) := by
  split
  next full =>
    refine ⟨⟨?_,sized.env.recv,sized.env.send,sized.env.deleted⟩,?_,sized.self.queued,
      sized.self.current⟩
    · intro x member
      rcases List.mem_append.mp member with old | new
      · exact sized.env.waiting x old
      · rw [List.mem_singleton.mp new]
        have whole := m.full_iff.mp full
        exact ⟨whole ▸ low,⟨(m.own d.self.id).ok,pooled.units⟩⟩
    · intro x impossible
      cases impossible
  next =>
    refine ⟨sized.env,?_,sized.self.queued,sized.self.current⟩
    intro x same
    cases same
    exact ⟨low,pooled⟩

theorem onRecvBody_sized {now : Nat} {c : Ctx} {data : Bytes} {o : (Ctx × Bytes) ⊕ Ctx}
    (sized : c.Sized) (ran : onRecvBody now (c,data) = some o) : (o.elim Prod.fst id).Sized := by
  unfold onRecvBody at ran
  simp only [Message.fillWhile_eq] at ran
  have headed : Sized {c with self := {c.self with
      msgHeader := (c.self.msgHeader.fill data).1}} := sized.of_same rfl rfl rfl
  split at ran
  next =>
    cases ran
    exact headed
  next =>
    split at ran
    next =>
      cases ran
      exact disconnect_sized headed
    next m d began =>
      obtain ⟨low,pooled,begun⟩ := beginRecv_sized headed began
      rw [← Message.fill_dataLen m (c.self.msgHeader.fill data).2] at low
      have last := endRecv_sized now low (Message.fill_pooled pooled _) begun
      cases ran
      split
      · exact last
      · exact last

theorem onRecv_sized {c c' : Ctx} {data : Bytes} {now : Nat} (sized : c.Sized)
    (ran : c.onRecv data now = some c') : c'.Sized :=
  onRecv_rule onRecvBody_sized sized ran

theorem update_sized {c c' : Ctx} {i : UpdateIn} (sized : c.Sized)
    (ran : c.update i = some c') : c'.Sized := by
  unfold update at ran
  split at ran
  next =>
    cases ran
    exact sized
  next =>
    simp only at ran
    split at ran
    next => cases ran
    next d received =>
      split at ran
      next => cases ran
      next e sent =>
        cases ran
        have taken_ : Sized {c with self := (c.self.takeEvents i.sockErr).2} := by
          unfold Session.takeEvents
          split
          · exact sized
          · exact sized.of_same rfl rfl rfl
        have got : d.Sized := by
          apply postRecv_rule onRecvBody_sized _ _ _ taken_ received
          · exact fun _ => disconnect_sized
          · exact fun _ before => before.of_same rfl rfl rfl
          · exact fun _ _ _ _ before => before.of_same rfl rfl rfl
        have held := Session.finish_held e.self (c.self.takeEvents i.sockErr).1 i.now i.again
        simp only [Session.held,Prod.mk.injEq] at held
        obtain ⟨_,recv,que,msg,_⟩ := held
        exact (postSend_sized got sent).of_same recv que msg

theorem destroy_sized {c : Ctx} (sized : c.Sized) : c.destroy.env.Sized := by
  have freed (env : Env) (m : Message) (before : env.Sized) (pooled : m.Pooled) :
      Env.Sized {env with sendQue := env.sendQue.freeMessage m} := by
    refine ⟨before.waiting,before.recv,?_,before.deleted⟩
    intro x member
    rcases List.mem_append.mp member with waits | free
    · exact before.send x (List.mem_append_left _ waits)
    · rcases List.mem_append.mp free with old | new
      · exact before.send x (List.mem_append_right _ old)
      · rw [List.mem_singleton.mp new]
        exact pooled
  have deleted (m : Message) (pooled : m.Pooled) :
      Env.Sized {c.env with deleted := c.env.deleted ++ [m]} := by
    refine ⟨sized.env.waiting,sized.env.recv,sized.env.send,?_⟩
    intro x member
    rcases List.mem_append.mp member with old | new
    · exact sized.env.deleted x old
    · rw [List.mem_singleton.mp new]
      exact pooled
  have begun := sized.self.begun
  have current := sized.self.current
  unfold destroy
  cases recv : c.self.msgRecv with
  | none =>
    cases send : c.self.msgSend with
    | none => exact sized.env
    | some m => exact freed _ m sized.env (current m send)
  | some m =>
    cases send : c.self.msgSend with
    | none => exact deleted m (begun m recv).2
    | some m' => exact freed _ m' (deleted m (begun m recv).2) (current m' send)

end Ctx

end Pworld.Net
