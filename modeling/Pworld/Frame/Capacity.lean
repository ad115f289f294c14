import Pworld.Frame.Custody
import Pworld.Net.Capacity

/-! The messages of any process: how large they become, and that what the frame loop hands to
`on_msg` is long enough to be read. -/
namespace Pworld.Frame

open Net

namespace Custody

/-- All messages there are, but for the headers. -/
def messages (w : Custody) : List Message :=
  w.env.recvQue.waiting ++ w.env.recvQue.recycle ++ w.env.sendQue.waiting ++
    w.env.sendQue.recycle ++ w.env.deleted ++ w.msg.toList ++
    w.sessions.flatMap fun s => s.msgRecv.toList ++ s.queSend ++ s.msgSend.toList

/-- What `on_msg` gets has an opcode among its bytes, and `PacketLength` of it does not wrap. -/
def Legible (w : Custody) : Prop :=
  ∀ m, w.msg = some m → 2 ≤ m.currLen ∧ m.opcode = Bytes.ofLe (m.bytes.take 2) ∧
    m.packetLength = m.currLen - 2

/-- Every message is safe, and has at most eight units if it is none of the headers. -/
structure Roomy (w : Custody) : Prop where
  headers : ∀ s ∈ w.sessions, s.msgHeader.Safe
  messages : ∀ m ∈ w.messages, m.Safe ∧ m.size ≤ 8 * maxBufferSize

structure Sized (w : Custody) : Prop where
  env : w.env.Sized
  sessions : ∀ s ∈ w.sessions, s.Sized
  popped : ∀ m, w.msg = some m → 2 ≤ m.currLen ∧ m.Pooled

theorem Sized.legible {w : Custody} (sized : w.Sized) : w.Legible := by
  intro m popped
  have long := (sized.popped m popped).1
  have small := m.ok.small
  have cap := m.ok.cap
  have pos := m.ok.pos
  refine ⟨long,?_,?_⟩
  · rw [Message.opcode,Message.bytes,List.take_take,Nat.min_eq_left long]
  · simp only [Message.packetLength,u32Sub,u32]
    omega

theorem Sized.pooled {w : Custody} (sized : w.Sized) : ∀ m ∈ w.messages, m.Pooled := by
  intro m member
  simp only [messages,List.mem_append,List.mem_flatMap,Option.mem_toList,or_assoc] at member
  rcases member with waits | free | out | out | gone | popped | ⟨s,here,begun | queued | current⟩
  · exact (sized.env.waiting m waits).2
  · exact sized.env.recv m free
  · exact sized.env.send m (List.mem_append_left _ out)
  · exact sized.env.send m (List.mem_append_right _ out)
  · exact sized.env.deleted m gone
  · exact (sized.popped m popped).2
  · exact ((sized.sessions s here).begun m begun).2
  · exact (sized.sessions s here).queued m queued
  · exact (sized.sessions s here).current m current

theorem Sized.roomy {w : Custody} (sized : w.Sized) : w.Roomy where
  headers := fun s _ => s.msgHeader.ok.safe
  messages := fun m member =>
    ⟨(sized.pooled m member).ok.safe,(sized.pooled m member).size_le⟩

theorem Sized.onSession {w w' : Custody} {n : Nat} {f : Ctx → Option Ctx} (sized : w.Sized)
    (keeps : ∀ c c', c.Sized → f c = some c' → c'.Sized) (ran : w.onSession n f = some w') :
    w'.Sized := by
  obtain ⟨s,at_,ran⟩ := Option.bind_eq_some_iff.mp ran
  obtain ⟨c,done,rfl⟩ := Option.map_eq_some_iff.mp ran
  have here := sized.sessions s (List.mem_of_getElem? at_)
  obtain ⟨env,self⟩ := keeps _ c ⟨sized.env,here⟩ done
  refine ⟨env,?_,sized.popped⟩
  intro x member
  rcases List.mem_or_eq_of_mem_set member with old | rfl
  · exact sized.sessions x old
  · exact self

theorem sized_step {w w' : Custody} {o : CustodyOp} (sized : w.Sized)
    (stepped : w.step o = some w') : w'.Sized := by
  cases o with
  | create id header now =>
    cases stepped
    refine ⟨sized.env,?_,sized.popped⟩
    intro s member
    rcases List.mem_append.mp member with old | new
    · exact sized.sessions s old
    · rw [List.mem_singleton.mp new]
      refine ⟨?_,?_,?_⟩
      · intro m impossible
        cases impossible
      · intro m impossible
        cases impossible
      · intro m impossible
        cases impossible
  | attach n socket key fresh =>
    apply sized.onSession (f := fun c =>
      some {c with self := c.self.attach socket key fresh}) _ stepped
    intro c c' before ran
    cases ran
    exact before.of_same rfl rfl rfl
  | callback n events =>
    apply sized.onSession (f := fun c => some {c with self := c.self.sessionCb events}) _ stepped
    intro c c' before ran
    cases ran
    exact before.of_same rfl rfl rfl
  | disconnect n =>
    apply sized.onSession (f := fun c => some {c with self := c.self.Disconnect}) _ stepped
    intro c c' before ran
    cases ran
    exact Ctx.disconnect_sized before
  | send n data =>
    exact sized.onSession (f := fun c => c.send data) (fun _ _ => Ctx.send_sized) stepped
  | postSend n rets =>
    exact sized.onSession (f := fun c => c.postSend rets) (fun _ _ => Ctx.postSend_sized) stepped
  | onRecv n data now =>
    exact sized.onSession (f := fun c => c.onRecv data now) (fun _ _ => Ctx.onRecv_sized) stepped
  | update n i =>
    exact sized.onSession (f := fun c => c.update i) (fun _ _ => Ctx.update_sized) stepped
  | pop =>
    simp only [step] at stepped
    split at stepped
    next =>
      cases stepped
      have waits := sized.env.waiting
      unfold MessageQueue.popMessage
      cases waiting : w.env.recvQue.waiting with
      | nil =>
        refine ⟨sized.env,sized.sessions,?_⟩
        intro m impossible
        cases impossible
      | cons m rest =>
        rw [waiting] at waits
        refine ⟨⟨?_,sized.env.recv,sized.env.send,sized.env.deleted⟩,sized.sessions,?_⟩
        · exact fun x member => waits x (List.mem_cons_of_mem m member)
        · intro x same
          cases same
          exact waits m List.mem_cons_self
    next => cases stepped
  | free =>
    obtain ⟨m,popped,rfl⟩ := Option.map_eq_some_iff.mp stepped
    refine ⟨⟨sized.env.waiting,?_,sized.env.send,sized.env.deleted⟩,sized.sessions,?_⟩
    · intro x member
      rcases List.mem_append.mp member with old | new
      · exact sized.env.recv x old
      · rw [List.mem_singleton.mp new]
        exact (sized.popped m popped).2
    · intro x impossible
      cases impossible
  | delete n =>
    obtain ⟨s,at_,rfl⟩ := Option.map_eq_some_iff.mp stepped
    have here := sized.sessions s (List.mem_of_getElem? at_)
    refine ⟨Ctx.destroy_sized ⟨sized.env,here⟩,?_,sized.popped⟩
    exact fun x member => sized.sessions x (List.mem_of_mem_eraseIdx member)

theorem sized_start : start.Sized := by
  have empty {p : Message → Prop} (m : Message) (member : m ∈ ([] : List Message)) : p m := by
    cases member
  refine ⟨⟨empty,empty,empty,empty⟩,?_,?_⟩
  · intro s member
    cases member
  · intro m impossible
    cases impossible

/-- However buffers are reused, their lengths stay in range and `Fill` makes headway; so it is
with the messages of any process, and what reaches `on_msg` is legible. -/
theorem message_capacity (uses : List BufferPoolOp) (os : List CustodyOp) :
    Runs.Always BufferPool.step BufferPool.Sound BufferPool.start uses ∧
      Runs.Always step (fun w => w.Roomy ∧ w.Legible) start os := by
  constructor
  · exact Runs.always_of_pres BufferPool.Inv (fun _ => BufferPool.Inv.sound)
      (fun _ _ _ => BufferPool.inv_step) BufferPool.inv_start
  · exact Runs.always_of_pres Sized (fun _ sized => ⟨sized.roomy,sized.legible⟩)
      (fun _ _ _ => sized_step) sized_start

end Custody

end Pworld.Frame
