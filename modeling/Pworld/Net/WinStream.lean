import Pworld.Net.Proactor
import Pworld.Net.Intake

/-! The two byte streams of the Windows session. What `Send` has accepted goes to the kernel in
order, and what the kernel has stored goes through the port and the decoder in order, however the
threads take turns. -/
namespace Pworld.Net

open Framing

theorem Session.written_calls {s t : Session} (cs : List Call) (trace : t.trace = s.trace ++ cs) :
    t.written = s.written ++ (cs.map Call.accepted).flatten := by
  rw [Session.written,trace,List.map_append,List.flatten_append]
  rfl

namespace Proactor

/-- What was accepted is written or queued, but for the message that a failing `WSASend` took
with it. -/
def Outflow (s : Proactor) : Prop :=
  ∃ lost, s.self.written ++ lost ++ s.self.queued = Link.encode s.accepted ∧
    (s.self.status = .running → lost = [])

structure Inflow (s : Proactor) : Prop where
  type : s.win._io_recv.io._type = .recv
  arrived : s.arrived = s.taken ++ s.win._io_recv.undelivered
  left : s.deleted = false → s.self.Left (parse wire s.taken).2
  pushed : s.pushed = (parse wire s.taken).1

section
variable {s s' : Proactor}

theorem Outflow.same (out : s.Outflow) (written : s'.self.written = s.self.written)
    (queued : s'.self.queued = s.self.queued) (accepted : s'.accepted = s.accepted)
    (running : s'.self.status = .running → s.self.status = .running) : s'.Outflow := by
  obtain ⟨lost,whole,kept⟩ := out
  refine ⟨lost,?_,fun runs => kept (running runs)⟩
  rw [written,queued,accepted]
  exact whole

/-- Calls other than `WSASend` come after those made so far. -/
theorem Outflow.aside (out : s.Outflow) (aside : Session.Aside s.self s'.self)
    (accepted : s'.accepted = s.accepted)
    (running : s'.self.status = .running → s.self.status = .running) : s'.Outflow := by
  refine out.same aside.written ?_ accepted running
  have sender := aside.sender
  simp only [Session.sender,Prod.mk.injEq] at sender
  rw [Session.queued,sender.1,Session.queued]

/-- The front message is taken off the queue, and it is written or lost. -/
theorem Outflow.takes {m : Message} {rest : List Message} (out : s.Outflow) (cs : List Call)
    (lost : Bytes) (running : s.self.status = .running) (front : s.self.queSend = m::rest)
    (trace : s'.self.trace = s.self.trace ++ cs) (que : s'.self.queSend = rest)
    (accepted : s'.accepted = s.accepted)
    (bytes : (cs.map Call.accepted).flatten ++ lost = m.bytes)
    (kept : s'.self.status = .running → lost = []) : s'.Outflow := by
  obtain ⟨before,whole,none_⟩ := out
  cases none_ running
  refine ⟨lost,?_,kept⟩
  have queued : s.self.queued = m.bytes ++ s'.self.queued := by
    rw [Session.queued,Session.queued,front,que]
    rfl
  rw [accepted,← whole,Session.written_calls cs trace,queued,← bytes,List.append_nil]
  simp only [List.append_assoc]

theorem Inflow.same (inflow : s.Inflow) (io : s'.win._io_recv = s.win._io_recv)
    (arrived : s'.arrived = s.arrived) (taken : s'.taken = s.taken) (pushed : s'.pushed = s.pushed)
    (header : s'.self.msgHeader = s.self.msgHeader)
    (recv : s'.self.msgRecv = s.self.msgRecv)
    (disconnect : s.self.disconnect = true → s'.self.disconnect = true)
    (deleted : s'.deleted = s.deleted) : s'.Inflow := by
  refine ⟨by rw [io,inflow.type],by rw [io,arrived,taken,inflow.arrived],?_,
    by rw [pushed,taken,inflow.pushed]⟩
  rw [deleted,taken]
  exact fun live => (inflow.left live).keep header recv disconnect

/-- `_dispose_recv` has taken what was there and not more. -/
theorem Inflow.takes {w : Win} (inflow : s.Inflow) (type : w._io_recv.io._type = .recv)
    (undelivered : s.win._io_recv.undelivered = s.win.reads ++ w._io_recv.undelivered)
    (left : w.self.Left (parse wire (s.taken ++ s.win.reads)).2) {ms : List Message}
    (waiting : w.ctx.env.recvQue.waiting = s.win.ctx.env.recvQue.waiting ++ ms)
    (bytes : ms.map Message.bytes = (absorb wire (parse wire s.taken).2 s.win.reads).1) :
    ({s with
      win := w
      phase := .send
      taken := s.taken ++ s.win.reads
      pushed := s.pushed ++ (w.ctx.env.recvQue.waiting.drop
        s.win.ctx.env.recvQue.waiting.length).map Message.bytes} : Proactor).Inflow where
  type := type
  arrived := by rw [inflow.arrived,undelivered,List.append_assoc]
  left := fun _ => left
  pushed := by rw [waiting,List.drop_left,bytes,inflow.pushed,parse_append]

end

end Proactor

end Pworld.Net
