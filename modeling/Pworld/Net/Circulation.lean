import Pworld.Net.Intake
import Pworld.Net.Transmit
import Pworld.Support.Circulation
import Pworld.Support.Runs

/-! The messages of a process: they circulate between two pools, the waiting queue, the
sessions' slots and the hands of the frame loop, each side within itself. -/
namespace Pworld.Net

/-- `INSTANCE(MessageQueue)` and `INSTANCE_2(MessageQueue)`, by what they are for. -/
inductive Pool where
  | recv
  | send
  deriving DecidableEq,Repr

def placed (pool : Pool) (ms : List Message) : List (Pool × Nat) := ms.map fun m => (pool,m.addr)

theorem placed_append (pool : Pool) (ms ms' : List Message) :
    placed pool (ms ++ ms') = placed pool ms ++ placed pool ms' := List.map_append

theorem placed_cons (pool : Pool) (m : Message) (ms : List Message) :
    placed pool (m::ms) = placed pool [m] ++ placed pool ms := rfl

theorem placed_nil (pool : Pool) : placed pool [] = [] := rfl

theorem placed_one (pool : Pool) {m m' : Message} (same : m'.addr = m.addr) :
    placed pool [m'] = placed pool [m] := by
  simp only [placed,List.map_cons,same]

/-- Where the two queues hold a message. One that was deleted counts as held, so that it
is seen to be held nowhere else. -/
def Env.places (env : Env) : List (Pool × Nat) :=
  placed .recv (env.recvQue.waiting ++ env.recvQue.recycle ++ env.deleted) ++
    placed .send (env.sendQue.waiting ++ env.sendQue.recycle)

def Session.places (s : Session) : List (Pool × Nat) :=
  placed .recv s.msgRecv.toList ++ placed .send (s.queSend ++ s.msgSend.toList)

namespace Session

/-- Which messages a session holds depends on three of its fields. -/
theorem places_congr {s t : Session} (recv : t.msgRecv = s.msgRecv) (que : t.queSend = s.queSend)
    (msg : t.msgSend = s.msgSend) : t.places = s.places := by
  rw [places,places,recv,que,msg]

theorem finish_places (s : Session) (hang : Bool) (now again : Nat) :
    (s.finish hang now again).places = s.places := by
  have held := finish_held s hang now again
  simp only [Session.held,Prod.mk.injEq] at held
  obtain ⟨_,recv,que,msg,_⟩ := held
  exact places_congr recv que msg

end Session

namespace Ctx

def places (c : Ctx) : List (Pool × Nat) := c.env.places ++ c.self.places

def Keeps (c c' : Ctx) : Prop := Conserves c.env.next c'.env.next c.places c'.places

theorem Keeps.refl (c : Ctx) : Keeps c c := Conserves.refl _ _

theorem Keeps.trans {c d e : Ctx} (first : Keeps c d) (second : Keeps d e) : Keeps c e :=
  Conserves.trans first second

theorem Keeps.of_places {c c' : Ctx} (env : c'.env = c.env) (self : c'.self.places = c.self.places) :
    Keeps c c' := by
  rw [Keeps,places,places,env,self]
  exact Conserves.refl _ _

/-- The buffer applied for is the first of the pool, or a new one. -/
theorem applySend_keeps (c : Ctx) : Conserves c.env.next c.applySend.2.env.next c.places
    (placed .send [c.applySend.1] ++ c.applySend.2.places) := by
  unfold applySend MessageQueue.applyMessage
  cases pooled : c.env.sendQue.recycle with
  | nil => exact Conserves.of_new .send (.refl _)
  | cons m rest =>
    apply Conserves.of_count
    intro x
    simp only [places,Env.places,pooled,placed_append,placed_cons .send m rest,List.count_append]
    omega

theorem openBack_keeps (c : Ctx) : Keeps c c.openBack := by
  unfold openBack
  split
  next =>
    apply (applySend_keeps c).trans
    apply Conserves.of_count
    have same : placed .send [c.applySend.1.reset maxBufferSize (by decide)] =
        placed .send [c.applySend.1] := placed_one _ (Message.reset_addr _ _ _)
    intro x
    simp only [places,Session.places,placed_append,same,List.count_append]
    omega
  next => exact .refl c

theorem disconnect_keeps (c : Ctx) : Keeps c {c with self := c.self.Disconnect} := by
  unfold Session.Disconnect
  split
  next => exact .of_places rfl rfl
  next => exact .refl c

/-- Filling the last buffer of the queue leaves it where it is. -/
theorem sendBody_keeps {c : Ctx} {data : Bytes} {o : (Ctx × Bytes) ⊕ Ctx}
    (ran : _sendBody (c,data) = some o) : Keeps c (o.elim Prod.fst id) := by
  simp only [_sendBody] at ran
  split at ran
  next =>
    cases ran
    exact .refl c
  next =>
    split at ran
    next => cases ran
    next writer back =>
      cases ran
      apply (openBack_keeps c).trans
      have whole := List.dropLast_append_getLast? writer back
      have que : placed .send (c.openBack.self.queSend.dropLast ++ [(writer.fill data).1]) =
          placed .send c.openBack.self.queSend := by
        rw [placed_append,placed_one _ (Message.fill_addr writer data),← placed_append,whole]
      apply Keeps.of_places
      · rfl
      · simp only [Sum.elim_inl,Session.places,placed_append _ _ (Option.toList _),que]

theorem _send_keeps {c c' : Ctx} {data : Bytes} (ran : c._send data = some c') : Keeps c c' := by
  apply Loop.iterate_partial (fun s => Keeps c s.1) (fun d => Keeps c d) _ _ (.refl c) ran
  · intro s s' before again
    exact before.trans (sendBody_keeps again)
  · intro s d before left
    exact before.trans (sendBody_keeps left)

theorem send_keeps {c c' : Ctx} {data : Bytes} (ran : c.send data = some c') : Keeps c c' := by
  unfold send at ran
  split at ran
  next =>
    cases ran
    exact .refl c
  next =>
    split at ran
    next => cases ran
    next d first => exact (_send_keeps first).trans (_send_keeps ran)

theorem fetchSend_keeps (c : Ctx) : Keeps c c.fetchSend.2 := by
  unfold fetchSend
  split
  next => exact .refl c
  next empty =>
    split
    next => exact .refl c
    next m rest que =>
      split
      next => exact .of_places rfl (Session.places_congr rfl rfl empty.symm)
      next =>
        apply Conserves.of_count
        intro x
        simp only [places,Session.places,empty,que,Option.toList_none,Option.toList_some,
          List.append_nil,placed_append,placed_cons .send m rest,List.count_append]
        omega

theorem freeSend_keeps {c : Ctx} {m : Message} (current : c.self.msgSend = some m) :
    Keeps c (c.freeSend m) := by
  apply Conserves.of_count
  intro x
  simp only [places,Env.places,Session.places,freeSend,MessageQueue.freeMessage,current,
    Option.toList_none,Option.toList_some,List.append_nil,placed_append,List.count_append]
  omega

theorem sendRound_keeps {c : Ctx} {m : Message} {ret : SendRet} {o : Ctx ⊕ Ctx}
    (current : c.self.msgSend = some m) (stepped : c.sendRound m ret = some o) :
    Keeps c (o.elim id id) := by
  unfold sendRound at stepped
  have called (call : Call) : Keeps c {c with self := c.self.call call} := .of_places rfl rfl
  cases ret with
  | again =>
    cases stepped
    exact .of_places rfl rfl
  | intr =>
    cases stepped
    exact called _
  | err errno =>
    cases stepped
    exact .of_places rfl rfl
  | sent n =>
    simp only at stepped
    split_ifs at stepped
    · cases stepped
      exact (called _).trans (freeSend_keeps current)
    · cases stepped
      exact .of_places rfl rfl

theorem postSend_keeps {rets : List SendRet} {c c' : Ctx} (ran : c.postSend rets = some c') :
    Keeps c c' := by
  unfold postSend at ran
  split_ifs at ran with idle flush skip
  · cases ran
    exact .of_places rfl rfl
  · cases ran
    exact .refl c
  · cases ran
    exact .refl c
  · apply postSendLoop_rule (Keeps c) _ _ (.refl c) ran
    · intro d before
      exact before.trans (fetchSend_keeps d)
    · intro d m ret o _ before current stepped
      exact before.trans (sendRound_keeps current stepped)

/-- The packet to fill is the one begun, the first of the pool or a new one. -/
theorem beginRecv_keeps {c d : Ctx} {m : Message} (began : c.beginRecv = some (m,d)) :
    Conserves c.env.next d.env.next c.places (placed .recv [m] ++
      (d.env.places ++ placed .send (d.self.queSend ++ d.self.msgSend.toList))) := by
  unfold beginRecv at began
  split at began
  next m' stored =>
    cases began
    apply Conserves.of_count
    intro x
    simp only [places,Session.places,stored,Option.toList_some,List.count_append]
    omega
  next empty =>
    split at began
    next => cases began
    next =>
      cases began
      rw [placed_one _ (Message.reset_addr _ _ _)]
      unfold applyRecv MessageQueue.applyMessage
      split
      next =>
        apply Conserves.of_new .recv
        apply List.perm_iff_count.mpr
        intro x
        simp only [places,Session.places,Env.places,empty,Option.toList_none,List.count_append]
        simp only [placed,List.map_nil,List.map_cons,List.nil_append,List.count_cons,
          List.count_append,List.count_nil,Message.new,RawMessage.new]
        omega
      next m rest pooled =>
        apply Conserves.of_count
        intro x
        simp only [places,Session.places,Env.places,empty,pooled,Option.toList_none,placed_append,
          placed_cons .recv m rest,placed_nil,List.count_append,List.count_nil]
        omega

/-- A packet in hand is stored, or pushed when it is whole. -/
theorem endRecv_keeps {c d : Ctx} {m : Message} (now : Nat)
    (moves : Conserves c.env.next d.env.next c.places (placed .recv [m] ++
      (d.env.places ++ placed .send (d.self.queSend ++ d.self.msgSend.toList)))) :
    Keeps c (if m.full then d.pushRecv m now
      else {d with self := {d.self with msgRecv := some m}}) := by
  split
  next =>
    apply moves.trans
    apply Conserves.of_count
    have same : placed .recv [m.own d.self.id] = placed .recv [m] := rfl
    intro x
    simp only [places,Env.places,Session.places,pushRecv,MessageQueue.pushMessage,
      Session.resetHeader,Option.toList_none,placed_append,placed_nil,same,List.count_append,
      List.count_nil]
    omega
  next =>
    apply moves.trans
    apply Conserves.of_count
    intro x
    simp only [places,Env.places,Session.places,Option.toList_some,List.count_append]
    omega

theorem onRecvBody_keeps {now : Nat} {c : Ctx} {data : Bytes} {o : (Ctx × Bytes) ⊕ Ctx}
    (ran : onRecvBody now (c,data) = some o) : Keeps c (o.elim Prod.fst id) := by
  unfold onRecvBody at ran
  simp only [Message.fillWhile_eq] at ran
  split at ran
  next =>
    cases ran
    exact .of_places rfl rfl
  next =>
    split at ran
    next =>
      cases ran
      have headed : Keeps c {c with self := {c.self with
          msgHeader := (c.self.msgHeader.fill data).1}} :=
        .of_places rfl rfl
      exact headed.trans (disconnect_keeps _)
    next m d began =>
      have moves := beginRecv_keeps began
      rw [← placed_one _ (Message.fill_addr m _)] at moves
      have last := endRecv_keeps now moves
      cases ran
      split
      · exact last
      · exact last

theorem onRecv_keeps {c c' : Ctx} {data : Bytes} {now : Nat} (ran : c.onRecv data now = some c') :
    Keeps c c' :=
  onRecv_rule (fun before again => before.trans (onRecvBody_keeps again)) (.refl c) ran

theorem postRecv_keeps {rets : List RecvRet} {c c' : Ctx} (ran : c.postRecv rets = some c') :
    Keeps c c' := by
  apply postRecv_rule (P := Keeps c) _ _ _ _ (.refl c) ran
  · intro _ d _ _ before again
    exact before.trans (onRecvBody_keeps again)
  · intro d before
    exact before.trans (disconnect_keeps d)
  · intro d before
    exact before.trans (.of_places rfl rfl)
  · intro d _ _ _ before
    exact before.trans (.of_places rfl rfl)

theorem update_keeps {c c' : Ctx} {i : UpdateIn} (ran : c.update i = some c') : Keeps c c' := by
  unfold update at ran
  split at ran
  next =>
    cases ran
    exact .refl c
  next =>
    simp only at ran
    split at ran
    next => cases ran
    next d received =>
      split at ran
      next => cases ran
      next e sent =>
        cases ran
        have taken : Keeps c {c with self := (c.self.takeEvents i.sockErr).2} := by
          unfold Session.takeEvents
          split
          next => exact .refl c
          next => exact .of_places rfl rfl
        have finished := Session.finish_places e.self (c.self.takeEvents i.sockErr).1 i.now i.again
        have done := (taken.trans (postRecv_keeps received)).trans (postSend_keeps sent)
        exact done.trans (.of_places rfl finished)

/-- The packet begun is deleted and the buffer being sent goes back to the pool; those
still queued are left over. -/
theorem destroy_perm (c : Ctx) :
    (c.destroy.env.places ++ placed .send c.self.queSend).Perm c.places := by
  apply List.perm_iff_count.mpr
  intro x
  unfold destroy
  cases recv : c.self.msgRecv with
  | none =>
    cases send : c.self.msgSend with
    | none =>
      simp only [places,Env.places,Session.places,recv,send,Option.toList_none,List.append_nil,
        placed_append,placed_nil,List.count_append,List.count_nil]
      omega
    | some m =>
      simp only [places,Env.places,Session.places,recv,send,Option.toList_none,Option.toList_some,
        MessageQueue.freeMessage,placed_append,placed_nil,List.count_append,List.count_nil]
      omega
  | some m =>
    cases send : c.self.msgSend with
    | none =>
      simp only [places,Env.places,Session.places,recv,send,Option.toList_none,Option.toList_some,
        List.append_nil,placed_append,List.count_append]
      omega
    | some m' =>
      simp only [places,Env.places,Session.places,recv,send,Option.toList_some,
        MessageQueue.freeMessage,placed_append,List.count_append]
      omega

end Ctx

end Pworld.Net
