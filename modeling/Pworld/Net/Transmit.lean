import Pworld.Net.Session
import Mathlib.Data.List.Basic

/-! The send path as one conserved stream: what `::send` has accepted, followed by
what is still queued, only changes when `_send` appends to it. How the bytes are
cut into messages, and how far the current one is written, does not show. -/
namespace Pworld.Net

def Call.accepted : Call → Bytes
  | .send offered (.sent n) => offered.take n
  | _ => []

namespace Session

/-- All bytes the kernel has taken from this session. -/
def written (s : Session) : Bytes := (s.trace.map Call.accepted).flatten

def queued (s : Session) : Bytes := (s.queSend.map Message.bytes).flatten

/-- The bytes not handed over yet: the rest of the current message and the queue. -/
def outgoing (s : Session) : Bytes :=
  (s.msgSend.map fun m => m.bytes.drop s.sendLen).getD [] ++ s.queued

end Session

namespace Ctx

theorem openBack_spec (c : Ctx) : ∃ front writer,
    c.openBack.self = {c.self with queSend := front ++ [writer]} ∧
    writer.currLen < writer.dataLen ∧
    ((front ++ [writer]).map Message.bytes).flatten = c.self.queued ∧
    c.openBack.env.recvQue = c.env.recvQue := by
  unfold openBack
  split
  next needed =>
    refine ⟨c.self.queSend,c.applySend.1.reset maxBufferSize (by decide),rfl,?_,?_,rfl⟩
    · rw [Message.reset_currLen,Message.reset_dataLen]
      decide
    · simp [Session.queued]
  next open_ =>
    cases back : c.self.queSend.getLast? with
    | none => simp [back] at open_
    | some writer =>
      have room : writer.full = false := by simpa [back] using open_
      have split : c.self.queSend.dropLast ++ [writer] = c.self.queSend :=
        List.dropLast_append_getLast? writer back
      refine ⟨c.self.queSend.dropLast,writer,by rw [split],?_,by rw [split]; rfl,rfl⟩
      have pos := writer.ok.pos
      have : writer.currLen ≠ writer.dataLen := fun same => by
        simp [writer.full_iff.mpr same] at room
      omega

theorem sendBody_round (c : Ctx) {data : Bytes} (input : data ≠ []) :
    ∃ c' rest, _sendBody (c,data) = some (.inl (c',rest)) ∧ rest.length < data.length ∧
      c'.self = {c.self with queSend := c'.self.queSend} ∧
      c'.self.queued ++ rest = c.self.queued ++ data ∧
      c'.env.recvQue = c.env.recvQue := by
  obtain ⟨front,writer,opened,room,queued,recvQue⟩ := openBack_spec c
  have nonempty : data.isEmpty = false := by simpa using input
  have que : c.openBack.self.queSend = front ++ [writer] := by rw [opened]
  have length : 0 < data.length := List.length_pos_iff.mpr input
  refine ⟨{c.openBack with self := {c.openBack.self with
    queSend := front ++ [(writer.fill data).1]}},(writer.fill data).2,?_,?_,?_,?_,recvQue⟩
  · simp only [_sendBody,nonempty,que,List.getLast?_append,List.getLast?_singleton,Option.or,
      List.dropLast_concat,Bool.false_eq_true,if_false]
  · rw [Message.fill_rest,List.length_drop]
    omega
  · simp only [opened]
  · rw [← queued]
    simp only [Session.queued,List.map_append,List.map_cons,List.map_nil,List.flatten_append,
      List.flatten_cons,List.flatten_nil,List.append_nil,Message.fill_bytes,Message.fill_rest,
      List.append_assoc,List.take_append_drop]

theorem _send_spec (c : Ctx) (data : Bytes) :
    ∃ c', c._send data = some c' ∧ c'.self = {c.self with queSend := c'.self.queSend} ∧
      c'.self.queued = c.self.queued ++ data ∧ c'.env.recvQue = c.env.recvQue := by
  let Inv (s : Ctx × Bytes) : Prop :=
    s.1.self = {c.self with queSend := s.1.self.queSend} ∧
      s.1.self.queued ++ s.2 = c.self.queued ++ data ∧ s.1.env.recvQue = c.env.recvQue
  let Post (c' : Ctx) : Prop := c'.self = {c.self with queSend := c'.self.queSend} ∧
    c'.self.queued = c.self.queued ++ data ∧ c'.env.recvQue = c.env.recvQue
  refine Loop.iterate_total Inv Post (fun s => s.2.length) ?_
    (show Inv (c,data) from ⟨rfl,rfl,rfl⟩) (Nat.lt_succ_self _)
  rintro ⟨c₁,d₁⟩ ⟨self₁,queued₁,recvQue₁⟩
  simp only at self₁ queued₁ recvQue₁
  by_cases done : d₁ = []
  · subst done
    refine .inr ⟨c₁,by simp [_sendBody],self₁,?_,recvQue₁⟩
    rwa [List.append_nil] at queued₁
  · obtain ⟨c₂,rest,ran,fewer,self₂,queued₂,recvQue₂⟩ := sendBody_round c₁ done
    refine .inl ⟨(c₂,rest),ran,⟨?_,queued₂.trans queued₁,recvQue₂.trans recvQue₁⟩,fewer⟩
    simp only
    rw [self₂,self₁]

theorem send_spec (c : Ctx) (active : c.self.status = .running) (data : Bytes) :
    ∃ c', c.send data = some c' ∧ c'.self = {c.self with queSend := c'.self.queSend} ∧
      c'.self.outgoing = c.self.outgoing ++ (Bytes.le 4 data.length ++ data) ∧
      c'.env.recvQue = c.env.recvQue := by
  obtain ⟨c₁,ran₁,self₁,queued₁,recvQue₁⟩ := _send_spec c (Bytes.le 4 data.length)
  obtain ⟨c₂,ran₂,self₂,queued₂,recvQue₂⟩ := _send_spec c₁ data
  have same : c₂.self = {c.self with queSend := c₂.self.queSend} := by rw [self₂,self₁]
  refine ⟨c₂,?_,same,?_,recvQue₂.trans recvQue₁⟩
  · simp [send,Session.Active,active,ran₁,ran₂]
  · have msgSend : c₂.self.msgSend = c.self.msgSend := by rw [same]
    have sendLen : c₂.self.sendLen = c.self.sendLen := by rw [same]
    simp only [Session.outgoing,msgSend,sendLen,queued₂,queued₁,List.append_assoc]

theorem send_inactive (c : Ctx) (inactive : c.self.status ≠ .running) (data : Bytes) :
    c.send data = some c := by
  simp [send,Session.Active,inactive]

/-- All that `Send` does to the session, active or not. -/
theorem send_self {c c' : Ctx} {data : Bytes} (ran : c.send data = some c') :
    c'.self = {c.self with queSend := c'.self.queSend} ∧ c'.env.recvQue = c.env.recvQue := by
  by_cases active : c.self.status = .running
  · obtain ⟨d,sent,self,_,recvQue⟩ := send_spec c active data
    cases Option.some.inj (ran.symm.trans sent)
    exact ⟨self,recvQue⟩
  · rw [send_inactive c active] at ran
    cases Option.some.inj ran
    exact ⟨rfl,rfl⟩

theorem written_eq {s t : Session} (same : s.trace = t.trace) : s.written = t.written := by
  rw [Session.written,same,Session.written]

theorem fetchSend_spec (c : Ctx) :
    c.fetchSend.2.self.outgoing = c.self.outgoing ∧
    c.fetchSend.2.self.trace = c.self.trace ∧
    c.fetchSend.2.env = c.env ∧
    ∀ m, c.fetchSend.1 = some m → c.fetchSend.2.self.msgSend = some m := by
  unfold fetchSend
  cases current : c.self.msgSend with
  | some m => exact ⟨rfl,rfl,rfl,fun n same => by rwa [← same]⟩
  | none =>
    cases que : c.self.queSend with
    | nil => exact ⟨rfl,rfl,rfl,fun m same => by cases same⟩
    | cons m rest =>
      simp only
      split
      · exact ⟨by simp [Session.outgoing,current,Session.queued],rfl,rfl,
          fun n same => by cases same⟩
      · exact ⟨by simp [Session.outgoing,current,Session.queued,que],rfl,rfl,
          fun n same => by simpa using same⟩

/-- What fetching and every outcome in `rets` preserve, the loop preserves. -/
theorem postSendLoop_rule (P : Ctx → Prop) {rets : List SendRet}
    (fetch : ∀ c, P c → P c.fetchSend.2)
    (round : ∀ c m ret o, ret ∈ rets → P c → c.self.msgSend = some m →
      c.sendRound m ret = some o → P (o.elim id id))
    {c c' : Ctx} (inv : P c) (ran : postSendLoop rets c = some c') : P c' := by
  induction rets generalizing c with
  | nil =>
    have inv₁ := fetch c inv
    unfold postSendLoop at ran
    split at ran
    next c₁ fetched =>
      cases Option.some.inj ran
      rwa [fetched] at inv₁
    next => cases ran
  | cons ret rets ih =>
    have inv₁ := fetch c inv
    have current := (fetchSend_spec c).2.2.2
    unfold postSendLoop at ran
    split at ran
    next c₁ fetched =>
      cases Option.some.inj ran
      rwa [fetched] at inv₁
    next m c₁ fetched =>
      rw [fetched] at inv₁ current
      have one := round c₁ m ret
      split at ran
      next => cases ran
      next c₂ stepped =>
        exact ih (fun c m ret o member => round c m ret o (List.mem_cons_of_mem _ member))
          (one _ List.mem_cons_self inv₁ (current m rfl) stepped) ran
      next c₂ stepped =>
        cases Option.some.inj ran
        exact one _ List.mem_cons_self inv₁ (current m rfl) stepped

/-- One outcome moves the bytes it accepts from the one side to the other. -/
theorem sendRound_conserves {c : Ctx} {m : Message} {ret : SendRet} {o : Ctx ⊕ Ctx}
    (current : c.self.msgSend = some m) (stepped : c.sendRound m ret = some o) :
    (o.elim id id).self.written ++ (o.elim id id).self.outgoing =
        c.self.written ++ c.self.outgoing ∧
      (o.elim id id).env.recvQue = c.env.recvQue := by
  have before : c.self.outgoing = m.bytes.drop c.self.sendLen ++ c.self.queued := by
    simp [Session.outgoing,current]
  unfold sendRound at stepped
  rw [before]
  cases ret with
  | again =>
    cases Option.some.inj stepped
    refine ⟨?_,rfl⟩
    simp [Session.written,Session.call,Call.accepted,Session.outgoing,current,Session.queued]
  | intr =>
    cases Option.some.inj stepped
    refine ⟨?_,rfl⟩
    simp [Session.written,Session.call,Call.accepted,Session.outgoing,current,Session.queued]
  | err errno =>
    cases Option.some.inj stepped
    refine ⟨?_,rfl⟩
    simp [Session.written,Session.call,Session.setSocketStatus,Call.accepted,Session.outgoing,
      current,Session.queued]
  | sent n =>
    simp only at stepped
    split at stepped
    next whole =>
      cases Option.some.inj stepped
      have all : (m.bytes.drop c.self.sendLen).take n = m.bytes.drop c.self.sendLen := by
        rw [whole,List.take_length]
      refine ⟨?_,rfl⟩
      simp [freeSend,Session.written,Session.call,Call.accepted,Session.outgoing,
        Session.queued,all]
    next partly =>
      split at stepped
      next short =>
        cases Option.some.inj stepped
        have split : (m.bytes.drop c.self.sendLen).take n ++
            m.bytes.drop (c.self.sendLen + n) = m.bytes.drop c.self.sendLen := by
          rw [← List.drop_drop,List.take_append_drop]
        refine ⟨?_,rfl⟩
        simp only [Sum.elim_inr,id,Session.written,Session.call,Call.accepted,Session.outgoing,
          current,Option.map_some,Option.getD_some,List.map_append,List.flatten_append,
          List.map_cons,List.map_nil,List.flatten_cons,List.flatten_nil,List.append_nil,
          List.append_assoc,Session.queued]
        rw [← List.append_assoc (List.take n _),split]
      next => cases stepped

/-- `_post_send` hands bytes to the kernel in order and loses none. -/
theorem postSend_conserves {rets : List SendRet} {c c' : Ctx} (ran : c.postSend rets = some c') :
    c'.self.written ++ c'.self.outgoing = c.self.written ++ c.self.outgoing ∧
      c'.env.recvQue = c.env.recvQue := by
  unfold postSend at ran
  split_ifs at ran with idle flush skip
  · cases Option.some.inj ran
    refine ⟨?_,rfl⟩
    simp [Session.written,Session.call,Call.accepted,Session.outgoing,Session.queued]
  · cases Option.some.inj ran
    exact ⟨rfl,rfl⟩
  · cases Option.some.inj ran
    exact ⟨rfl,rfl⟩
  · refine postSendLoop_rule
      (fun d => d.self.written ++ d.self.outgoing = c.self.written ++ c.self.outgoing ∧
        d.env.recvQue = c.env.recvQue) ?_ ?_ ⟨rfl,rfl⟩ ran
    · rintro d ⟨conserved,recvQue⟩
      obtain ⟨outgoing,trace,env,_⟩ := fetchSend_spec d
      rw [outgoing,written_eq trace,env]
      exact ⟨conserved,recvQue⟩
    · rintro d m ret o - ⟨conserved,recvQue⟩ current stepped
      obtain ⟨conserved',recvQue'⟩ := sendRound_conserves current stepped
      exact ⟨conserved'.trans conserved,recvQue'.trans recvQue⟩

theorem sendRound_trace {c : Ctx} {m : Message} {ret : SendRet} {o : Ctx ⊕ Ctx}
    (stepped : c.sendRound m ret = some o) : c.self.trace <+: (o.elim id id).self.trace := by
  unfold sendRound at stepped
  cases ret with
  | again => cases Option.some.inj stepped; exact List.prefix_append _ _
  | intr => cases Option.some.inj stepped; exact List.prefix_append _ _
  | err errno =>
    cases Option.some.inj stepped
    simp only [Sum.elim_inr,id,Session.setSocketStatus,Session.call,List.append_assoc]
    exact List.prefix_append _ _
  | sent n =>
    simp only at stepped
    split_ifs at stepped
    · cases Option.some.inj stepped; exact List.prefix_append _ _
    · cases Option.some.inj stepped; exact List.prefix_append _ _

theorem postSend_trace {rets : List SendRet} {c c' : Ctx} (ran : c.postSend rets = some c') :
    c.self.trace <+: c'.self.trace := by
  unfold postSend at ran
  split_ifs at ran with idle flush skip
  · cases Option.some.inj ran; exact List.prefix_append _ _
  · cases Option.some.inj ran; exact List.prefix_rfl
  · cases Option.some.inj ran; exact List.prefix_rfl
  · refine postSendLoop_rule (fun d => c.self.trace <+: d.self.trace) ?_ ?_ List.prefix_rfl ran
    · intro d before
      rw [(fetchSend_spec d).2.1]
      exact before
    · intro d m ret o _ before _ stepped
      exact before.trans (sendRound_trace stepped)

theorem written_prefix {s t : Session} (traces : s.trace <+: t.trace) :
    s.written <+: t.written := by
  obtain ⟨calls,same⟩ := traces
  rw [Session.written,Session.written,← same,List.map_append,List.flatten_append]
  exact List.prefix_append _ _

theorem fetchSend_status (c : Ctx) : c.fetchSend.2.self.status = c.self.status := by
  unfold fetchSend
  split
  · rfl
  · split
    · rfl
    · split <;> rfl

/-- Only a hard error takes the session out of its status. -/
theorem sendRound_status {c : Ctx} {m : Message} {ret : SendRet} {o : Ctx ⊕ Ctx}
    (mild : ∀ errno, ret ≠ .err errno) (stepped : c.sendRound m ret = some o) :
    (o.elim id id).self.status = c.self.status := by
  unfold sendRound at stepped
  cases ret with
  | again => cases Option.some.inj stepped; rfl
  | intr => cases Option.some.inj stepped; rfl
  | err errno => exact absurd rfl (mild errno)
  | sent n =>
    simp only at stepped
    split_ifs at stepped
    · cases Option.some.inj stepped; rfl
    · cases Option.some.inj stepped; rfl

theorem postSend_status {rets : List SendRet} (mild : ∀ errno, SendRet.err errno ∉ rets)
    {c c' : Ctx} (ran : c.postSend rets = some c') : c'.self.status = c.self.status := by
  unfold postSend at ran
  split_ifs at ran with idle flush skip
  · cases Option.some.inj ran; rfl
  · cases Option.some.inj ran; rfl
  · cases Option.some.inj ran; rfl
  · refine postSendLoop_rule (fun d => d.self.status = c.self.status) ?_ ?_ rfl ran
    · intro d same
      rw [fetchSend_status,same]
    · intro d m ret o member same _ stepped
      have soft : ∀ errno, ret ≠ .err errno := fun errno eq => mild errno (eq ▸ member)
      rw [sendRound_status soft stepped,same]

end Ctx

end Pworld.Net
