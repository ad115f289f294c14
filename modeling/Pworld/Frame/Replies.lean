import Pworld.Frame.Dispatch
import Pworld.Net.Flush

/-! The server as its peers see it. What a running client is sent, however the kernel takes it in
pieces, is the packets of its own stream that ask for an answer, in their order. -/
namespace Pworld.Frame

open Net Framing

theorem update_conserves {c c' : Ctx} {i : UpdateIn} (ran : c.update i = some c') :
    c'.self.written ++ c'.self.outgoing = c.self.written ++ c.self.outgoing := by
  rcases Ctx.update_flow ran with rfl | ⟨d,e,_,sent,before,after⟩
  · rfl
  · rw [after.written,after.outgoing,(Ctx.postSend_conserves sent).1,before.written,
      before.outgoing]

/-- A session's key and status, and what has been or will be handed to the kernel. -/
def line (c : Session) : Option Nat × SockStatus × Bytes := (c.key,c.status,c.written ++ c.outgoing)

namespace Traffic

/-- What a running client was given to `Send` is what is on its line. -/
def Wired (s : Traffic) : Prop :=
  ∀ l ∈ s.server.clients.map line, l.2.1 = .running → l.2.2 = Link.encode (ofClient s.sent l.1)

section
variable {s s' : Traffic}

theorem Wired.lines (wired : s.Wired) {t : Server}
    (lines : t.clients.map line ⊆ s.server.clients.map line) : Wired {s with server := t} :=
  fun l member running => wired l (lines member) running

theorem aside_lines {s t : Server} {o : ServerOp} (other : aside o = true)
    (stepped : s.step o = some t) : t.clients.map line = s.clients.map line := by
  cases o with
  | accept | visit | dispose | dispatch => cases other
  | collect ready =>
    simp only [Server.step] at stepped
    split_ifs at stepped
    cases stepped
    rfl
  | callback =>
    simp only [Server.step] at stepped
    split at stepped
    next key events rest _ _ =>
      cases stepped
      rw [List.map_map]
      apply List.map_congr_left
      intro c _
      simp only [Function.comp_apply]
      split
      · rfl
      · rfl
    next => cases stepped
  | complete =>
    simp only [Server.step] at stepped
    split at stepped
    · cases stepped
      rfl
    · cases stepped
  | frame t1 =>
    simp only [Server.step] at stepped
    split_ifs at stepped
    cases stepped
    rfl
  | leave =>
    simp only [Server.step] at stepped
    split at stepped
    next =>
      split_ifs at stepped
      cases stepped
      rfl
    next => cases stepped

theorem accept_wired (base : s.Base) (wired : s.Wired) (id : Nat) (socket : Int) (now : Nat) :
    Wired {s with server := s.server.acceptAt id socket now} := by
  intro l member running
  simp only [Server.acceptAt,List.map_append,List.map_cons,List.map_nil] at member
  rcases List.mem_append.mp member with old | new
  · exact wired l old running
  · rw [List.mem_singleton.mp new]
    have sent : ofClient s.sent (some s.server.next) = [] :=
      base.fresh fun t there => List.mem_append_right _ there
    show [] = Link.encode (ofClient s.sent (some s.server.next))
    rw [sent]
    rfl

theorem visit_wired (base : s.Base) (wired : s.Wired) {c : Session} {i : UpdateIn} {t : Server}
    (visited : s.server.visited = some c) (went : s.server.step (.visit i) = some t) :
    (s.received c i t).Wired := by
  obtain ⟨n,d,_,at_,ran,clients,_⟩ := visit_cases visited went
  obtain ⟨rest,perm,set,_,others⟩ := base.one at_
  intro l member running
  obtain ⟨e,there,rfl⟩ := List.mem_map.mp member
  have there : e ∈ t.clients := there
  rw [clients] at there
  rcases List.mem_cons.mp ((set d.self).mem_iff.mp there) with rfl | there
  · have whole := wired (line c) (List.mem_map_of_mem (List.mem_of_getElem? at_))
      (update_running ran running)
    show d.self.written ++ d.self.outgoing = Link.encode (ofClient s.sent d.self.key)
    rw [update_conserves ran,(Ctx.update_owns ran).2.1]
    exact whole
  · exact wired _ (List.mem_map_of_mem (others e there).1) running

end

section Dispatch

variable {s : Traffic} {t : Server} {m : Message} {rest : List Message} {tick : Nat}
  (base : s.Base) (waiting : s.server.env.recvQue.waiting = m::rest)
  (stepped : s.server.step (.dispatch tick) = some t)
include base waiting stepped

theorem dispatch_wired (wired : s.Wired) : Wired {s.handled m with server := t} := by
  simp only [Server.step,MessageQueue.popMessage,waiting] at stepped
  split at stepped
  next =>
    obtain ⟨u,ran,rfl⟩ := Option.map_eq_some_iff.mp stepped
    unfold Server.onMsg at ran
    unfold handled
    simp only at ran
    split at ran
    next answered =>
      cases ran
      rw [if_pos answered]
      exact wired
    next answered =>
      rw [if_neg answered]
      have found : ({s.server with env := {s.server.env with recvQue := {
          s.server.env.recvQue with waiting := rest}}} : Server).find m.ptr =
        s.server.find m.ptr := rfl
      rw [found] at ran
      cases hit : s.server.find m.ptr with
      | none =>
        simp only [hit] at ran
        cases ran
        exact wired
      | some pair =>
        obtain ⟨n,c⟩ := pair
        simp only [hit] at ran
        split at ran
        next => cases ran
        next d sends =>
          cases ran
          have at_ := (find_some hit).1
          obtain ⟨left,perm,set,_,others⟩ := base.one at_
          have keys : d.self.key = c.key := by rw [(Ctx.send_self sends).1]
          intro l member running
          obtain ⟨e,there,rfl⟩ := List.mem_map.mp member
          have there : e ∈ s.server.clients.set n d.self := there
          rcases List.mem_cons.mp ((set d.self).mem_iff.mp there) with rfl | there
          · have status : d.self.status = c.status := by rw [(Ctx.send_self sends).1]
            have active : c.status = .running := status.symm.trans running
            obtain ⟨f,ran',self,outgoing,_⟩ := Ctx.send_spec
              ⟨c,{s.server.env with recvQue := {s.server.env.recvQue with waiting := rest}}⟩
              active m.bytes
            cases sends.symm.trans ran'
            have whole := wired (line c) (List.mem_map_of_mem (List.mem_of_getElem? at_)) active
            have written : d.self.written = c.written := by
              apply Ctx.written_eq
              rw [self]
            show d.self.written ++ d.self.outgoing =
              Link.encode (ofClient (s.sent ++ [(c.key,m.bytes)]) d.self.key)
            rw [keys,ofClient_append,ofClient_single,if_pos rfl,Link.encode_append,written,outgoing,
              ← List.append_assoc]
            exact congrArg (· ++ _) whole
          · obtain ⟨before,other,_⟩ := others e there
            have whole := wired (line e) (List.mem_map_of_mem before) running
            show e.written ++ e.outgoing =
              Link.encode (ofClient (s.sent ++ [(c.key,m.bytes)]) e.key)
            rw [ofClient_append,ofClient_single,if_neg other.symm,List.append_nil]
            exact whole
  next => cases stepped

end Dispatch

theorem step_wired {s s' : Traffic} {op : TrafficOp} (base : s.Base) (wired : s.Wired)
    (stepped : s.step op = some s') : s'.Wired := by
  rcases step_cases stepped with ⟨id,socket,now,-,apart,rfl⟩ | ⟨i,c,t,-,visited,went,rfl⟩ |
    ⟨tick,m,rest,t,-,waiting,went,rfl⟩ | ⟨tick,t,-,waiting,went,rfl⟩ | ⟨t,-,went,rfl⟩ |
    ⟨o,t,-,other,went,rfl⟩
  · exact accept_wired base wired id socket now
  · exact visit_wired base wired visited went
  · exact dispatch_wired base waiting went wired
  · obtain ⟨clients,_⟩ := dispatch_idle waiting went
    exact wired.lines (by rw [clients]; exact List.Subset.refl _)
  · obtain ⟨clients,_⟩ := dispose_cases went
    exact wired.lines (clients.map line).subset
  · exact wired.lines (by rw [aside_lines other went]; exact List.Subset.refl _)

/-- A packet that `on_msg` answers. -/
def answered (p : Bytes) : Bool := Bytes.ofLe (p.take 2) != 0

theorem parse_fits {xs p : Bytes} (member : p ∈ (parse wire xs).1) : Link.Fits p := by
  obtain ⟨ys,rest,cut⟩ := parse_mem member
  obtain ⟨low,high,_⟩ := wireCut_frame cut
  exact ⟨low,high⟩

theorem frames_payloads {ms : List Message} (fits : ∀ m ∈ ms, 2 ≤ m.bytes.length) :
    frames ms = (ms.map Message.bytes).filter answered := by
  induction ms with
  | nil => rfl
  | cons m ms ih =>
    have low := fits m List.mem_cons_self
    have same : (m.opcode ≠ 0) = (answered m.bytes = true) := by
      have front : m.bytes.take 2 = m.data.take 2 := by
        rw [Message.bytes_length] at low
        rw [Message.bytes,List.take_take,Nat.min_eq_left low]
      simp [answered,front,Message.opcode]
    have rest := ih fun n member => fits n (List.mem_cons_of_mem _ member)
    unfold frames at rest ⊢
    simp only [List.map_cons,List.filter_cons,decide_eq_true_eq,same]
    split
    · rw [List.map_cons,rest]
    · exact rest

/-- What holds in every timely run. -/
structure Replying (s : Traffic) : Prop where
  base : s.Base
  good : s.Good
  wired : s.Wired

theorem start_replying (interval : Nat) : (start interval).Replying :=
  ⟨start_base interval,start_good interval,fun _ member => absurd member List.not_mem_nil⟩

theorem step_replying (s : Traffic) (op : TrafficOp) (s' : Traffic) (inv : s.Replying)
    (met : s.Timely op) (stepped : s.step op = some s') : s'.Replying :=
  ⟨step_base inv.base stepped,(step_good inv.base inv.good stepped).mpr met,
    step_wired inv.base inv.wired stepped⟩

section

variable {s : Traffic} (inv : s.Replying) {c : Session} (member : c ∈ s.server.clients)
include inv member

theorem line_answers (running : c.status = .running) : c.written ++ c.outgoing =
    Link.encode (frames (ofClient (s.pushed.take s.server.dispatched.length) c.key)) := by
  rw [← inv.good.echoed c member running]
  exact inv.wired (line c) (List.mem_map_of_mem member) running

theorem frames_answered {log : List (Option Nat × Message)}
    (part : ofClient log c.key <+: ofClient s.pushed c.key) :
    frames (ofClient log c.key) =
      ((ofClient log c.key).map Message.bytes).filter answered := by
  apply frames_payloads
  intro m there
  have arrived : m.bytes ∈ (parse wire (ofClient s.arrived c.key).flatten).1 := by
    rw [← (inv.base.clients c member).packets]
    exact List.mem_map_of_mem (part.subset there)
  exact (parse_fits arrived).1

/-- The answers are the first of those to the packets that have come. -/
theorem answers_prefix :
    frames (ofClient (s.pushed.take s.server.dispatched.length) c.key) <+:
      (parse wire (ofClient s.arrived c.key).flatten).1.filter answered := by
  have first : (ofClient (s.pushed.take s.server.dispatched.length) c.key) <+:
      ofClient s.pushed c.key :=
    ((List.take_prefix _ _).filter _).map _
  rw [frames_answered inv member first,← (inv.base.clients c member).packets]
  exact (first.map _).filter _

theorem answers_all
    (handled : ofClient (s.pushed.drop s.server.dispatched.length) c.key = []) :
    frames (ofClient (s.pushed.take s.server.dispatched.length) c.key) =
      (parse wire (ofClient s.arrived c.key).flatten).1.filter answered := by
  have all : ofClient (s.pushed.take s.server.dispatched.length) c.key =
      ofClient s.pushed c.key := by
    have split := congrArg (ofClient · c.key)
      (List.take_append_drop s.server.dispatched.length s.pushed)
    simp only [ofClient_append,handled,List.append_nil] at split
    exact split
  have part : ofClient (s.pushed.take s.server.dispatched.length) c.key <+:
      ofClient s.pushed c.key := ⟨[],by rw [List.append_nil,all]⟩
  rw [frames_answered inv member part,all,(inv.base.clients c member).packets]

end

end Traffic

end Pworld.Frame
