import Pworld.Net.Lifecycle
import Pworld.Net.Link

/-! A disconnect that waits for the queue: `::shutdown` comes when all that was accepted has been
written, and nothing is written after it. -/
namespace Pworld.Net

def Call.isSend : Call → Bool
  | .send _ _ => true
  | _ => false

/-- `::send` and `::shutdown`. -/
def Call.sends (c : Call) : Bool := c.isSend || c == .shutdown

theorem Call.accepted_aside {c : Call} (aside : c.sends = false) : c.accepted = [] := by
  cases c with
  | send => cases aside
  | _ => rfl

namespace Session

/-- `_que_send`, `_msg_send`, `_send_len` and `_send_over`. -/
def sender (s : Session) : List Message × Option Message × Nat × Bool :=
  (s.queSend,s.msgSend,s.sendLen,s.sendOver)

/-- What has nothing to do with sending. -/
structure Aside (s t : Session) : Prop where
  sender : t.sender = s.sender
  calls : ∃ cs, t.trace = s.trace ++ cs ∧ ∀ c ∈ cs, c.sends = false

theorem Aside.quiet {s t : Session} (sender : t.sender = s.sender) (trace : t.trace = s.trace) :
    Aside s t :=
  ⟨sender,[],by rw [trace,List.append_nil],fun c member => absurd member List.not_mem_nil⟩

theorem Aside.refl (s : Session) : Aside s s := .quiet rfl rfl

theorem Aside.trans {s t u : Session} (first : Aside s t) (second : Aside t u) : Aside s u := by
  obtain ⟨sender,cs,trace,aside⟩ := first
  obtain ⟨sender',cs',trace',aside'⟩ := second
  refine ⟨sender'.trans sender,cs ++ cs',by rw [trace',trace,List.append_assoc],?_⟩
  intro c member
  rcases List.mem_append.mp member with old | new
  · exact aside c old
  · exact aside' c new

theorem Aside.one {s t : Session} {c : Call} (aside : c.sends = false)
    (sender : t.sender = s.sender) (trace : t.trace = s.trace ++ [c]) : Aside s t := by
  refine ⟨sender,[c],trace,?_⟩
  intro c' member
  rwa [List.mem_singleton.mp member]

theorem Aside.written {s t : Session} (aside : Aside s t) : t.written = s.written := by
  obtain ⟨_,cs,trace,quiet⟩ := aside
  have none_ : (cs.map Call.accepted).flatten = [] := by
    rw [List.flatten_eq_nil_iff]
    intro bs member
    obtain ⟨c,here,rfl⟩ := List.mem_map.mp member
    exact Call.accepted_aside (quiet c here)
  rw [Session.written,trace,List.map_append,List.flatten_append,none_,List.append_nil]
  rfl

theorem Aside.count {s t : Session} (aside : Aside s t) :
    t.trace.count .shutdown = s.trace.count .shutdown := by
  obtain ⟨_,cs,trace,quiet⟩ := aside
  have none_ : .shutdown ∉ cs := by
    intro member
    cases quiet _ member
  rw [trace,List.count_append,List.count_eq_zero.mpr none_,Nat.add_zero]

theorem Aside.outgoing {s t : Session} (aside : Aside s t) : t.outgoing = s.outgoing := by
  obtain ⟨sender,_⟩ := aside
  simp only [Session.sender,Prod.mk.injEq] at sender
  obtain ⟨que,msg,len,_⟩ := sender
  rw [Session.outgoing,Session.queued,que,msg,len]
  rfl

theorem Aside.sendOver {s t : Session} (aside : Aside s t) : t.sendOver = s.sendOver :=
  congrArg (fun sender => sender.2.2.2) aside.sender

theorem disconnect_aside (s : Session) : Aside s s.Disconnect := by
  unfold Disconnect
  split
  · exact .quiet rfl rfl
  · exact .refl s

theorem takeEvents_aside (s : Session) (sockErr : Nat) : Aside s (s.takeEvents sockErr).2 := by
  unfold takeEvents
  split
  · exact .refl s
  · exact .quiet rfl rfl

theorem endCalls_aside (s : Session) (hang : Bool) : ∀ c ∈ s.endCalls hang, c.sends = false := by
  have kinds : ∀ cs : List Call, (cs.all fun c => !c.sends) = true → ∀ c ∈ cs, c.sends = false := by
    intro cs all c member
    simpa using List.all_eq_true.mp all c member
  apply kinds
  unfold endCalls
  split
  · rfl
  · split
    · split
      · rfl
      · split <;> rfl
    · rfl
    · split <;> rfl
    · rfl

theorem finish_aside (s : Session) (hang : Bool) (now again : Nat) :
    Aside s (s.finish hang now again) where
  sender := congrArg (fun held => held.2.2) (finish_held s hang now again)
  calls := ⟨s.endCalls hang,(finish_spec s hang now again).trace,endCalls_aside s hang⟩

end Session

namespace Ctx

open Session (Aside)

theorem beginRecv_self {c d : Ctx} {m : Message} (began : c.beginRecv = some (m,d)) :
    d.self = c.self := by
  unfold beginRecv at began
  split at began
  · cases began
    rfl
  · split at began
    · cases began
    · cases began
      rfl

theorem endRecv_aside (d : Ctx) (m : Message) (now : Nat) : Aside d.self
    (if m.full then d.pushRecv m now else {d with self := {d.self with msgRecv := some m}}).self := by
  split
  · exact .quiet rfl rfl
  · exact .quiet rfl rfl

theorem onRecvBody_aside {now : Nat} {c : Ctx} {data : Bytes} {o : (Ctx × Bytes) ⊕ Ctx}
    (ran : onRecvBody now (c,data) = some o) : Aside c.self (o.elim Prod.fst id).self := by
  unfold onRecvBody at ran
  simp only [Message.fillWhile_eq] at ran
  have headed : Aside c.self {c.self with msgHeader := (c.self.msgHeader.fill data).1} :=
    .quiet rfl rfl
  split at ran
  next =>
    cases ran
    exact headed
  next =>
    split at ran
    next =>
      cases ran
      exact headed.trans (Session.disconnect_aside _)
    next m d began =>
      have begun : Aside c.self d.self := by
        rw [beginRecv_self began]
        exact headed
      have last := begun.trans (endRecv_aside d (m.fill (c.self.msgHeader.fill data).2).1 now)
      cases ran
      split
      · exact last
      · exact last

theorem postRecv_aside {rets : List RecvRet} {c c' : Ctx} (ran : c.postRecv rets = some c') :
    Aside c.self c'.self := by
  apply postRecv_rule (P := fun d => Aside c.self d.self) _ _ _ _ (.refl c.self) ran
  · intro _ d _ _ before again
    exact before.trans (onRecvBody_aside again)
  · intro d before
    exact before.trans (Session.disconnect_aside d.self)
  · intro d before
    exact before.trans (.one (c := .status .error) rfl rfl rfl)
  · intro d _ _ _ before
    exact before.trans (.quiet rfl rfl)

/-- The session when `Update` calls `_post_send`. -/
def beforeSend (c : Ctx) (i : UpdateIn) : Option Ctx :=
  ({c with self := (c.self.takeEvents i.sockErr).2} : Ctx).postRecv i.recvs

theorem update_flow {c c' : Ctx} {i : UpdateIn} (ran : c.update i = some c') :
    c' = c ∨ ∃ d e, c.beforeSend i = some d ∧ d.postSend i.sends = some e ∧
      Aside c.self d.self ∧ Aside e.self c'.self := by
  unfold update at ran
  split at ran
  next => exact .inl (Option.some.inj ran).symm
  next =>
    simp only at ran
    split at ran
    next => cases ran
    next d received =>
      split at ran
      next => cases ran
      next e sent =>
        have first := Session.takeEvents_aside c.self i.sockErr
        have last := Session.finish_aside e.self (c.self.takeEvents i.sockErr).1 i.now i.again
        cases ran
        exact .inr ⟨d,e,received,sent,first.trans (postRecv_aside received),last⟩

theorem sendRound_over {c : Ctx} {m : Message} {ret : SendRet} {o : Ctx ⊕ Ctx}
    (stepped : c.sendRound m ret = some o) : (o.elim id id).self.sendOver = c.self.sendOver ∧
      ∃ cs, (o.elim id id).self.trace = c.self.trace ++ cs ∧ .shutdown ∉ cs := by
  unfold sendRound at stepped
  cases ret with
  | again =>
    cases stepped
    exact ⟨rfl,[_],rfl,by simp⟩
  | intr =>
    cases stepped
    exact ⟨rfl,[_],rfl,by simp⟩
  | err errno =>
    cases stepped
    refine ⟨rfl,[_,.status .error],List.append_assoc _ _ _,by simp⟩
  | sent n =>
    simp only at stepped
    split_ifs at stepped
    · cases stepped
      exact ⟨rfl,[_],rfl,by simp⟩
    · cases stepped
      exact ⟨rfl,[_],rfl,by simp⟩

theorem fetchSend_over (c : Ctx) : c.fetchSend.2.self.sendOver = c.self.sendOver := by
  unfold fetchSend
  split
  · rfl
  · split
    · rfl
    · split <;> rfl

/-- `_post_send` shuts down, where nothing is left, or is over, or goes on writing. -/
theorem postSend_over {rets : List SendRet} {c c' : Ctx} (ran : c.postSend rets = some c') :
    (c.self.outgoing = [] ∧ c.self.disconnect = true ∧ c.self.sendOver = false ∧
        c'.self = ({c.self with sendOver := true} : Session).call .shutdown) ∨
      (c.self.sendOver = true ∧ c' = c) ∨
      (c.self.sendOver = false ∧ c'.self.sendOver = false ∧
        ∃ cs, c'.self.trace = c.self.trace ++ cs ∧ .shutdown ∉ cs) := by
  have same : c' = c → c.self.sendOver = true ∧ c' = c ∨ c.self.sendOver = false ∧
      c'.self.sendOver = false ∧ ∃ cs, c'.self.trace = c.self.trace ++ cs ∧ .shutdown ∉ cs := by
    rintro rfl
    cases sentOver : c'.self.sendOver with
    | true => exact .inl ⟨rfl,rfl⟩
    | false => exact .inr ⟨rfl,rfl,[],(List.append_nil _).symm,List.not_mem_nil⟩
  unfold postSend at ran
  split_ifs at ran with idle flush skip
  · cases ran
    simp only [Bool.and_eq_true,Option.isNone_iff_eq_none,List.isEmpty_iff,
      Bool.not_eq_true'] at idle flush
    refine .inl ⟨?_,flush.1,flush.2,rfl⟩
    rw [Session.outgoing,Session.queued,idle.1,idle.2]
    rfl
  · exact .inr (same (Option.some.inj ran).symm)
  · exact .inr (same (Option.some.inj ran).symm)
  · have open_ : c.self.sendOver = false := by
      cases sentOver : c.self.sendOver with
      | true => simp [sentOver] at skip
      | false => rfl
    refine .inr (.inr ⟨open_,?_⟩)
    refine postSendLoop_rule (fun d => d.self.sendOver = false ∧
      ∃ cs, d.self.trace = c.self.trace ++ cs ∧ .shutdown ∉ cs) ?_ ?_
      ⟨open_,[],(List.append_nil _).symm,List.not_mem_nil⟩ ran
    · rintro d ⟨sentOver,calls⟩
      rw [fetchSend_over,(fetchSend_spec d).2.1]
      exact ⟨sentOver,calls⟩
    · rintro d m ret o - ⟨sentOver,cs,trace,none_⟩ _ stepped
      obtain ⟨sentOver',cs',trace',none'⟩ := sendRound_over stepped
      refine ⟨sentOver'.trans sentOver,cs ++ cs',by rw [trace',trace,List.append_assoc],?_⟩
      rw [List.mem_append,not_or]
      exact ⟨none_,none'⟩

end Ctx

namespace Session

/-- At most one `::shutdown`, and no `::send` or other `::shutdown` after it. -/
def Farewell (s : Session) : Prop :=
  s.sendOver = false ∧ .shutdown ∉ s.trace ∨
  s.sendOver = true ∧ ∃ pre post, s.trace = pre ++ .shutdown::post ∧ .shutdown ∉ pre ∧
    ∀ c ∈ post, c.sends = false

theorem Farewell.aside {s t : Session} (farewell : s.Farewell) (aside : Aside s t) :
    t.Farewell := by
  have sentOver := aside.sendOver
  obtain ⟨_,cs,trace,quiet⟩ := aside
  rcases farewell with ⟨open_,none_⟩ | ⟨closed,pre,post,split,first,last⟩
  · refine .inl ⟨sentOver.trans open_,?_⟩
    rw [trace,List.mem_append,not_or]
    refine ⟨none_,fun member => ?_⟩
    cases quiet _ member
  · refine .inr ⟨sentOver.trans closed,pre,post ++ cs,?_,first,?_⟩
    · rw [trace,split,List.append_assoc,List.cons_append]
    · intro c member
      rcases List.mem_append.mp member with old | new
      · exact last c old
      · exact quiet c new

theorem Farewell.sent {c c' : Ctx} {rets : List SendRet} (farewell : c.self.Farewell)
    (ran : c.postSend rets = some c') : c'.self.Farewell := by
  rcases Ctx.postSend_over ran with ⟨_,_,open_,shut⟩ | ⟨_,same⟩ | ⟨open_,open',cs,trace,none'⟩
  · rcases farewell with ⟨_,none_⟩ | ⟨closed,_⟩
    · rw [shut]
      refine .inr ⟨rfl,c.self.trace,[],rfl,none_,?_⟩
      intro c member
      cases member
    · cases open_.symm.trans closed
  · rwa [same]
  · rcases farewell with ⟨_,none_⟩ | ⟨closed,_⟩
    · refine .inl ⟨open',?_⟩
      rw [trace,List.mem_append,not_or]
      exact ⟨none_,none'⟩
    · cases open_.symm.trans closed

theorem Farewell.once {s : Session} (farewell : s.Farewell) : s.trace.count .shutdown ≤ 1 := by
  rcases farewell with ⟨_,none_⟩ | ⟨_,pre,post,split,first,last⟩
  · rw [List.count_eq_zero.mpr none_]
    exact Nat.zero_le 1
  · have later : .shutdown ∉ post := by
      intro member
      cases last _ member
    rw [split,List.count_append,List.count_cons_self,List.count_eq_zero.mpr first,
      List.count_eq_zero.mpr later]

theorem Farewell.last {s : Session} (farewell : s.Farewell) {pre post : List Call}
    (split : s.trace = pre ++ .shutdown::post) : ∀ c ∈ post, c.isSend = false := by
  rcases farewell with ⟨_,none_⟩ | ⟨_,pre',post',split',first,last⟩
  · rw [split] at none_
    exact absurd (List.mem_append_right _ List.mem_cons_self) none_
  · have later : .shutdown ∉ post' := by
      intro member
      cases last _ member
    have apart := (List.append_cons_inj_of_notMem first later).mp (split'.symm.trans split)
    intro c member
    rw [← apart.2.2] at member
    exact (Bool.or_eq_false_iff.mp (last c member)).1

end Session

/-- A session with the payloads that `Send` has accepted. -/
structure Flush where
  life : Life
  accepted : List Bytes
  deriving DecidableEq

namespace Flush

def self (s : Flush) : Session := s.life.ctx.self

def accepts (s : Flush) : LifeOp → List Bytes
  | .send data => if s.self.Active then [data] else []
  | _ => []

def step (s : Flush) (op : LifeOp) : Option Flush :=
  (s.life.step op).map fun life => ⟨life,s.accepted ++ s.accepts op⟩

def start (id header now : Nat) (socket : Int) (key : Option Nat) (fresh : Nat) (env : Env) :
    Flush := ⟨Life.start id header now socket key fresh env,[]⟩

structure Inv (s : Flush) : Prop where
  conserved : s.self.written ++ s.self.outgoing = Link.encode s.accepted
  farewell : s.self.Farewell

variable {s s' : Flush}

theorem inv_aside (inv : s.Inv) (aside : s.self.Aside s'.self)
    (accepted : s'.accepted = s.accepted) : s'.Inv := by
  refine ⟨?_,inv.farewell.aside aside⟩
  rw [aside.written,aside.outgoing,accepted]
  exact inv.conserved

theorem inv_send {data : Bytes} (inv : s.Inv) (stepped : s.step (.send data) = some s') :
    s'.Inv := by
  obtain ⟨life,done,rfl⟩ := Option.map_eq_some_iff.mp stepped
  obtain ⟨c,ran,rfl⟩ := Option.map_eq_some_iff.mp done
  by_cases active : s.self.status = .running
  · obtain ⟨c',ran',self,outgoing,_⟩ := Ctx.send_spec s.life.ctx active data
    cases ran.symm.trans ran'
    have accepts : s.accepts (.send data) = [data] := if_pos (by simp [Session.Active,active])
    have trace : c.self.trace = s.self.trace := by
      rw [self]
      rfl
    refine ⟨?_,?_⟩
    · show c.self.written ++ c.self.outgoing = _
      rw [Ctx.written_eq trace,outgoing,← List.append_assoc,accepts,Link.encode_append]
      exact congrArg (· ++ _) inv.conserved
    · have sentOver : c.self.sendOver = s.self.sendOver := by
        rw [self]
        rfl
      have farewell := inv.farewell
      rw [Session.Farewell,← trace,← sentOver] at farewell
      exact farewell
  · rw [Ctx.send_inactive s.life.ctx active] at ran
    cases ran
    have accepts : s.accepts (.send data) = [] := if_neg (by simpa [Session.Active] using active)
    exact inv_aside inv (.refl _) (by rw [accepts]; exact List.append_nil _)

theorem inv_update {i : UpdateIn} (inv : s.Inv) (stepped : s.step (.update i) = some s') :
    s'.Inv := by
  obtain ⟨life,done,rfl⟩ := Option.map_eq_some_iff.mp stepped
  obtain ⟨c,ran,rfl⟩ := Option.map_eq_some_iff.mp done
  rcases Ctx.update_flow ran with rfl | ⟨d,e,_,sent,before,after⟩
  · exact inv_aside inv (.refl _) (List.append_nil _)
  · have farewell := (inv.farewell.aside before).sent sent
    refine ⟨?_,farewell.aside after⟩
    show c.self.written ++ c.self.outgoing = Link.encode (s.accepted ++ [])
    rw [after.written,after.outgoing,(Ctx.postSend_conserves sent).1,before.written,
      before.outgoing,List.append_nil]
    exact inv.conserved

theorem inv_step {op : LifeOp} (inv : s.Inv) (stepped : s.step op = some s') : s'.Inv := by
  cases op with
  | update i => exact inv_update inv stepped
  | send data => exact inv_send inv stepped
  | disconnect =>
    cases stepped
    exact inv_aside inv (Session.disconnect_aside _) (List.append_nil _)
  | callback events =>
    obtain ⟨life,done,rfl⟩ := Option.map_eq_some_iff.mp stepped
    simp only [Life.step] at done
    split at done
    · cases done
      exact inv_aside inv (.quiet rfl rfl) (List.append_nil _)
    · cases done
  | others env =>
    cases stepped
    exact inv_aside inv (.refl _) (List.append_nil _)

theorem inv_start (id header now : Nat) (socket : Int) (key : Option Nat) (fresh : Nat)
    (env : Env) : (start id header now socket key fresh env).Inv := by
  have trace : (start id header now socket key fresh env).self.trace =
      [.status .running,.onOpened] := rfl
  refine ⟨rfl,.inl ⟨rfl,?_⟩⟩
  rw [trace]
  simp

/-- Where `::shutdown` is called, Disconnect was requested and all that was accepted is written. -/
def Due (s : Flush) (op : LifeOp) : Prop :=
  ∃ i d e, op = .update i ∧ s.life.ctx.beforeSend i = some d ∧ d.postSend i.sends = some e ∧
    e.self.trace = d.self.trace ++ [.shutdown] ∧ d.self.disconnect = true ∧
    d.self.written = Link.encode s.accepted

theorem due_step {op : LifeOp} (inv : s.Inv) (stepped : s.step op = some s')
    (shuts : s'.self.trace.count .shutdown ≠ s.self.trace.count .shutdown) : s.Due op := by
  obtain ⟨life,done,rfl⟩ := Option.map_eq_some_iff.mp stepped
  cases op with
  | update i =>
    obtain ⟨c,ran,rfl⟩ := Option.map_eq_some_iff.mp done
    rcases Ctx.update_flow ran with rfl | ⟨d,e,received,sent,before,after⟩
    · exact absurd rfl shuts
    · have first := before.count
      have last := after.count
      rcases Ctx.postSend_over sent with ⟨empty,asked,_,shut⟩ | ⟨_,same⟩ | ⟨_,_,cs,trace,none_⟩
      · have written : d.self.written = Link.encode s.accepted := by
          have conserved := inv.conserved
          have before : s.self.Aside d.self := before
          rw [← before.written,← before.outgoing,empty,List.append_nil] at conserved
          exact conserved
        exact ⟨i,d,e,rfl,received,sent,by rw [shut]; rfl,asked,written⟩
      · rw [same] at last
        exact absurd (last.trans first) shuts
      · rw [trace,List.count_append,List.count_eq_zero.mpr none_,Nat.add_zero] at last
        exact absurd (last.trans first) shuts
  | send data =>
    obtain ⟨c,ran,rfl⟩ := Option.map_eq_some_iff.mp done
    have trace : c.self.trace = s.self.trace := by
      rw [(Ctx.send_self ran).1]
      rfl
    exact absurd (congrArg (List.count .shutdown) trace) shuts
  | disconnect =>
    cases done
    exact absurd (congrArg (List.count .shutdown) (Session.disconnect_trace _)) shuts
  | callback events =>
    simp only [Life.step] at done
    split at done
    · cases done
      exact absurd rfl shuts
    · cases done
  | others env =>
    cases done
    exact absurd rfl shuts

end Flush

end Pworld.Net
