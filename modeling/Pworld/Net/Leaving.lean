import Pworld.Net.Activity
import Pworld.Net.Handshake

/-! Why a session leaves RUNNING, and that it is then closed. The registration is a one-shot: a
session that has left RUNNING meets one more mask at most. -/
namespace Pworld.Net

/-- `_post_recv` comes to an error. -/
def failing : List RecvRet → Bool
  | .data chunk _::rets => chunk.length == maxBufferSize && failing rets
  | .intr::rets => failing rets
  | .err _::_ => true
  | _ => false

def Call.fails : Call → Bool
  | .send _ (.err _) => true
  | _ => false

def Session.sendFailed (s : Session) : Bool := s.trace.any Call.fails

structure Leaving where
  shake : Shake
  hung : Bool  -- an `Update` has met EPOLLERR, EPOLLHUP or EPOLLRDHUP
  ended : Bool  -- recv has returned 0
  failed : Bool  -- recv has failed
  deriving DecidableEq

/-- An `Update` that gets the mutex. -/
def ShakeOp.updates : ShakeOp → Bool
  | .update i => i.locked
  | _ => false

namespace Leaving

def self (s : Leaving) : Session := s.shake.ctx.self

def note (s : Leaving) (shake : Shake) : ShakeOp → Leaving
  | .update i =>
    let rets := s.shake.ctx.reads i
    {shake := shake
     hung := s.hung || i.locked && Session.hangs s.self.events
     ended := s.ended || atEnd rets
     failed := s.failed || failing rets}
  | _ => {s with shake := shake}

def step (s : Leaving) (op : ShakeOp) : Option Leaving :=
  (s.shake.step op).map fun shake => s.note shake op

def start (id header now : Nat) (socket : Int) (key : Option Nat) (fresh : Nat) (env : Env) :
    Leaving :=
  ⟨.start id header now socket key fresh env,false,false,false⟩

/-- `on_closed` has been called and the descriptor is given back. -/
def Closed (s : Leaving) : Prop := .onClosed ∈ s.self.trace ∧ s.self.socket = -1

/-- A session leaves RUNNING where it meets a hang up, where recv or send fails, or where both
directions are over; and after two more updates it has been closed. -/
structure Accounted (s : Leaving) : Prop where
  left : s.self.status ≠ .running ↔ s.hung = true ∨ s.failed = true ∨ s.self.sendFailed = true ∨
    .shutdown ∈ s.self.trace ∧ s.ended = true
  closes : s.self.status ≠ .running → ∀ ops t, Runs.run step s ops = some t →
    2 ≤ ops.countP ShakeOp.updates → t.Closed

end Leaving

namespace Ctx

/-- What `_on_recv` leaves alone. -/
structure Open (c d : Ctx) : Prop where
  status : d.self.status = c.self.status
  recvOver : d.self.recvOver = c.self.recvOver

theorem Open.refl (c : Ctx) : Open c c := ⟨rfl,rfl⟩

theorem Open.trans {c d e : Ctx} (first : Open c d) (second : Open d e) : Open c e :=
  ⟨second.status.trans first.status,second.recvOver.trans first.recvOver⟩

theorem disconnect_open (c : Ctx) : Open c {c with self := c.self.Disconnect} := by
  unfold Session.Disconnect
  split
  · exact ⟨rfl,rfl⟩
  · exact .refl c

theorem endRecv_open (d : Ctx) (m : Message) (now : Nat) : Open d
    (if m.full then d.pushRecv m now else {d with self := {d.self with msgRecv := some m}}) := by
  split
  · exact ⟨rfl,rfl⟩
  · exact ⟨rfl,rfl⟩

theorem onRecvBody_open {now : Nat} {c : Ctx} {data : Bytes} {o : (Ctx × Bytes) ⊕ Ctx}
    (ran : onRecvBody now (c,data) = some o) : Open c (o.elim Prod.fst id) := by
  unfold onRecvBody at ran
  simp only [Message.fillWhile_eq] at ran
  let headed : Ctx := {c with self := {c.self with msgHeader := (c.self.msgHeader.fill data).1}}
  have first : Open c headed := ⟨rfl,rfl⟩
  split at ran
  next =>
    cases ran
    exact first
  next =>
    split at ran
    next =>
      cases ran
      exact first.trans (disconnect_open headed)
    next m d began =>
      have begun : Open c d := by
        refine ⟨?_,?_⟩
        · rw [beginRecv_self began]
        · rw [beginRecv_self began]
      have last := begun.trans (endRecv_open d (m.fill (c.self.msgHeader.fill data).2).1 now)
      cases ran
      split
      · exact last
      · exact last

theorem onRecv_open {c c' : Ctx} {data : Bytes} {now : Nat} (ran : c.onRecv data now = some c') :
    Open c c' :=
  onRecv_rule (P := Open c) (fun before again => before.trans (onRecvBody_open again)) (.refl c) ran

/-- What reading makes of a session that runs. -/
theorem postRecvLoop_open {rets : List RecvRet} {c c' : Ctx} (ran : postRecvLoop rets c = some c') :
    c'.self.recvOver = (c.self.recvOver || atEnd rets) ∧
    c'.self.status = if failing rets then .error else c.self.status := by
  induction rets generalizing c with
  | nil => cases ran
  | cons ret rets ih =>
    unfold postRecvLoop at ran
    cases ret with
    | data chunk now =>
      simp only [recvRound] at ran
      split at ran
      next => cases ran
      next d stepped =>
        split at stepped
        next => cases stepped
        next =>
          split at stepped
          next => cases stepped
          next e called =>
            split at stepped
            next full =>
              cases stepped
              obtain ⟨status,recvOver⟩ := onRecv_open called
              rw [← recvOver,← status]
              simpa [atEnd,failing,full] using ih ran
            next => cases stepped
      next d stepped =>
        split at stepped
        next => cases stepped
        next =>
          split at stepped
          next => cases stepped
          next e called =>
            split at stepped
            next => cases stepped
            next short =>
              cases stepped
              cases ran
              obtain ⟨status,recvOver⟩ := onRecv_open called
              simp [atEnd,failing,short,status,recvOver]
    | intr => exact ih ran
    | eof =>
      cases ran
      obtain ⟨status,recvOver⟩ := disconnect_open {c with self := {c.self with recvOver := true}}
      exact ⟨recvOver.trans (Bool.or_true _).symm,status⟩
    | err errno =>
      cases ran
      exact ⟨(Bool.or_false _).symm,rfl⟩
    | _ =>
      cases ran
      exact ⟨(Bool.or_false _).symm,rfl⟩

theorem sendFailed_append {s t : Session} {cs : List Call} (trace : t.trace = s.trace ++ cs) :
    t.sendFailed = (s.sendFailed || cs.any Call.fails) := by
  rw [Session.sendFailed,trace,List.any_append]
  rfl

/-- What writing makes of a session. -/
structure Wrote (c d : Ctx) : Prop where
  recvOver : d.self.recvOver = c.self.recvOver
  status : d.self.status = c.self.status ∧ d.self.sendFailed = c.self.sendFailed ∨
    d.self.status = .error ∧ d.self.sendFailed = true

theorem sendRound_wrote {c d : Ctx} {m : Message} {ret : SendRet} {o : Ctx ⊕ Ctx}
    (wrote : Wrote c d) (stepped : d.sendRound m ret = some o) : Wrote c (o.elim id id) := by
  obtain ⟨recvOver,status⟩ := wrote
  have mild (t : Ctx) (over_ : t.self.recvOver = d.self.recvOver)
      (still : t.self.status = d.self.status) (calls : t.self.sendFailed = d.self.sendFailed) : Wrote c t := by
    refine ⟨over_.trans recvOver,?_⟩
    rw [still,calls]
    exact status
  have called (r : SendRet) (fine : Call.fails (.send (m.bytes.drop d.self.sendLen) r) = false) :
      (d.self.call (.send (m.bytes.drop d.self.sendLen) r)).sendFailed = d.self.sendFailed := by
    rw [sendFailed_append (s := d.self) rfl,List.any_cons,fine]
    simp
  unfold sendRound at stepped
  cases ret with
  | again =>
    cases stepped
    exact mild _ rfl rfl (called .again rfl)
  | intr =>
    cases stepped
    exact mild _ rfl rfl (called .intr rfl)
  | err errno =>
    cases stepped
    refine ⟨recvOver,.inr ⟨rfl,?_⟩⟩
    simp [Session.sendFailed,Session.setSocketStatus,Session.call,Call.fails]
  | sent n =>
    simp only at stepped
    split_ifs at stepped
    · cases stepped
      exact mild _ rfl rfl (called (.sent n) rfl)
    · cases stepped
      exact mild _ rfl rfl (called (.sent n) rfl)

theorem fetchSend_wrote {c d : Ctx} (wrote : Wrote c d) : Wrote c d.fetchSend.2 := by
  unfold fetchSend
  split
  · exact wrote
  · split
    · exact wrote
    · split
      · exact ⟨wrote.recvOver,wrote.status⟩
      · exact ⟨wrote.recvOver,wrote.status⟩

theorem postSend_wrote {rets : List SendRet} {c c' : Ctx} (ran : c.postSend rets = some c') :
    Wrote c c' := by
  unfold postSend at ran
  split_ifs at ran
  · cases ran
    refine ⟨rfl,.inl ⟨rfl,?_⟩⟩
    simp [Session.sendFailed,Session.call,Call.fails]
  · cases ran
    exact ⟨rfl,.inl ⟨rfl,rfl⟩⟩
  · cases ran
    exact ⟨rfl,.inl ⟨rfl,rfl⟩⟩
  · refine postSendLoop_rule (Wrote c) (fun d wrote => fetchSend_wrote wrote) ?_
      ⟨rfl,.inl ⟨rfl,rfl⟩⟩ ran
    intro d m ret o _ wrote _ stepped
    exact sendRound_wrote wrote stepped

theorem aside_sendFailed {s t : Session} (aside : s.Aside t) : t.sendFailed = s.sendFailed := by
  obtain ⟨_,cs,trace,quiet⟩ := aside
  have none_ : cs.any Call.fails = false := by
    rw [List.any_eq_false]
    intro c member fails
    have silent := quiet c member
    cases c with
    | send data ret => cases silent
    | _ => cases fails
  rw [sendFailed_append trace,none_,Bool.or_false]

/-- What an `Update` has read when it comes to `_post_send`. -/
theorem beforeSend_open {c d : Ctx} {i : UpdateIn} (locked : i.locked = true)
    (received : c.beforeSend i = some d) :
    d.self.recvOver = (c.self.recvOver || atEnd (c.reads i)) ∧
    d.self.status = (if failing (c.reads i) then .error else c.self.status) ∧
    d.self.sendFailed = c.self.sendFailed ∧ d.self.sendOver = c.self.sendOver := by
  have aside := (Session.takeEvents_aside c.self i.sockErr).trans (postRecv_aside received)
  have same : (c.self.takeEvents i.sockErr).2.status = c.self.status ∧
      (c.self.takeEvents i.sockErr).2.recvOver = c.self.recvOver := by
    unfold Session.takeEvents
    split <;> exact ⟨rfl,rfl⟩
  obtain ⟨status,recvOver⟩ := same
  refine ⟨?_,?_,aside_sendFailed aside,aside.sendOver⟩
  · unfold beforeSend postRecv at received
    unfold reads
    simp only [locked,Bool.not_true,Bool.false_or]
    split at received
    next skip =>
      cases received
      rw [if_pos skip,recvOver]
      exact (Bool.or_false _).symm
    next go =>
      rw [if_neg go,(postRecvLoop_open received).1]
      exact congrArg (· || _) recvOver
  · unfold beforeSend postRecv at received
    unfold reads
    simp only [locked,Bool.not_true,Bool.false_or]
    split at received
    next skip =>
      cases received
      rw [if_pos skip]
      exact status
    next go =>
      rw [if_neg go,(postRecvLoop_open received).2]
      exact congrArg (ite _ _) status

end Ctx

namespace Session

theorem finish_recvOver (s : Session) (hang : Bool) (now again : Nat) :
    (s.finish hang now again).recvOver = s.recvOver := by
  have checked (t : Session) : (t.checkActivity now again).recvOver = t.recvOver := by
    obtain ⟨d,last,same⟩ := checkActivity_eq t now again
    rw [same]
  have registered (t : Session) : t.registerHandler.recvOver = t.recvOver := by
    unfold registerHandler
    split <;> rfl
  have switched (t : Session) : (t.switchStatus now again).recvOver = t.recvOver := by
    unfold switchStatus
    split
    · rw [checked]
      split <;> rfl
    · rfl
    · simp only [closeSocket_eq]
      rfl
    · rfl
  rw [finish,registered,switched]
  split <;> rfl

theorem endStatus_iff {s : Session} {hang : Bool} : s.endStatus hang = .running ↔
    hang = false ∧ s.status = .running ∧ (s.sendOver && s.recvOver) = false := by
  unfold endStatus
  cases hang with
  | true => simp
  | false =>
    cases status : s.status with
    | running => cases s.sendOver && s.recvOver <;> simp
    | _ => simp

/-- Where an `Update` takes a session that does not run. -/
theorem endStatus_left {s : Session} {hang : Bool} (left : s.status ≠ .running) :
    s.endStatus hang = if hang then .preclosed else match s.status with
      | .error => .preclosed
      | .preclosed => .closed
      | status => status := by
  unfold endStatus
  cases status : s.status with
  | running => exact absurd status left
  | _ => rfl

theorem Farewell.over_iff {s : Session} (farewell : s.Farewell) :
    s.sendOver = true ↔ .shutdown ∈ s.trace := by
  rcases farewell with ⟨open_,none_⟩ | ⟨over_,pre,post,split,_⟩
  · simp [open_,none_]
  · simp [over_,split]

end Session

namespace Leaving

structure Inv (s : Leaving) : Prop where
  shake : s.shake.Inv
  farewell : s.self.Farewell
  recvOver : s.self.recvOver = s.ended
  left : s.self.status ≠ .running ↔ s.hung = true ∨ s.failed = true ∨ s.self.sendFailed = true ∨
    s.self.sendOver = true ∧ s.ended = true
  known : s.self.status = .running ∨ s.self.status = .preclosed ∨ s.self.status = .closed
  closed : s.self.status = .closed → s.Closed

/-- The parts of an `Update` that gets the mutex. -/
theorem update_step {s s' : Leaving} {i : UpdateIn} (locked : i.locked = true)
    (stepped : s.step (.update i) = some s') : ∃ d e, s.shake.ctx.beforeSend i = some d ∧
      d.postSend i.sends = some e ∧
      s'.self = e.self.finish (Session.hangs s.self.events) i.now i.again ∧
      s'.hung = (s.hung || Session.hangs s.self.events) ∧
      s'.ended = (s.ended || atEnd (s.shake.ctx.reads i)) ∧
      s'.failed = (s.failed || failing (s.shake.ctx.reads i)) := by
  obtain ⟨shake,done,rfl⟩ := Option.map_eq_some_iff.mp stepped
  simp only [Shake.step] at done
  split at done
  next => cases done
  next c ran =>
    cases done
    obtain ⟨d,e,received,sent,same⟩ := Ctx.update_parts locked ran
    refine ⟨d,e,received,sent,congrArg Ctx.self same,?_,rfl,rfl⟩
    show (s.hung || i.locked && Session.hangs s.self.events) = _
    rw [locked,Bool.true_and]

theorem shake_step {s s' : Leaving} {op : ShakeOp} (stepped : s.step op = some s') :
    s.shake.step op = some s'.shake := by
  obtain ⟨shake,done,rfl⟩ := Option.map_eq_some_iff.mp stepped
  rw [done]
  cases op <;> rfl

theorem postSend_sendOver {c c' : Ctx} {rets : List SendRet} (ran : c.postSend rets = some c')
    (over_ : c.self.sendOver = true) : c'.self.sendOver = true := by
  rcases Ctx.postSend_over ran with ⟨_,_,open_,_⟩ | ⟨_,same⟩ | ⟨open_,_⟩
  · cases over_.symm.trans open_
  · rwa [same]
  · cases over_.symm.trans open_

theorem stays_iff (hang failed unsent over_ ended : Bool) :
    ¬ (hang = false ∧ (failed = false ∧ unsent = false) ∧ (over_ && ended) = false) ↔
      hang = true ∨ failed = true ∨ unsent = true ∨ over_ = true ∧ ended = true := by
  decide +revert

/-- Whether the session still runs after an `Update`. -/
theorem left_update {s s' : Leaving} {i : UpdateIn} (inv : s.Inv) (locked : i.locked = true)
    (stepped : s.step (.update i) = some s') : s'.self.recvOver = s'.ended ∧
    (s'.self.status ≠ .running ↔ s'.hung = true ∨ s'.failed = true ∨ s'.self.sendFailed = true ∨
      s'.self.sendOver = true ∧ s'.ended = true) := by
  obtain ⟨d,e,received,sent,self,hung,ended,failed⟩ := update_step locked stepped
  obtain ⟨recvOver,status,sendFailed,sendOver⟩ := Ctx.beforeSend_open locked received
  obtain ⟨recvOver',wrote⟩ := Ctx.postSend_wrote sent
  have aside := Session.finish_aside e.self (Session.hangs s.self.events) i.now i.again
  have finished := Session.finish_spec e.self (Session.hangs s.self.events) i.now i.again
  rw [← self] at aside finished
  have both : e.self.recvOver = s'.ended := by
    rw [recvOver',recvOver,ended,← inv.recvOver]
    rfl
  have over_ : s'.self.recvOver = s'.ended := by rw [self,Session.finish_recvOver,both]
  refine ⟨over_,?_⟩
  rw [finished.status,Ne,Session.endStatus_iff,both,Ctx.aside_sendFailed aside,aside.sendOver,hung,
    failed]
  by_cases running : s.self.status = .running
  · have none_ := mt inv.left.mpr (not_not.mpr running)
    simp only [not_or,Bool.not_eq_true] at none_
    obtain ⟨hung,failed,unfailed,_⟩ := none_
    have still : e.self.status = .running ↔
        failing (s.shake.ctx.reads i) = false ∧ e.self.sendFailed = false := by
      rcases wrote with ⟨same,calls⟩ | ⟨error,calls⟩
      · rw [same,status,calls,sendFailed]
        cases failing (s.shake.ctx.reads i) with
        | true => simp
        | false => exact iff_of_true running ⟨rfl,unfailed⟩
      · simp [error,calls]
    rw [still,hung,failed,Bool.false_or,Bool.false_or]
    exact stays_iff ..
  · have gone : e.self.status ≠ .running := by
      rcases wrote with ⟨same,_⟩ | ⟨error,_⟩
      · rw [same,status]
        split
        · simp
        · exact running
      · simp [error]
    refine iff_of_true (fun still => gone still.2.1) ?_
    rcases inv.left.mp running with hung | failed | unsent | ⟨sent_,ended_⟩
    · exact .inl (by rw [hung,Bool.true_or])
    · exact .inr (.inl (by rw [failed,Bool.true_or]))
    · refine .inr (.inr (.inl ?_))
      rcases wrote with ⟨_,calls⟩ | ⟨_,calls⟩
      · rw [calls,sendFailed]
        exact unsent
      · exact calls
    · refine .inr (.inr (.inr ⟨postSend_sendOver sent (sendOver.trans sent_),?_⟩))
      rw [ended,ended_,Bool.true_or]

theorem update_io {c d e : Ctx} {i : UpdateIn} (received : c.beforeSend i = some d)
    (sent : d.postSend i.sends = some e) :
    Ctx.Io {c with self := {c.self with events := 0}} e :=
  ((Ctx.takeEvents_io c i.sockErr).trans (Ctx.postRecv_io received)).trans (Ctx.postSend_io sent)

theorem endStatus_known {s : Session} (hang : Bool) (known : s.status ≠ .none) :
    s.endStatus hang = .running ∨ s.endStatus hang = .preclosed ∨ s.endStatus hang = .closed := by
  unfold Session.endStatus
  split
  · exact .inr (.inl rfl)
  · cases status : s.status with
    | none => exact absurd status known
    | running => cases s.sendOver && s.recvOver <;> simp
    | error => exact .inr (.inl rfl)
    | preclosed => exact .inr (.inr rfl)
    | closed => exact .inr (.inr rfl)

/-- The step from PRECLOSED to CLOSED calls `on_closed` and closes the socket. -/
theorem closed_update {s s' : Leaving} {i : UpdateIn} (inv : s.Inv) (locked : i.locked = true)
    (stepped : s.step (.update i) = some s') :
    (s'.self.status = .running ∨ s'.self.status = .preclosed ∨ s'.self.status = .closed) ∧
    (s.Closed ∨ s'.self.status = .closed → s'.Closed) := by
  obtain ⟨d,e,received,sent,self,_⟩ := update_step locked stepped
  have io := update_io received sent
  obtain ⟨cs,trace,_,moved⟩ := io.calls
  have finished := Session.finish_spec e.self (Session.hangs s.self.events) i.now i.again
  rw [← self] at finished
  have status : e.self.status = s.self.status ∨ e.self.status = .error := by
    rcases moved with ⟨same,_⟩ | ⟨_,error,_⟩
    · exact .inl same
    · exact .inr error
  have stays (closed : s.Closed) : s'.Closed := by
    refine ⟨?_,?_⟩
    · rw [finished.trace,trace]
      exact List.mem_append_left _ (List.mem_append_left _ closed.1)
    · rw [finished.socket,io.socket]
      split
      · rfl
      · exact closed.2
  refine ⟨?_,fun closed => closed.elim stays fun closed => ?_⟩
  · rw [finished.status]
    apply endStatus_known
    intro none_
    rcases status with same | error
    · have known := inv.known
      rw [← same,none_] at known
      simp at known
    · cases error.symm.trans none_
  · rw [finished.status] at closed
    by_cases before : s.self.status = .closed
    · exact stays (inv.closed before)
    · have pre : Session.hangs s.self.events = false ∧ e.self.status = .preclosed := by
        unfold Session.endStatus at closed
        split at closed
        · cases closed
        next calm =>
          refine ⟨by simpa using calm,?_⟩
          split at closed
          · split at closed <;> cases closed
          · cases closed
          next same => exact same
          · rcases status with same | error
            · exact absurd (same.symm.trans closed) before
            · cases error.symm.trans closed
      have calls : s'.self.trace = e.self.trace ++
          if e.self.socket ≠ -1 then [.onClosed,.close,.unregister (-1),.status .closed]
          else [.onClosed,.unregister (-1),.status .closed] := by
        rw [finished.trace]
        simp [Session.endCalls,pre.1,pre.2]
      refine ⟨?_,?_⟩
      · rw [calls]
        split <;> simp
      · rw [finished.socket]
        by_cases valid : e.self.socket = -1
        · simp [valid]
        · simp [Session.endCalls,pre.1,pre.2,valid]

/-- A mask can still come, or is there. -/
def Pending (s : Leaving) : Prop :=
  s.shake.armed = true ∨ s.shake.InFlight ∨ s.self.events ≠ 0

instance (s : Leaving) : Decidable s.Pending := by
  unfold Pending Shake.InFlight
  infer_instance

/-- What every step but an update leaves alone. -/
structure Stays (s s' : Leaving) : Prop where
  status : s'.self.status = s.self.status
  trace : s'.self.trace = s.self.trace
  socket : s'.self.socket = s.self.socket
  sendOver : s'.self.sendOver = s.self.sendOver
  recvOver : s'.self.recvOver = s.self.recvOver
  hung : s'.hung = s.hung
  ended : s'.ended = s.ended
  failed : s'.failed = s.failed
  pending : s'.Pending → s.Pending

theorem step_stays {s s' : Leaving} {op : ShakeOp} (aside : op.updates = false)
    (stepped : s.step op = some s') : s.Stays s' := by
  obtain ⟨t,done,rfl⟩ := Option.map_eq_some_iff.mp stepped
  cases op with
  | update i =>
    have locked : i.locked = false := aside
    have reads : s.shake.ctx.reads i = [] := by simp [Ctx.reads,locked]
    simp only [Shake.step,Ctx.update_skipped _ locked] at done
    cases done
    refine ⟨rfl,rfl,rfl,rfl,rfl,?_,?_,?_,fun pending => ?_⟩
    · simp [note,locked]
    · simp [note,reads,atEnd]
    · simp [note,reads,failing]
    · simpa [Pending,note,self,Shake.InFlight] using pending
  | fire events =>
    obtain ⟨fires,same⟩ := Option.ite_none_right_eq_some.mp done
    cases same
    exact ⟨rfl,rfl,rfl,rfl,rfl,rfl,rfl,rfl,fun _ => .inl fires.1⟩
  | callback =>
    simp only [Shake.step] at done
    split at done
    · cases done
    next events rest flight =>
      cases done
      refine ⟨rfl,rfl,rfl,rfl,rfl,rfl,rfl,rfl,fun _ => .inr (.inl ?_)⟩
      simp [Shake.InFlight,flight]
  | send data =>
    simp only [Shake.step] at done
    split at done
    next => cases done
    next c ran =>
      have same := (Ctx.send_self ran).1
      cases done
      have self : (note s {s.shake with ctx := c} (.send data)).self = c.self := rfl
      refine ⟨?_,?_,?_,?_,?_,rfl,rfl,rfl,fun pending => ?_⟩
      · rw [self,same]
        rfl
      · rw [self,same]
        rfl
      · rw [self,same]
        rfl
      · rw [self,same]
        rfl
      · rw [self,same]
        rfl
      · rw [Pending,self,same] at pending
        exact pending
  | disconnect =>
    cases done
    have still := Ctx.disconnect_still s.shake.ctx
    have events : s.shake.ctx.self.Disconnect.events = s.self.events := still.events
    refine ⟨still.status,Session.disconnect_trace _,still.socket,
      (Session.disconnect_aside s.self).sendOver,(Ctx.disconnect_open s.shake.ctx).recvOver,rfl,rfl,
      rfl,fun pending => ?_⟩
    change _ ∨ _ ∨ s.shake.ctx.self.Disconnect.events ≠ 0 at pending
    rw [events] at pending
    exact pending
  | others env =>
    cases done
    exact ⟨rfl,rfl,rfl,rfl,rfl,rfl,rfl,rfl,id⟩

theorem Stays.closed_iff {s s' : Leaving} (stays : s.Stays s') : s'.Closed ↔ s.Closed := by
  rw [Closed,stays.trace,stays.socket,Closed]

theorem Stays.inv {s s' : Leaving} (stays : s.Stays s') (inv : s.Inv) (shake : s'.shake.Inv) :
    s'.Inv := by
  refine ⟨shake,?_,?_,?_,?_,?_⟩
  · unfold Session.Farewell
    rw [stays.sendOver,stays.trace]
    exact inv.farewell
  · rw [stays.recvOver,stays.ended]
    exact inv.recvOver
  · rw [stays.status,stays.hung,stays.failed,Session.sendFailed,stays.trace,stays.sendOver,
      stays.ended]
    exact inv.left
  · rw [stays.status]
    exact inv.known
  · rw [stays.status,stays.closed_iff]
    exact inv.closed

theorem inv_update {s s' : Leaving} {i : UpdateIn} (inv : s.Inv) (locked : i.locked = true)
    (stepped : s.step (.update i) = some s') : s'.Inv := by
  obtain ⟨recvOver,left⟩ := left_update inv locked stepped
  obtain ⟨known,closed⟩ := closed_update inv locked stepped
  obtain ⟨d,e,received,sent,self,_⟩ := update_step locked stepped
  have first := (Session.takeEvents_aside s.self i.sockErr).trans (Ctx.postRecv_aside received)
  have last := Session.finish_aside e.self (Session.hangs s.self.events) i.now i.again
  rw [← self] at last
  exact ⟨Shake.inv_step inv.shake (shake_step stepped),
    ((inv.farewell.aside first).sent sent).aside last,recvOver,left,known,
    fun done => closed (.inr done)⟩

/-- A step is an update that gets the mutex, or leaves the session's course alone. -/
theorem step_cases {s s' : Leaving} {op : ShakeOp} (stepped : s.step op = some s') :
    (∃ i, op = .update i ∧ i.locked = true) ∨ op.updates = false ∧ s.Stays s' := by
  cases updates : op.updates with
  | false => exact .inr ⟨rfl,step_stays updates stepped⟩
  | true =>
    cases op with
    | update i => exact .inl ⟨i,rfl,updates⟩
    | _ => cases updates

theorem step_inv (s : Leaving) (op : ShakeOp) (s' : Leaving) (inv : s.Inv)
    (stepped : s.step op = some s') : s'.Inv := by
  rcases step_cases stepped with ⟨i,rfl,locked⟩ | ⟨_,stays⟩
  · exact inv_update inv locked stepped
  · exact stays.inv inv (Shake.inv_step inv.shake (shake_step stepped))

theorem start_inv (id header now : Nat) (socket : Int) (key : Option Nat) (fresh : Nat)
    (env : Env) : (start id header now socket key fresh env).Inv := by
  refine ⟨Shake.inv_start id header now socket key fresh env,.inl ?_,?_,?_,?_,?_⟩
  all_goals simp [start,self,Shake.start,Ctx.attached,Session.attach,Session.new,
    Session.resetHeader,Session.setSocketStatus,Session.call,Session.sendFailed,Call.fails]

/-- The updates that a session which has left RUNNING still needs. -/
def due (s : Leaving) : Nat :=
  (if s.Pending then 1 else 0) + if s.self.status = .closed then 0 else 1

/-- An `Update` of a session that does not run. -/
theorem gone_update {s s' : Leaving} {i : UpdateIn} (inv : s.Inv) (locked : i.locked = true)
    (gone : s.self.status ≠ .running) (stepped : s.step (.update i) = some s') :
    s'.self.status ≠ .running ∧ (s'.Closed ∨ s'.due + 1 ≤ s.due) := by
  obtain ⟨_,closed⟩ := closed_update inv locked stepped
  obtain ⟨registration,quiet,flight,_⟩ := Shake.update_registration locked (shake_step stepped)
  obtain ⟨d,e,received,sent,self,_⟩ := update_step locked stepped
  obtain ⟨cs,trace,_,moved⟩ := (update_io received sent).calls
  have same : e.self.status = s.self.status := by
    rcases moved with ⟨same,_⟩ | ⟨running,_⟩
    · exact same
    · exact absurd running gone
  have status : s'.self.status = e.self.endStatus (Session.hangs s.self.events) := by
    rw [self]
    exact (Session.finish_spec ..).status
  rw [Session.endStatus_left (by rw [same]; exact gone),same] at status
  cases registration with
  | keeps ran => exact absurd ran gone
  | arms ran => exact absurd ran gone
  | leaves left less =>
    refine ⟨left,?_⟩
    rcases inv.known with running | here | shut
    · exact absurd running gone
    · rw [here] at status
      cases hang : Session.hangs s.self.events with
      | true =>
        -- the mask is used up, and no other can come
        have there : s.self.events ≠ 0 := by
          intro none_
          rw [none_] at hang
          cases hang
        have landed : ¬ s'.Pending := by
          intro pending
          rcases pending with armed | flies | new
          · exact there (inv.shake.taken (.inl (less armed)))
          · rw [Shake.InFlight,flight] at flies
            exact there (inv.shake.taken (.inr flies))
          · exact new quiet
        have pending : s.Pending := .inr (.inr there)
        rw [hang,if_pos rfl] at status
        rw [due,due,if_pos pending,if_neg landed,status,here]
        exact .inr (by decide)
      | false =>
        rw [hang,if_neg Bool.false_ne_true] at status
        exact .inl (closed (.inr status))
    · exact .inl (closed (.inl (inv.closed shut)))

theorem due_step {s s' : Leaving} {op : ShakeOp} (inv : s.Inv) (gone : s.self.status ≠ .running)
    (stepped : s.step op = some s') : s'.self.status ≠ .running ∧
      (s'.Closed ∨ s'.due + (if op.updates then 1 else 0) ≤ s.due) := by
  rcases step_cases stepped with ⟨i,rfl,locked⟩ | ⟨aside,stays⟩
  · simp only [ShakeOp.updates,locked,if_true]
    exact gone_update inv locked gone stepped
  · rw [aside,if_neg Bool.false_ne_true,due,due,stays.status]
    refine ⟨gone,.inr ?_⟩
    split
    next pending => rw [if_pos (stays.pending pending),Nat.add_zero]
    next => omega

/-- A closed session stays without a descriptor. -/
theorem closed_step {s s' : Leaving} {op : ShakeOp} (inv : s.Inv) (closed : s.Closed)
    (stepped : s.step op = some s') : s'.Closed := by
  rcases step_cases stepped with ⟨i,rfl,locked⟩ | ⟨_,stays⟩
  · exact (closed_update inv locked stepped).2 (.inl closed)
  · exact stays.closed_iff.mpr closed

theorem Inv.accounted {s : Leaving} (inv : s.Inv) : s.Accounted := by
  refine ⟨?_,fun gone ops t ran enough => ?_⟩
  · rw [← inv.farewell.over_iff]
    exact inv.left
  · have small : s.due ≤ 2 := by
      unfold due
      split <;> split <;> omega
    refine (Runs.reaches (fun s => s.Inv ∧ s.self.status ≠ .running) (fun s => s.Inv ∧ s.Closed)
      ?_ ?_ ShakeOp.updates due ?_ ?_ ⟨inv,gone⟩ ran (by omega)).2
    · exact fun s op s' held stepped =>
        ⟨step_inv s op s' held.1 stepped,(due_step held.1 held.2 stepped).1⟩
    · exact fun s op s' held stepped =>
        ⟨step_inv s op s' held.1 stepped,closed_step held.1 held.2 stepped⟩
    · intro s op s' held stepped
      exact (due_step held.1 held.2 stepped).2.imp_left fun closed =>
        ⟨step_inv s op s' held.1 stepped,closed⟩
    · intro s held none_
      refine ⟨held.1,held.1.closed ?_⟩
      by_contra other
      rw [due,if_neg other] at none_
      omega

theorem session_leaves (id header now : Nat) (socket : Int) (key : Option Nat) (fresh : Nat)
    (env : Env) (ops : List ShakeOp) :
    Runs.Always step Accounted (start id header now socket key fresh env) ops :=
  Runs.always_of_pres Inv (fun _ inv => inv.accounted) step_inv
    (start_inv id header now socket key fresh env)

/-- recv fails while a hang up is on its way. -/
def resetPeer : List ShakeOp :=
  [.update ⟨true,0,[.again],[],1,1⟩,.fire epollIn,.callback,
    .update ⟨true,0,[.data [3] 1],[],1,1⟩,.fire epollRdHup,.update ⟨true,0,[.err 104],[],1,1⟩,
    .callback,.update ⟨true,0,[],[],1,1⟩]

-- the first update that it still meets brings it to PRECLOSED again
example : (Runs.run step (start 1 4 0 5 none 6 Env.initial) resetPeer).map (fun s =>
    (s.self.status,s.failed,s.hung)) = some (.preclosed,true,true) := by decide +kernel

end Leaving

end Pworld.Net
