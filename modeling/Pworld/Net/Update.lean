import Pworld.Net.Transmit

/-! `Update` taken apart once. Its reading and writing phases touch neither the
socket nor the registration, change the status only from RUNNING to ERROR, and
push only messages of their own session; the rest is the status switch. -/
namespace Pworld.Net

def Call.status? : Call → Option SockStatus
  | .status s => some s
  | _ => none

/-- What reading and writing may do outside the session. -/
def Call.io : Call → Bool
  | .send _ _ | .shutdown | .status .error => true
  | _ => false

def Call.registers : Call → Bool
  | .register _ _ => true
  | _ => false

theorem Call.io_keeps {cs : List Call} (io : ∀ call ∈ cs, call.io = true) :
    (∀ call ∈ cs, call.registers = false) ∧ Call.close ∉ cs := by
  constructor
  · intro call member
    have quiet := io call member
    cases call <;> first | rfl | cases quiet
  · intro member
    cases io _ member

def statuses (trace : List Call) : List SockStatus := trace.filterMap Call.status?

@[simp] theorem statuses_append (a b : List Call) :
    statuses (a ++ b) = statuses a ++ statuses b := List.filterMap_append

namespace Session

/-- The session after reading and writing, and what `Update` then makes of it. -/
def finish (s : Session) (hang : Bool) (now again : Nat) : Session :=
  ((if hang then s.setSocketStatus .error else s).switchStatus now again).registerHandler

/-- `EPOLLERR`, `EPOLLHUP` or `EPOLLRDHUP` in a mask: `should_close`. -/
def hangs (events : Nat) : Bool :=
  has events epollErr || has events epollHup || has events epollRdHup

/-- The calls at the end of an `Update`. -/
def endCalls (s : Session) (hang : Bool) : List Call :=
  if hang then [.status .error,.status .preclosed]
  else match s.status with
    | .running =>
      if s.sendOver && s.recvOver then [.status .preclosed]
      else if s.inEpoll then []
      else [.register s.key (epollRdHup ||| epollOneShot ||| epollIn ||| epollOut)]
    | .error => [.status .preclosed]
    | .preclosed =>
      if s.socket ≠ -1 then [.onClosed,.close,.unregister (-1),.status .closed]
      else [.onClosed,.unregister (-1),.status .closed]
    | _ => []

def endStatus (s : Session) (hang : Bool) : SockStatus :=
  if hang then .preclosed
  else match s.status with
    | .running => if s.sendOver && s.recvOver then .preclosed else .running
    | .error => .preclosed
    | .preclosed => .closed
    | status => status

structure Finished (s t : Session) (hang : Bool) : Prop where
  trace : t.trace = s.trace ++ s.endCalls hang
  status : t.status = s.endStatus hang
  inEpoll : t.inEpoll = (s.inEpoll || s.endStatus hang == .running)
  events : t.events = s.events
  id : t.id = s.id
  key : t.key = s.key
  socket : t.socket = if Call.close ∈ s.endCalls hang then -1 else s.socket

theorem disconnect_trace (s : Session) : s.Disconnect.trace = s.trace := by
  unfold Disconnect
  split <;> rfl

theorem checkActivity_eq (s : Session) (now again : Nat) :
    ∃ d t, s.checkActivity now again = {s with disconnect := d, lastActiveT := t} := by
  unfold checkActivity Disconnect
  split_ifs
  · exact ⟨true,again,rfl⟩
  · exact ⟨s.disconnect,again,rfl⟩
  · exact ⟨s.disconnect,s.lastActiveT,rfl⟩

theorem closeSocket_eq (s : Session) : s.closeSocket =
    {s with socket := -1, trace := s.trace ++ if s.socket ≠ -1 then [.close] else []} := by
  unfold closeSocket
  split
  · rfl
  next invalid =>
    have closed : s.socket = -1 := Decidable.not_not.mp invalid
    rw [List.append_nil,← closed]

theorem finish_spec (s : Session) (hang : Bool) (now again : Nat) :
    Finished s (s.finish hang now again) hang := by
  cases hang with
  | true =>
    constructor <;> simp [finish,endCalls,endStatus,switchStatus,setSocketStatus,registerHandler]
  | false =>
    cases status : s.status with
    | running =>
      cases ended : s.sendOver && s.recvOver with
      | true =>
        obtain ⟨d,t,checked⟩ := checkActivity_eq (s.setSocketStatus .preclosed) now again
        have switched : s.switchStatus now again =
            {(s.setSocketStatus .preclosed) with disconnect := d, lastActiveT := t} := by
          rw [← checked]
          simp only [switchStatus,status,ended,if_true]
        constructor <;> simp [finish,endCalls,endStatus,status,switched,ended,setSocketStatus,
          registerHandler]
      | false =>
        obtain ⟨d,t,checked⟩ := checkActivity_eq s now again
        have switched : s.switchStatus now again = {s with disconnect := d, lastActiveT := t} := by
          rw [← checked]
          simp only [switchStatus,status,ended,Bool.false_eq_true,if_false]
        cases inEpoll : s.inEpoll <;> constructor <;> simp [finish,endCalls,endStatus,status,
          switched,ended,registerHandler,call,inEpoll]
    | preclosed =>
      by_cases valid : s.socket = -1
      · constructor <;> simp [finish,endCalls,endStatus,switchStatus,status,closeSocket_eq,
          setSocketStatus,registerHandler,call,valid]
      · constructor <;> simp [finish,endCalls,endStatus,switchStatus,status,closeSocket_eq,
          setSocketStatus,registerHandler,call,valid]
    | error =>
      constructor <;> simp [finish,endCalls,endStatus,switchStatus,setSocketStatus,
        registerHandler,status]
    | none =>
      constructor <;> simp [finish,endCalls,endStatus,switchStatus,registerHandler,status]
    | closed =>
      constructor <;> simp [finish,endCalls,endStatus,switchStatus,registerHandler,status]

/-- The buffers of a session, and how far it has come with those it sends. -/
def held (s : Session) : Message × Option Message × List Message × Option Message × Nat × Bool :=
  (s.msgHeader,s.msgRecv,s.queSend,s.msgSend,s.sendLen,s.sendOver)

theorem switchStatus_held (s : Session) (now again : Nat) :
    (s.switchStatus now again).held = s.held := by
  have checked (t : Session) : (t.checkActivity now again).held = t.held := by
    obtain ⟨d,last,same⟩ := checkActivity_eq t now again
    rw [same]
    rfl
  unfold switchStatus
  split
  · rw [checked]
    split
    · rfl
    · rfl
  · rfl
  · simp only [closeSocket_eq]
    rfl
  · rfl

theorem finish_held (s : Session) (hang : Bool) (now again : Nat) :
    (s.finish hang now again).held = s.held := by
  have registered (t : Session) : t.registerHandler.held = t.held := by
    unfold registerHandler
    split
    · rfl
    · rfl
  rw [finish,registered,switchStatus_held]
  split
  · rfl
  · rfl

theorem endStatus_running {s : Session} {hang : Bool} (running : s.endStatus hang = .running) :
    s.status = .running ∧
      s.endCalls hang = if s.inEpoll then [] else
        [.register s.key (epollRdHup ||| epollOneShot ||| epollIn ||| epollOut)] := by
  unfold endStatus at running
  unfold endCalls
  cases hang with
  | true => cases running
  | false =>
    cases status : s.status with
    | running =>
      simp only [status,Bool.false_eq_true,if_false] at running ⊢
      split at running
      · cases running
      next stay =>
        rw [if_neg stay]
        exact ⟨trivial,rfl⟩
    | none => rw [status] at running; cases running
    | error => rw [status] at running; cases running
    | preclosed => rw [status] at running; cases running
    | closed => rw [status] at running; cases running

theorem endCalls_registers {s : Session} {hang : Bool} (left : s.endStatus hang ≠ .running) :
    ∀ call ∈ s.endCalls hang, call.registers = false := by
  unfold endStatus at left
  unfold endCalls
  cases hang with
  | true => simp [Call.registers]
  | false =>
    simp only [Bool.false_eq_true,if_false] at left ⊢
    cases status : s.status with
    | running =>
      simp only [status] at left ⊢
      split at left
      next ended => simp [ended,Call.registers]
      next => exact absurd rfl left
    | preclosed =>
      simp only
      split <;> simp [Call.registers]
    | none => simp
    | error => simp [Call.registers]
    | closed => simp

/-- A session that ends closed has no socket any more, or was closed before. -/
theorem endStatus_closed {s : Session} {hang : Bool} (closed : s.endStatus hang = .closed) :
    s.status = .closed ∧ s.endCalls hang = [] ∨
      Call.close ∈ s.endCalls hang ∨ s.socket = -1 := by
  unfold endStatus at closed
  unfold endCalls
  cases hang with
  | true => cases closed
  | false =>
    simp only [Bool.false_eq_true,if_false] at closed ⊢
    cases status : s.status with
    | running =>
      simp only [status] at closed
      split at closed <;> cases closed
    | preclosed =>
      by_cases valid : s.socket = -1
      · exact .inr (.inr valid)
      · simp [valid]
    | none => simp [status] at closed
    | error => simp [status] at closed
    | closed => simp

theorem takeEvents_hangs (s : Session) (sockErr : Nat) :
    (s.takeEvents sockErr).1 = hangs s.events := by
  unfold takeEvents
  split
  next zero => rw [zero]; rfl
  next => rfl

end Session

namespace Ctx

/-- The effect of reading and writing on what the status machine looks at. -/
structure Io (c c' : Ctx) : Prop where
  id : c'.self.id = c.self.id
  socket : c'.self.socket = c.self.socket
  key : c'.self.key = c.self.key
  events : c'.self.events = c.self.events
  inEpoll : c'.self.inEpoll = c.self.inEpoll
  calls : ∃ cs, c'.self.trace = c.self.trace ++ cs ∧ (∀ call ∈ cs, call.io = true) ∧
    (c'.self.status = c.self.status ∧ statuses cs = [] ∨
      c.self.status = .running ∧ c'.self.status = .error ∧ statuses cs = [.error])
  waiting : ∃ ms, c'.env.recvQue.waiting = c.env.recvQue.waiting ++ ms ∧
    ∀ m ∈ ms, m.ptr = some c.self.id

theorem Io.refl (c : Ctx) : Io c c where
  id := rfl
  socket := rfl
  key := rfl
  events := rfl
  inEpoll := rfl
  calls := ⟨[],by simp,by simp,.inl ⟨rfl,rfl⟩⟩
  waiting := ⟨[],by simp,by simp⟩

theorem Io.trans {c d e : Ctx} (first : Io c d) (second : Io d e) : Io c e := by
  obtain ⟨cs,trace,io,status⟩ := first.calls
  obtain ⟨cs',trace',io',status'⟩ := second.calls
  obtain ⟨ms,waiting,owned⟩ := first.waiting
  obtain ⟨ms',waiting',owned'⟩ := second.waiting
  refine ⟨second.id.trans first.id,second.socket.trans first.socket,second.key.trans first.key,
    second.events.trans first.events,second.inEpoll.trans first.inEpoll,
    ⟨cs ++ cs',by rw [trace',trace,List.append_assoc],?_,?_⟩,
    ⟨ms ++ ms',by rw [waiting',waiting,List.append_assoc],?_⟩⟩
  · intro call member
    rcases List.mem_append.mp member with old | new
    · exact io call old
    · exact io' call new
  · rw [statuses_append]
    rcases status with ⟨same,none_⟩ | ⟨running,error,one⟩
    · rcases status' with ⟨same',none'⟩ | ⟨running',error',one'⟩
      · exact .inl ⟨same'.trans same,by rw [none_,none',List.append_nil]⟩
      · exact .inr ⟨same ▸ running',error',by rw [none_,one',List.nil_append]⟩
    · rcases status' with ⟨same',none'⟩ | ⟨running',_,_⟩
      · exact .inr ⟨running,same'.trans error,by rw [one,none',List.append_nil]⟩
      · rw [error] at running'
        cases running'
  · intro m member
    rcases List.mem_append.mp member with old | new
    · exact owned m old
    · rw [owned' m new,first.id]

/-- Nor is the status changed. -/
structure Still (c c' : Ctx) : Prop extends Io c c' where
  status : c'.self.status = c.self.status

theorem Still.refl (c : Ctx) : Still c c := ⟨.refl c,rfl⟩

theorem Still.trans {c d e : Ctx} (first : Still c d) (second : Still d e) : Still c e :=
  ⟨first.toIo.trans second.toIo,second.status.trans first.status⟩

theorem Still.quiet {c c' : Ctx} (id : c'.self.id = c.self.id)
    (socket : c'.self.socket = c.self.socket) (key : c'.self.key = c.self.key)
    (events : c'.self.events = c.self.events) (inEpoll : c'.self.inEpoll = c.self.inEpoll)
    (status : c'.self.status = c.self.status) (trace : c'.self.trace = c.self.trace)
    (waiting : c'.env.recvQue.waiting = c.env.recvQue.waiting) : Still c c' where
  id := id
  socket := socket
  key := key
  events := events
  inEpoll := inEpoll
  calls := ⟨[],by rw [trace,List.append_nil],by simp,.inl ⟨status,rfl⟩⟩
  waiting := ⟨[],by rw [waiting,List.append_nil],by simp⟩
  status := status

theorem Still.call {c c' : Ctx} (one : Call) (io : one.io = true) (none_ : one.status? = none)
    (same : Still {c with self := c.self.call one} c') : Still c c' where
  id := same.id
  socket := same.socket
  key := same.key
  events := same.events
  inEpoll := same.inEpoll
  calls := by
    obtain ⟨cs,trace,all,status⟩ := same.calls
    refine ⟨one::cs,by rw [trace]; simp [Session.call],?_,?_⟩
    · intro call member
      rcases List.mem_cons.mp member with first | rest
      · rw [first,io]
      · exact all call rest
    · have skip : statuses (one::cs) = statuses cs := List.filterMap_cons_none none_
      rw [skip]
      exact status
  waiting := same.waiting
  status := same.status

theorem beginRecv_still {c d : Ctx} {m : Message} (began : c.beginRecv = some (m,d)) :
    Still c d := by
  unfold beginRecv at began
  split at began
  next => cases Option.some.inj began; exact .refl c
  next =>
    split at began
    next => cases began
    next =>
      cases Option.some.inj began
      exact .quiet rfl rfl rfl rfl rfl rfl rfl (MessageQueue.applyMessage_waiting _ _)

theorem disconnect_still (c : Ctx) : Still c {c with self := c.self.Disconnect} := by
  unfold Session.Disconnect
  split
  · exact .quiet rfl rfl rfl rfl rfl rfl rfl rfl
  · exact .refl c

theorem pushRecv_still (c : Ctx) (m : Message) (now : Nat) : Still c (c.pushRecv m now) where
  id := rfl
  socket := rfl
  key := rfl
  events := rfl
  inEpoll := rfl
  calls := ⟨[],(List.append_nil _).symm,by simp,.inl ⟨rfl,rfl⟩⟩
  waiting := ⟨[m.own c.self.id],rfl,by simp⟩
  status := rfl

theorem onRecvBody_still {now : Nat} {c : Ctx} {data : Bytes} {o : (Ctx × Bytes) ⊕ Ctx}
    (ran : onRecvBody now (c,data) = some o) : Still c (o.elim Prod.fst id) := by
  unfold onRecvBody at ran
  simp only [Message.fillWhile_eq] at ran
  have filled : Still c {c with self := {c.self with
      msgHeader := (c.self.msgHeader.fill data).1}} :=
    .quiet rfl rfl rfl rfl rfl rfl rfl rfl
  split at ran
  next => cases Option.some.inj ran; exact filled
  next =>
    split at ran
    next =>
      cases Option.some.inj ran
      exact filled.trans (disconnect_still _)
    next m d began =>
      have so_far := filled.trans (beginRecv_still began)
      cases Option.some.inj ran
      have last : Still d (if (m.fill (c.self.msgHeader.fill data).2).1.full = true
          then d.pushRecv (m.fill (c.self.msgHeader.fill data).2).1 now
          else {d with self := {d.self with
            msgRecv := some (m.fill (c.self.msgHeader.fill data).2).1}}) := by
        split
        · exact pushRecv_still _ _ _
        · exact .quiet rfl rfl rfl rfl rfl rfl rfl rfl
      split
      · exact so_far.trans last
      · exact so_far.trans last

theorem onRecv_still {c c' : Ctx} {data : Bytes} {now : Nat} (ran : c.onRecv data now = some c') :
    Still c c' := by
  refine Loop.iterate_partial (fun s => Still c s.1) (fun d => Still c d) ?_ ?_ (.refl c) ran
  · intro s s' before again
    exact before.trans (onRecvBody_still (o := .inl s') again)
  · intro s d before left
    exact before.trans (onRecvBody_still (o := .inr d) left)

theorem Io.error {c d : Ctx} (same : Still c d) (running : c.self.status = .running) :
    Io c {d with self := d.self.setSocketStatus .error} where
  id := same.id
  socket := same.socket
  key := same.key
  events := same.events
  inEpoll := same.inEpoll
  calls := by
    obtain ⟨cs,trace,all,status⟩ := same.calls
    have none_ : statuses cs = [] := by
      rcases status with ⟨_,none_⟩ | ⟨_,error,_⟩
      · exact none_
      · rw [same.status,running] at error
        cases error
    refine ⟨cs ++ [.status .error],by simp [Session.setSocketStatus,trace],?_,
      .inr ⟨running,rfl,by rw [statuses_append,none_]; rfl⟩⟩
    intro call member
    rcases List.mem_append.mp member with old | new
    · exact all call old
    · rw [List.mem_singleton.mp new]
      rfl
  waiting := same.waiting

theorem recvRound_io {c : Ctx} {ret : RecvRet} {o : Ctx ⊕ Ctx}
    (running : c.self.status = .running) (stepped : c.recvRound ret = some o) :
    Io c (o.elim id id) ∧ ∀ d, o = .inl d → Still c d := by
  cases ret with
  | data chunk now =>
    simp only [recvRound] at stepped
    split at stepped
    · cases stepped
    · split at stepped
      next => cases stepped
      next d ran =>
        have still := onRecv_still ran
        split at stepped
        · cases Option.some.inj stepped
          exact ⟨still.toIo,fun e same => Sum.inl.inj same ▸ still⟩
        · cases Option.some.inj stepped
          exact ⟨still.toIo,fun e same => by cases same⟩
  | eof =>
    cases Option.some.inj stepped
    refine ⟨Still.toIo (Still.trans (d := {c with self := {c.self with recvOver := true}}) ?_
      (disconnect_still _)),fun e same => by cases same⟩
    exact .quiet rfl rfl rfl rfl rfl rfl rfl rfl
  | again =>
    cases Option.some.inj stepped
    refine ⟨Still.toIo ?_,fun e same => by cases same⟩
    exact .quiet rfl rfl rfl rfl rfl rfl rfl rfl
  | intr =>
    cases Option.some.inj stepped
    exact ⟨.refl c,fun e same => Sum.inl.inj same ▸ .refl c⟩
  | err errno =>
    cases Option.some.inj stepped
    exact ⟨Io.error (d := {c with self := {c.self with recvError := errno}})
      (.quiet rfl rfl rfl rfl rfl rfl rfl rfl) running,fun e same => by cases same⟩
  | odd errno =>
    cases Option.some.inj stepped
    refine ⟨Still.toIo ?_,fun e same => by cases same⟩
    exact .quiet rfl rfl rfl rfl rfl rfl rfl rfl

theorem postRecv_io {rets : List RecvRet} {c c' : Ctx} (ran : c.postRecv rets = some c') :
    Io c c' := by
  unfold postRecv at ran
  split at ran
  · cases Option.some.inj ran
    exact .refl c
  · next go =>
    have running : c.self.status = .running := by
      simp only [Bool.or_eq_true,bne_iff_ne,not_or,Decidable.not_not] at go
      exact go.1.2
    clear go
    induction rets generalizing c with
    | nil => cases ran
    | cons ret rets ih =>
      unfold postRecvLoop at ran
      split at ran
      next => cases ran
      next d stepped =>
        obtain ⟨-,still⟩ := recvRound_io running stepped
        have first := still d rfl
        exact first.toIo.trans (ih ran (first.status.trans running))
      next d stepped =>
        cases Option.some.inj ran
        exact (recvRound_io running stepped).1

theorem fetchSend_still (c : Ctx) : Still c c.fetchSend.2 := by
  unfold fetchSend
  split
  · exact .refl c
  · split
    · exact .refl c
    · split
      · exact .quiet rfl rfl rfl rfl rfl rfl rfl rfl
      · exact .quiet rfl rfl rfl rfl rfl rfl rfl rfl

theorem sendRound_io {c : Ctx} {m : Message} {ret : SendRet} {o : Ctx ⊕ Ctx}
    (running : c.self.status = .running) (stepped : c.sendRound m ret = some o) :
    Io c (o.elim id id) ∧ ∀ d, o = .inl d → Still c d := by
  have called : Still c {c with self := c.self.call (.send (m.bytes.drop c.self.sendLen) ret)} :=
    .call _ rfl rfl (.refl _)
  unfold sendRound at stepped
  cases ret with
  | again =>
    cases Option.some.inj stepped
    refine ⟨Still.toIo (called.trans ?_),fun e same => by cases same⟩
    exact .quiet rfl rfl rfl rfl rfl rfl rfl rfl
  | intr =>
    cases Option.some.inj stepped
    exact ⟨called.toIo,fun e same => Sum.inl.inj same ▸ called⟩
  | err errno =>
    cases Option.some.inj stepped
    have noted : Still _ {c with self :=
        {c.self.call (.send (m.bytes.drop c.self.sendLen) (.err errno)) with
          sendError := errno}} :=
      called.trans (.quiet rfl rfl rfl rfl rfl rfl rfl rfl)
    exact ⟨Io.error noted running,fun e same => by cases same⟩
  | sent n =>
    simp only at stepped
    split_ifs at stepped
    · cases Option.some.inj stepped
      have freed (d : Ctx) : Still d (d.freeSend m) := .quiet rfl rfl rfl rfl rfl rfl rfl rfl
      exact ⟨(called.trans (freed _)).toIo,fun e same => Sum.inl.inj same ▸ called.trans (freed _)⟩
    · cases Option.some.inj stepped
      refine ⟨Still.toIo (called.trans ?_),fun e same => by cases same⟩
      exact .quiet rfl rfl rfl rfl rfl rfl rfl rfl

theorem postSendLoop_io {rets : List SendRet} {c c' : Ctx} (running : c.self.status = .running)
    (ran : postSendLoop rets c = some c') : Io c c' := by
  induction rets generalizing c with
  | nil =>
    have fetched := fetchSend_still c
    unfold postSendLoop at ran
    split at ran
    next d same =>
      cases Option.some.inj ran
      rw [same] at fetched
      exact fetched.toIo
    next => cases ran
  | cons ret rets ih =>
    have fetched := fetchSend_still c
    unfold postSendLoop at ran
    split at ran
    next d same =>
      cases Option.some.inj ran
      rw [same] at fetched
      exact fetched.toIo
    next m d same =>
      rw [same] at fetched
      have running' := fetched.status.trans running
      split at ran
      next => cases ran
      next e stepped =>
        have first := (sendRound_io running' stepped).2 e rfl
        exact fetched.toIo.trans (first.toIo.trans (ih (first.status.trans running') ran))
      next e stepped =>
        cases Option.some.inj ran
        exact fetched.toIo.trans (sendRound_io running' stepped).1

theorem postSend_io {rets : List SendRet} {c c' : Ctx} (ran : c.postSend rets = some c') :
    Io c c' := by
  unfold postSend at ran
  split_ifs at ran with idle flush skip
  · cases Option.some.inj ran
    exact Still.toIo (.call .shutdown rfl rfl (.quiet rfl rfl rfl rfl rfl rfl rfl rfl))
  · cases Option.some.inj ran
    exact .refl c
  · cases Option.some.inj ran
    exact .refl c
  · have running : c.self.status = .running := by
      simp only [Bool.or_eq_true,bne_iff_ne,not_or,Decidable.not_not] at skip
      exact skip.1.2
    exact postSendLoop_io running ran

theorem takeEvents_io (c : Ctx) (sockErr : Nat) :
    Io {c with self := {c.self with events := 0}}
      {c with self := (c.self.takeEvents sockErr).2} := by
  unfold Session.takeEvents
  split
  next zero => exact Still.toIo (.quiet rfl rfl rfl zero rfl rfl rfl rfl)
  next => exact Still.toIo (.quiet rfl rfl rfl rfl rfl rfl rfl rfl)

/-- Everything an `Update` that gets the mutex can do: reading and writing with the
events taken, and its end. -/
theorem update_cases {c c' : Ctx} {i : UpdateIn} (locked : i.locked = true)
    (ran : c.update i = some c') :
    ∃ d, Io {c with self := {c.self with events := 0}} d ∧ c'.env = d.env ∧
      d.self.Finished c'.self (Session.hangs c.self.events) := by
  unfold update at ran
  simp only [locked,Bool.not_true,Bool.false_eq_true,if_false] at ran
  split at ran
  next => cases ran
  next d received =>
    split at ran
    next => cases ran
    next e sent =>
      cases Option.some.inj ran
      have io := (postRecv_io received).trans (postSend_io sent)
      rw [Session.takeEvents_hangs]
      exact ⟨e,(takeEvents_io c i.sockErr).trans io,rfl,Session.finish_spec _ _ _ _⟩

theorem update_skipped (c : Ctx) {i : UpdateIn} (locked : i.locked = false) :
    c.update i = some c := by
  simp [update,locked]

theorem update_owns {c c' : Ctx} {i : UpdateIn} (ran : c.update i = some c') :
    c'.self.id = c.self.id ∧ c'.self.key = c.self.key ∧
    ∃ ms, c'.env.recvQue.waiting = c.env.recvQue.waiting ++ ms ∧
      ∀ m ∈ ms, m.ptr = some c.self.id := by
  cases locked : i.locked with
  | false =>
    rw [update_skipped _ locked] at ran
    cases Option.some.inj ran
    exact ⟨rfl,rfl,[],(List.append_nil _).symm,by simp⟩
  | true =>
    obtain ⟨d,io,env,finished⟩ := update_cases locked ran
    rw [env]
    exact ⟨finished.id.trans io.id,finished.key.trans io.key,io.waiting⟩

/-- How an `Update` moves a session that has a socket while it is not closed. -/
theorem update_socket {c c' : Ctx} {i : UpdateIn} (ran : c.update i = some c')
    (closed : c.self.status = .closed → c.self.socket = -1)
    (running : c.self.status = .running → c.self.socket ≠ -1) :
    (c'.self.status = .closed → c'.self.socket = -1) ∧
    (c'.self.status = .running → c'.self.socket ≠ -1) := by
  cases locked : i.locked with
  | false =>
    rw [update_skipped _ locked] at ran
    cases Option.some.inj ran
    exact ⟨closed,running⟩
  | true =>
    obtain ⟨d,io,_,finished⟩ := update_cases locked ran
    obtain ⟨_,_,_,status⟩ := io.calls
    have socket : d.self.socket = c.self.socket := io.socket
    constructor
    · intro closed'
      rw [finished.status] at closed'
      rcases Session.endStatus_closed closed' with ⟨before,none_⟩ | closing | gone
      · have kept : c.self.status = .closed := by
          rcases status with ⟨kept,-⟩ | ⟨-,error,-⟩
          · exact kept.symm.trans before
          · rw [before] at error
            cases error
        rw [finished.socket,none_,if_neg List.not_mem_nil,socket,closed kept]
      · rw [finished.socket,if_pos closing]
      · rw [finished.socket,gone,ite_self]
    · intro running'
      rw [finished.status] at running'
      obtain ⟨before,calls⟩ := Session.endStatus_running running'
      have kept : c.self.status = .running := by
        rcases status with ⟨kept,-⟩ | ⟨-,error,-⟩
        · exact kept.symm.trans before
        · rw [before] at error
          cases error
      have open_ : Call.close ∉ d.self.endCalls (Session.hangs c.self.events) := by
        rw [calls]
        split <;> simp
      rw [finished.socket,if_neg open_,socket]
      exact running kept

theorem destroy_recvQue (c : Ctx) : c.destroy.env.recvQue = c.env.recvQue := by
  unfold destroy
  simp only
  split <;> split <;> rfl

end Ctx

end Pworld.Net
