import Pworld.Net.WinSession

/-! The Windows session among the threads that use it. The kernel and the poller go on between
any two pieces of `Update`, and none of them asks whether the session is still there. -/
namespace Pworld.Net

/-- The next piece of `Update`. -/
inductive Phase where
  | recv
  | send
  | switch
  deriving DecidableEq,Repr

inductive Dir where
  | recv
  | send
  deriving DecidableEq,Repr

inductive WinOp where
  | send (data : Bytes)
  | disconnect
  | disposeRecv (now : Nat) (ret : Option Nat)
  | disposeSend (ret : Option Nat)
  | switchStatus
  | delete
  | poll (dir : Dir) (op : PollOp)
  | others (env : Env)  -- other sessions use the queues
  deriving DecidableEq

structure Proactor where
  win : Win
  phase : Phase
  deleted : Bool
  accesses : List Bool  -- for each step of the kernel or the poller, whether the session was there
  lent : Option Message  -- whose bytes `WSASend` was last called with
  arrived : Bytes  -- what the kernel has stored into the buffer, all of it
  taken : Bytes  -- what `_on_recv` was called with
  pushed : List Bytes
  accepted : List Bytes
  deriving DecidableEq

namespace Win

def io (w : Win) : Dir → Overlapped
  | .recv => w._io_recv
  | .send => w._io_send

def setIo (w : Win) (dir : Dir) (o : Overlapped) : Win :=
  match dir with
  | .recv => {w with _io_recv := o}
  | .send => {w with _io_send := o}

end Win

namespace Proactor

def self (s : Proactor) : Session := s.win.self

def step (s : Proactor) : WinOp → Option Proactor
  | .send data =>
    if s.phase = .recv ∧ s.deleted = false then
      (s.win.ctx.send data).map fun c => {s with
        win := {s.win with ctx := c}
        accepted := s.accepted ++ if s.self.Active then [data] else []}
    else none
  | .disconnect =>
    if s.phase = .recv ∧ s.deleted = false then some {s with win := s.win.put s.self.Disconnect}
    else none
  | .disposeRecv now ret =>
    if s.phase = .recv ∧ s.deleted = false then
      (s.win._dispose_recv now ret).map fun w => {s with
        win := w
        phase := .send
        taken := s.taken ++ s.win.reads
        pushed := s.pushed ++ (w.ctx.env.recvQue.waiting.drop
          s.win.ctx.env.recvQue.waiting.length).map Message.bytes}
    else none
  | .disposeSend ret =>
    if s.phase = .send ∧ s.deleted = false then
      (s.win._dispose_send ret).map fun w => {s with
        win := w
        phase := .switch
        lent := if w._io_send.flight = s.win._io_send.flight then s.lent else w.self.msgSend}
    else none
  | .switchStatus =>
    if s.phase = .switch ∧ s.deleted = false then
      some {s with win := s.win.switchStatus, phase := .recv}
    else none
  | .delete =>
    if s.phase = .recv ∧ s.deleted = false ∧ s.self.Disposable = true then
      some {s with win := {s.win with ctx := s.win.ctx.destroy}, deleted := true}
    else none
  | .poll dir op => ((s.win.io dir).poll op).map fun o => {s with
      win := s.win.setIo dir o
      accesses := s.accesses ++ [!s.deleted]
      arrived := s.arrived ++ match dir with
        | .recv => op.brings
        | .send => []}
  | .others env => some {s with win := {s.win with ctx := {s.win.ctx with env := env}}}

/-- What a session is made and opened with: its address, the block of its header, the queues, the
arguments of `Attach`, the address of a new key, and what `RegisterHandler` and `WSARecv` give. -/
structure Opening where
  id : Nat
  header : Nat
  env : Env
  socket : Int
  key : Option Nat
  fresh : Nat
  registered : Bool
  ret : Option Nat
  deriving DecidableEq

def start (o : Opening) : Proactor where
  win := (Win.new o.id o.header o.env).Attach o.socket o.key o.fresh o.registered o.ret
  phase := .recv
  deleted := false
  accesses := []
  lent := none
  arrived := []
  taken := []
  pushed := []
  accepted := []

/-- The pieces, one after the other, are `Update`. -/
theorem run_update {s : Proactor} (phase : s.phase = .recv) (deleted : s.deleted = false)
    (i : Win.WinIn) : (Runs.run step s
      [.disposeRecv i.now i.recv,.disposeSend i.send,.switchStatus]).map (·.win) =
    s.win.Update i := by
  simp only [Runs.run_cons,step,phase,deleted,Win.Update]
  cases s.win._dispose_recv i.now i.recv with
  | none => rfl
  | some w =>
    cases sent : w._dispose_send i.send with
    | none => simp [sent]
    | some w' => simp [sent,Runs.run]

/-- The session that the threads find is there, no `PerIoData` is used for two operations at a
time, the buffer that was handed to the kernel is held unchanged, nothing is under way once the
socket is closed, and `_dispose_send` neither reads a null message nor an empty queue. -/
structure Sound (s : Proactor) : Prop where
  alive : ∀ access ∈ s.accesses, access = true
  single : ∀ dir, (s.win.io dir).doubled = false
  lent : s.win._io_send.flight ≠ .none → s.self.msgSend ≠ none ∧ s.lent = s.self.msgSend
  ends : s.deleted = true ∨ .close ∈ s.self.trace → ∀ dir, (s.win.io dir).flight = .none
  defined : s.deleted = false → ∀ ret, s.win._dispose_send ret ≠ none

structure Safe (s : Proactor) : Prop where
  ok : ∀ dir, (s.win.io dir).Ok
  holds : s.deleted = false → s.win.Holds
  lent : s.deleted = false →
    s.win._io_send.io._status = .pending ∨ s.win._io_send.io._status = .completed →
    s.lent = s.self.msgSend
  recvIdle : s.self.recvOver = true → s.win._io_recv.io._status = .idle
  sendIdle : s.self.sendOver = true → s.win._io_send.io._status = .idle
  over_ : 3 ≤ s.self.status.rank → ∀ dir, (s.win.io dir).io._status ≠ .pending
  closed : .close ∈ s.self.trace → s.self.status = .closed
  gone : s.deleted = true → s.self.status = .closed
  alive : ∀ access ∈ s.accesses, access = true

theorem Safe.sound {s : Proactor} (safe : s.Safe) : s.Sound where
  alive := safe.alive
  single := fun dir => (safe.ok dir).single
  lent := by
    intro flying
    have pending := (safe.ok .send).pending.mpr flying
    have live : s.deleted = false := by
      rw [← Bool.not_eq_true]
      intro deleted
      exact safe.over_ (by rw [safe.gone deleted]; decide) .send pending
    exact ⟨(safe.holds live).held (.inl pending),safe.lent live (.inl pending)⟩
  ends := by
    intro left dir
    have closed : s.self.status = .closed := by
      rcases left with deleted | close
      · exact safe.gone deleted
      · exact safe.closed close
    exact (safe.ok dir).quiet (safe.over_ (by rw [closed]; decide) dir)
  defined := by
    intro live ret none_
    have ways := Win.sent (safe.holds live) ret
    rw [none_] at ways
    cases ways

/-- What safety is about. -/
def core (s : Proactor) :=
  (s.win._io_recv,s.win._io_send,s.self.status,s.self.msgSend,s.self.recvOver,s.self.sendOver,
    s.self.trace,s.deleted,s.lent,s.accesses)

theorem Safe.same {s s' : Proactor} (safe : s.Safe) (same : s'.core = s.core) : s'.Safe := by
  simp only [core,Prod.mk.injEq] at same
  obtain ⟨recv,send,status,msgSend,recvOver,sendOver,trace,deleted,lent,accesses⟩ := same
  have io (dir : Dir) : s'.win.io dir = s.win.io dir := by
    cases dir with
    | recv => exact recv
    | send => exact send
  constructor
  · intro dir
    rw [io]
    exact safe.ok dir
  · rw [deleted]
    intro live
    constructor
    · show s'.self.status = .running → _ → s'.self.msgSend = none
      rw [send,status,msgSend]
      exact (safe.holds live).free
    · show _ → s'.self.msgSend ≠ none
      rw [send,msgSend]
      exact (safe.holds live).held
  · rw [deleted,send,lent,msgSend]
    exact safe.lent
  · rw [recvOver,recv]
    exact safe.recvIdle
  · rw [sendOver,send]
    exact safe.sendIdle
  · intro late dir
    rw [status] at late
    rw [io]
    exact safe.over_ late dir
  · rw [trace,status]
    exact safe.closed
  · rw [deleted,status]
    exact safe.gone
  · rw [accesses]
    exact safe.alive

/-- A step of a session that runs need not look at what a closed one has. -/
theorem Safe.runs {s s' : Proactor} (safe : s.Safe) (running : s.self.status = .running)
    (ok : ∀ dir, (s'.win.io dir).Ok) (holds : s'.win.Holds)
    (lent : s'.win._io_send.io._status = .pending ∨ s'.win._io_send.io._status = .completed →
      s'.lent = s'.self.msgSend)
    (recvIdle : s'.self.recvOver = true → s'.win._io_recv.io._status = .idle)
    (sendIdle : s'.self.sendOver = true → s'.win._io_send.io._status = .idle)
    (early : s'.self.status = .running ∨ s'.self.status = .error)
    (close : .close ∈ s'.self.trace → .close ∈ s.self.trace)
    (deleted : s'.deleted = s.deleted) (accesses : s'.accesses = s.accesses) : s'.Safe := by
  have open_ : s.self.status ≠ .closed := by simp [running]
  refine ⟨ok,fun _ => holds,fun _ => lent,recvIdle,sendIdle,?_,?_,?_,?_⟩
  · intro late
    rcases early with same | same
    · simp [same,SockStatus.rank] at late
    · simp [same,SockStatus.rank] at late
  · intro here
    exact absurd (safe.closed (close here)) open_
  · rw [deleted]
    intro gone
    exact absurd (safe.gone gone) open_
  · rw [accesses]
    exact safe.alive

section
variable {s s' : Proactor}

theorem safe_send {data : Bytes} (safe : s.Safe) (stepped : s.step (.send data) = some s') :
    s'.Safe := by
  simp only [step] at stepped
  split at stepped
  next =>
    obtain ⟨c,ran,rfl⟩ := Option.map_eq_some_iff.mp stepped
    apply safe.same
    obtain ⟨que,same⟩ : ∃ que, c.self = {s.win.ctx.self with queSend := que} :=
      ⟨_,(Ctx.send_self ran).1⟩
    simp only [core,self,Win.self,same]
  next => cases stepped

theorem safe_disconnect (safe : s.Safe) (stepped : s.step .disconnect = some s') : s'.Safe := by
  simp only [step] at stepped
  split at stepped
  next =>
    cases stepped
    apply safe.same
    simp only [core,self,Win.self,Win.put,Session.disconnect_eq]
  next => cases stepped

theorem safe_disposeRecv {now : Nat} {ret : Option Nat} (safe : s.Safe)
    (stepped : s.step (.disposeRecv now ret) = some s') : s'.Safe := by
  simp only [step] at stepped
  split at stepped
  next live =>
    obtain ⟨w,ran,rfl⟩ := Option.map_eq_some_iff.mp stepped
    have ways := Win.disposed (safe.ok .recv) now ret
    rw [ran] at ways
    have sendOk := safe.ok .send
    have holds := safe.holds live.2
    have lent := safe.lent live.2
    cases ways with
    | keeps => exact safe.same rfl
    | fails running completed =>
      have recvOk := Overlapped.idle_ok (safe.ok .recv) completed
      refine safe.runs running (fun dir => ?_) ⟨?_,holds.held⟩ lent (fun _ => rfl)
        safe.sendIdle (.inr rfl) ?_ rfl rfl
      · cases dir with
        | recv => exact recvOk
        | send => exact sendOk
      · intro running'
        cases running'
      · simp [self,Win.self,Win.put,Session.setSocketStatus]
    | ends running completed =>
      have recvOk := Overlapped.idle_ok (safe.ok .recv) completed
      rw [Session.disconnect_eq]
      refine safe.runs running (fun dir => ?_) ⟨holds.free,holds.held⟩ lent
        (fun _ => rfl) safe.sendIdle (.inl running) id rfl rfl
      cases dir with
      | recv => exact recvOk
      | send => exact sendOk
    | @reads running completed open_ c handed w' posted =>
      have same := Ctx.onRecv_besides handed
      have recvOver : c.self.recvOver = s.self.recvOver := congrArg (·.recvOver) same
      have mid : ({s with win := {s.win with ctx := c}} : Proactor).Safe := by
        apply safe.same
        simp only [core,self,Win.self,recvOver]
        rw [show c.self.status = _ from congrArg (·.status) same,
          show c.self.msgSend = _ from congrArg (·.msgSend) same,
          show c.self.sendOver = _ from congrArg (·.sendOver) same,
          show c.self.trace = _ from congrArg (·.trace) same]
        rfl
      have holds := mid.holds live.2
      have running' : c.self.status = .running := (congrArg (·.status) same).trans running
      have over_ : c.self.recvOver ≠ true := by simp [recvOver,self,open_]
      have startOk := Overlapped.start_ok (Overlapped.idle_ok (safe.ok .recv) completed) rfl ret
      cases posted with
      | posts =>
        refine mid.runs running' (fun dir => ?_) ⟨holds.free,holds.held⟩ (mid.lent live.2)
          (fun ended => absurd ended over_) mid.sendIdle (.inl running') id rfl rfl
        cases dir with
        | recv => exact startOk
        | send => exact sendOk
      | fails err =>
        refine mid.runs running' (fun dir => ?_) ⟨?_,holds.held⟩ (mid.lent live.2)
          (fun ended => absurd ended over_) mid.sendIdle (.inr rfl) ?_ rfl rfl
        · cases dir with
          | recv => exact startOk
          | send => exact sendOk
        · intro running'
          cases running'
        · simp [self,Win.self,Win.put,Session.setSocketStatus]
  next => cases stepped

theorem safe_disposeSend {ret : Option Nat} (safe : s.Safe)
    (stepped : s.step (.disposeSend ret) = some s') : s'.Safe := by
  simp only [step] at stepped
  split at stepped
  next live =>
    obtain ⟨w,ran,rfl⟩ := Option.map_eq_some_iff.mp stepped
    have holds := safe.holds live.2
    have ways := Win.sent holds ret
    rw [ran] at ways
    have recvOk := safe.ok .recv
    cases ways with
    | keeps =>
      apply safe.same
      simp only [core,if_true]
      rfl
    | shuts running idle open_ none_ empty disconnect =>
      exact safe.runs running safe.ok ⟨holds.free,holds.held⟩
        (fun flying => (if_pos rfl).trans (safe.lent live.2 flying)) safe.recvIdle (fun _ => idle)
        (.inl running) (by simp [self,Win.self,Win.put,Session.call]) rfl rfl
    | @posts running idle open_ none_ m rest front failed =>
      have sendOk := Overlapped.start_ok (safe.ok .send) idle none
      have quiet := (safe.ok .send).quiet (by simp [Win.io,idle])
      have flies : ¬Flight.kernel = s.win._io_send.flight := by
        intro same
        rw [show s.win._io_send.flight = .none from quiet] at same
        cases same
      refine safe.runs running (fun dir => ?_) ⟨fun _ started => ?_,fun _ => ?_⟩
        (fun _ => if_neg flies) safe.recvIdle (fun ended => ?_) (.inl running) ?_ rfl rfl
      · cases dir with
        | recv => exact recvOk
        | send => exact sendOk
      · cases started
      · exact Option.some_ne_none m
      · exact absurd (open_.symm.trans ended) (by decide)
      · simp [self,Win.self,Win.put,Win.takeSend,Session.call]
    | @refused running idle open_ none_ m rest front err failed =>
      have sendOk := Overlapped.start_ok (safe.ok .send) idle (some err)
      refine safe.runs running (fun dir => ?_) ⟨fun running' => ?_,fun flying => ?_⟩
        (fun flying => ?_) safe.recvIdle (fun ended => ?_) (.inr rfl) ?_ rfl rfl
      · cases dir with
        | recv => exact recvOk
        | send => exact sendOk
      · cases running'
      · rcases flying with flying | flying
        · cases flying
        · cases flying
      · rcases flying with flying | flying
        · cases flying
        · cases flying
      · exact absurd (open_.symm.trans ended) (by decide)
      · simp [self,Win.self,Win.put,Win.takeSend,Session.call,Session.setSocketStatus]
    | @frees running completed open_ m held =>
      have sendOk := Overlapped.idle_ok (safe.ok .send) completed
      refine safe.runs running (fun dir => ?_) ⟨fun _ _ => rfl,fun flying => ?_⟩
        (fun flying => ?_) safe.recvIdle (fun _ => rfl) (.inl running) id rfl rfl
      · cases dir with
        | recv => exact recvOk
        | send => exact sendOk
      · rcases flying with flying | flying
        · cases flying
        · cases flying
      · rcases flying with flying | flying
        · cases flying
        · cases flying
    | fails running completed =>
      have sendOk := Overlapped.idle_ok (safe.ok .send) completed
      refine safe.runs running (fun dir => ?_) ⟨fun running' => ?_,fun flying => ?_⟩
        (fun flying => ?_) safe.recvIdle (fun _ => rfl) (.inr rfl) ?_ rfl rfl
      · cases dir with
        | recv => exact recvOk
        | send => exact sendOk
      · cases running'
      · rcases flying with flying | flying
        · cases flying
        · cases flying
      · rcases flying with flying | flying
        · cases flying
        · cases flying
      · simp [self,Win.self,Win.put,Session.setSocketStatus]
  next => cases stepped

/-- Nothing is under way when the session goes on to close. -/
theorem Safe.closes {st : SockStatus} {cs : List Call} {socket : Int} (safe : s.Safe)
    (live : s.deleted = false) (quiet : ∀ dir, (s.win.io dir).io._status ≠ .pending)
    (late : st ≠ .running) (close : .close ∈ s.self.trace ++ cs → st = .closed) :
    ({s with
      win := s.win.put {s.self with status := st, trace := s.self.trace ++ cs, socket := socket}
      phase := .recv} : Proactor).Safe where
  ok := safe.ok
  holds := fun _ => ⟨fun running => absurd running late,(safe.holds live).held⟩
  lent := safe.lent
  recvIdle := safe.recvIdle
  sendIdle := safe.sendIdle
  over_ := fun _ => quiet
  closed := close
  gone := fun gone => absurd (gone.symm.trans live) (by decide)
  alive := safe.alive

theorem safe_switchStatus (safe : s.Safe) (stepped : s.step .switchStatus = some s') :
    s'.Safe := by
  simp only [step] at stepped
  split at stepped
  next live =>
    cases stepped
    have opened (open_ : s.self.status ≠ .closed) :
        .close ∈ s.self.trace ++ [.status .preclosed] → SockStatus.preclosed = .closed := by
      intro close
      refine absurd (safe.closed ?_) open_
      simpa using close
    unfold Win.switchStatus
    split
    next running =>
      split
      next over_ =>
        obtain ⟨recvOver,sendOver⟩ := Bool.and_eq_true_iff.mp over_
        refine safe.closes live.2 (fun dir => ?_) (by decide) (opened ?_)
        · cases dir with
          | recv => simp [Win.io,safe.recvIdle recvOver]
          | send => simp [Win.io,safe.sendIdle sendOver]
        · simp [self,running]
      next => exact safe.same rfl
    next error =>
      split
      next quiet =>
        refine safe.closes live.2 (fun dir => ?_) (by decide) (opened ?_)
        · cases dir with
          | recv => exact quiet.1
          | send => exact quiet.2
        · simp [self,error]
      next => exact safe.same rfl
    next preclosed =>
      have quiet := safe.over_ (by simp [self,preclosed,SockStatus.rank])
      rw [Win.close_eq]
      exact safe.closes live.2 quiet (by decide) fun _ => rfl
    next => exact safe.same rfl
  next => cases stepped

theorem safe_delete (safe : s.Safe) (stepped : s.step .delete = some s') : s'.Safe := by
  simp only [step] at stepped
  split at stepped
  next ready =>
    cases stepped
    have closed : s.self.status = .closed := by simpa [Session.Disposable] using ready.2.2
    have quiet := safe.over_ (by rw [closed]; decide)
    have same := Ctx.destroy_self s.win.ctx
    refine ⟨safe.ok,?_,?_,?_,?_,fun _ => quiet,fun _ => ?_,fun _ => ?_,safe.alive⟩
    · intro live
      cases live
    · intro live
      cases live
    · simp only [self,Win.self,same]
      exact safe.recvIdle
    · simp only [self,Win.self,same]
      exact safe.sendIdle
    · simp only [self,Win.self,same]
      exact closed
    · simp only [self,Win.self,same]
      exact closed
  next => cases stepped

theorem safe_poll {dir : Dir} {op : PollOp} (safe : s.Safe)
    (stepped : s.step (.poll dir op) = some s') : s'.Safe := by
  obtain ⟨o,went,rfl⟩ := Option.map_eq_some_iff.mp stepped
  obtain ⟨ok,pending,status⟩ := Overlapped.poll_ok (safe.ok dir) went
  have early : ¬ 3 ≤ s.self.status.rank := fun late => safe.over_ late dir pending
  have open_ : s.self.status ≠ .closed := by
    intro closed
    exact early (by rw [closed]; decide)
  have live : s.deleted = false := by
    rw [← Bool.not_eq_true]
    exact fun gone => open_ (safe.gone gone)
  have alive : ∀ access ∈ s.accesses ++ [!s.deleted], access = true := by
    intro access member
    rcases List.mem_append.mp member with old | new
    · exact safe.alive access old
    · rw [List.mem_singleton.mp new,live]
      rfl
  have held := (safe.holds live).held
  cases dir with
  | recv =>
    refine ⟨fun dir => ?_,fun live => ⟨(safe.holds live).free,held⟩,safe.lent,?_,safe.sendIdle,
      fun late => absurd late early,safe.closed,safe.gone,alive⟩
    · cases dir with
      | recv => exact ok
      | send => exact safe.ok .send
    · intro ended
      cases pending.symm.trans (safe.recvIdle ended)
  | send =>
    refine ⟨fun dir => ?_,fun _ => ⟨?_,fun _ => held (.inl pending)⟩,
      fun _ _ => safe.lent live (.inl pending),safe.recvIdle,?_,fun late => absurd late early,
      safe.closed,safe.gone,alive⟩
    · cases dir with
      | recv => exact safe.ok .recv
      | send => exact ok
    · intro _ idle
      rcases status with flying | completed
      · cases idle.symm.trans flying
      · cases idle.symm.trans completed
    · intro ended
      cases pending.symm.trans (safe.sendIdle ended)

theorem safe_step (s : Proactor) (op : WinOp) (s' : Proactor) (safe : s.Safe)
    (stepped : s.step op = some s') : s'.Safe := by
  cases op with
  | send data => exact safe_send safe stepped
  | disconnect => exact safe_disconnect safe stepped
  | disposeRecv now ret => exact safe_disposeRecv safe stepped
  | disposeSend ret => exact safe_disposeSend safe stepped
  | switchStatus => exact safe_switchStatus safe stepped
  | delete => exact safe_delete safe stepped
  | poll dir op => exact safe_poll safe stepped
  | others env =>
    cases stepped
    exact safe.same rfl

end

/-- The session that `Attach` calls `_post_recv` on. -/
def Opening.attaching (o : Opening) : Win :=
  (Win.new o.id o.header o.env).put
    ((Win.new o.id o.header o.env).self.attach o.socket o.key o.fresh)

theorem start_safe (o : Opening) : (start o).Safe := by
  have sendOk := Overlapped.new_ok .send 0
  have recvOk := Overlapped.new_ok .recv maxBufferSize
  have alive : ∀ access ∈ ([] : List Bool), access = true := by simp
  -- nothing is being sent, whatever `Attach` does
  have resting (w : Win) (send : w._io_send = .new .send 0) (msgSend : w.self.msgSend = none) :
      w.Holds := by
    refine ⟨fun _ _ => msgSend,fun flying => ?_⟩
    rw [send] at flying
    rcases flying with flying | flying
    · cases flying
    · cases flying
  unfold start Win.Attach
  split
  next =>
    refine ⟨fun dir => ?_,fun _ => resting _ rfl rfl,fun _ _ => rfl,fun over_ => ?_,fun _ => rfl,
      fun late => ?_,fun close => ?_,fun gone => ?_,alive⟩
    · cases dir with
      | recv => exact recvOk
      | send => exact sendOk
    · cases over_
    · simp [self,Win.self,Win.put,Win.new,Session.new,Session.resetHeader,SockStatus.rank] at late
    · cases close
    · cases gone
  next =>
    have ways := Win.posted (w := o.attaching) rfl o.ret
    have startOk := Overlapped.start_ok recvOk rfl o.ret
    unfold Opening.attaching at ways
    generalize Win._post_recv _ o.ret = w at ways ⊢
    generalize o.ret = ret at ways startOk
    cases ways with
    | posts =>
      refine ⟨fun dir => ?_,fun _ => resting _ rfl rfl,fun _ _ => rfl,fun over_ => ?_,fun _ => rfl,
        fun late => ?_,fun close => ?_,fun gone => ?_,alive⟩
      · cases dir with
        | recv => exact startOk
        | send => exact sendOk
      · cases over_
      · simp [self,Win.self,Win.put,Session.attach,Session.call,Session.setSocketStatus,
          SockStatus.rank] at late
      · simp [self,Win.self,Win.put,Win.new,Session.new,Session.resetHeader,Session.attach,
          Session.call,Session.setSocketStatus] at close
      · cases gone
    | fails err =>
      refine ⟨fun dir => ?_,fun _ => resting _ rfl rfl,fun _ _ => rfl,fun over_ => ?_,fun _ => rfl,
        fun late => ?_,fun close => ?_,fun gone => ?_,alive⟩
      · cases dir with
        | recv => exact startOk
        | send => exact sendOk
      · cases over_
      · simp [self,Win.self,Win.put,Session.setSocketStatus,SockStatus.rank] at late
      · simp [self,Win.self,Win.put,Win.new,Session.new,Session.resetHeader,Session.attach,
          Session.call,Session.setSocketStatus] at close
      · cases gone

/-- Over every order of steps of the logic thread, the kernel and the poller. -/
theorem proactor_sound (o : Opening) (ops : List WinOp) : Runs.Always step Sound (start o) ops :=
  Runs.always_of_pres Safe (fun _ safe => safe.sound) safe_step (start_safe o)

end Proactor

end Pworld.Net
