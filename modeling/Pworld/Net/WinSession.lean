import Pworld.Net.Overlapped
import Pworld.Net.Flush

/-! The Windows session. It has one read and one write under way at most. What `session.cpp` has
for both platforms is `Ctx`, of whose fields those that only the Linux class has are not used. -/
namespace Pworld.Net

structure Win where
  ctx : Ctx
  _io_recv : Overlapped
  _io_send : Overlapped
  deriving DecidableEq

/-- What `_on_recv` leaves alone. -/
def Session.besides (s : Session) : Session :=
  {s with msgHeader := .newHeader 0, msgRecv := none, disconnect := false, lastActiveT := 0}

theorem Session.disconnect_eq (s : Session) : s.Disconnect = {s with disconnect := true} := by
  unfold Session.Disconnect
  split
  next => rfl
  next asked =>
    obtain ⟨⟩ := s
    simpa using asked

theorem Session.disconnect_besides (s : Session) : s.Disconnect.besides = s.besides := by
  rw [Session.disconnect_eq]
  rfl

theorem Ctx.onRecv_besides {c c' : Ctx} {data : Bytes} {now : Nat}
    (ran : c.onRecv data now = some c') : c'.self.besides = c.self.besides := by
  refine Ctx.onRecv_rule (P := fun d => d.self.besides = c.self.besides) ?_ rfl ran
  intro now d data o before again
  unfold onRecvBody at again
  simp only [Message.fillWhile_eq] at again
  split at again
  next =>
    cases again
    exact before
  next =>
    split at again
    next =>
      cases again
      exact (Session.disconnect_besides _).trans before
    next m e began =>
      have same : e.self.besides = c.self.besides := by
        rw [Ctx.beginRecv_self began]
        exact before
      have last : (if (m.fill (d.self.msgHeader.fill data).2).1.full = true then
          e.pushRecv (m.fill (d.self.msgHeader.fill data).2).1 now
          else {e with self := {e.self with
            msgRecv := some (m.fill (d.self.msgHeader.fill data).2).1}}).self.besides =
          c.self.besides := by
        split
        · exact same
        · exact same
      cases again
      split
      · exact last
      · exact last

namespace Win

def self (w : Win) : Session := w.ctx.self

def put (w : Win) (s : Session) : Win := {w with ctx := {w.ctx with self := s}}

-- the constructor leaves `_last_active_t` at zero
def new (id header : Nat) (env : Env) : Win where
  ctx := ⟨.new id header 0,env⟩
  _io_recv := .new .recv maxBufferSize
  _io_send := .new .send 0

/-- `ret` is the error of `WSARecv`, or none where it has returned zero or `WSA_IO_PENDING`. -/
def _post_recv (w : Win) (ret : Option Nat) : Win :=
  if w._io_recv.io._status ≠ .idle then w
  else
    let w := {w with _io_recv := w._io_recv.start ret}
    match ret with
    | none => w
    | some err => w.put (({w.self with recvError := err}).setSocketStatus .error)

/-- `RegisterHandler` is only called where no key was handed in. -/
def Attach (w : Win) (socket : Int) (key : Option Nat) (fresh : Nat) (registered : Bool)
    (ret : Option Nat) : Win :=
  if key.isNone && !registered then
    w.put {w.self.resetHeader with socket := socket, key := some (key.getD fresh)}
  else (w.put (w.self.attach socket key fresh))._post_recv ret

def takeSend (s : Session) (m : Message) (rest : List Message) (ret : SendRet) : Session :=
  {s.call (.send m.bytes ret) with msgSend := some m, queSend := rest}

/-- `WSASend` takes the whole message, or fails with `ret`. -/
def _post_send (w : Win) (ret : Option Nat) : Option Win :=
  if w._io_send.io._status ≠ .idle then some w
  else if w.self.msgSend.isNone && w.self.queSend.isEmpty then
    if w.self.disconnect && !w.self.sendOver then
      some (w.put (({w.self with sendOver := true}).call .shutdown))
    else some w
  else
    match w.self.queSend with
    | [] => none  -- `front` of an empty queue
    | m::rest =>
      if m.currLen = 0 then some (w.put {w.self with msgSend := none})
      else
        let w' := {w with _io_send := w._io_send.start ret}
        match ret with
        | none => some (w'.put (takeSend w.self m rest (.sent m.bytes.length)))
        | some err => some (w'.put
            (({takeSend w.self m rest (.err err) with sendError := err}).setSocketStatus .error))

def _dispose_recv (w : Win) (now : Nat) (ret : Option Nat) : Option Win :=
  if w.self.status ≠ .running ∨ w.self.recvOver then some w
  else if w._io_recv.io._status = .completed then
    let io := w._io_recv.io
    let w := {w with _io_recv := w._io_recv.idle}
    if io._succ then
      if io._bytes ≠ 0 then
        match w.ctx.onRecv (io._data.take io._bytes) now with
        | none => none
        | some c => some ({w with ctx := c}._post_recv ret)
      else some (w.put ({w.self with recvOver := true}).Disconnect)
    else some (w.put (({w.self with recvError := io._err}).setSocketStatus .error))
  else some w

def _dispose_send (w : Win) (ret : Option Nat) : Option Win :=
  if w.self.status ≠ .running ∨ w.self.sendOver then some w
  else if w._io_send.io._status = .idle then w._post_send ret
  else if w._io_send.io._status = .completed then
    let io := w._io_send.io
    let w := {w with _io_send := w._io_send.idle}
    if io._succ then
      match w.self.msgSend with
      | none => none  -- the data of a null message
      | some m => some {w with ctx := {
          self := {w.self with msgSend := none}
          env := {w.ctx.env with sendQue := w.ctx.env.sendQue.freeMessage m}}}
    else some (w.put (({w.self with sendError := io._err}).setSocketStatus .error))
  else some w

def switchStatus (w : Win) : Win :=
  match w.self.status with
  | .running =>
    if w.self.recvOver && w.self.sendOver then w.put (w.self.setSocketStatus .preclosed) else w
  | .error =>
    if w._io_recv.io._status ≠ .pending ∧ w._io_send.io._status ≠ .pending then
      w.put (w.self.setSocketStatus .preclosed)
    else w
  | .preclosed => w.put ((w.self.call .onClosed).closeSocket.setSocketStatus .closed)
  | _ => w

/-- What one `Update` meets: the clock, and the errors of `WSARecv` and `WSASend`. -/
structure WinIn where
  now : Nat
  recv : Option Nat
  send : Option Nat
  deriving DecidableEq,Repr

def Update (w : Win) (i : WinIn) : Option Win :=
  match w._dispose_recv i.now i.recv with
  | none => none
  | some w =>
    match w._dispose_send i.send with
    | none => none
    | some w => some w.switchStatus

/-- The ways `_post_recv` can go. -/
inductive Posted (w : Win) : Option Nat → Win → Prop where
  | posts : Posted w none {w with _io_recv := w._io_recv.start none}
  | fails (err : Nat) : Posted w (some err) ({w with _io_recv := w._io_recv.start (some err)}.put
      (({w.self with recvError := err}).setSocketStatus .error))

theorem posted {w : Win} (idle : w._io_recv.io._status = .idle) (ret : Option Nat) :
    Posted w ret (w._post_recv ret) := by
  unfold _post_recv
  rw [if_neg (not_not.mpr idle)]
  cases ret with
  | none => exact .posts
  | some err => exact .fails err

/-- What `_dispose_recv` hands to `_on_recv`. -/
def reads (w : Win) : Bytes :=
  if w.self.status = .running ∧ w.self.recvOver = false ∧ w._io_recv.io._status = .completed then
    w._io_recv.undelivered
  else []

/-- The ways `_dispose_recv` can go. -/
inductive Disposed (w : Win) (now : Nat) (ret : Option Nat) : Option Win → Prop where
  | keeps (reads : w.reads = []) : Disposed w now ret (some w)
  | fails (running : w.self.status = .running) (completed : w._io_recv.io._status = .completed)
      (undelivered : w._io_recv.undelivered = []) :
      Disposed w now ret (some ({w with _io_recv := w._io_recv.idle}.put
        (({w.self with recvError := w._io_recv.io._err}).setSocketStatus .error)))
  | ends (running : w.self.status = .running) (completed : w._io_recv.io._status = .completed)
      (undelivered : w._io_recv.undelivered = []) :
      Disposed w now ret (some ({w with _io_recv := w._io_recv.idle}.put
        ({w.self with recvOver := true}).Disconnect))
  | reads (running : w.self.status = .running) (completed : w._io_recv.io._status = .completed)
      (open_ : w.self.recvOver = false) {c : Ctx}
      (ran : w.ctx.onRecv w._io_recv.undelivered now = some c) {w' : Win}
      (posted : Posted {w with ctx := c, _io_recv := w._io_recv.idle} ret w') :
      Disposed w now ret (some w')
  | stuck (ran : w.ctx.onRecv w._io_recv.undelivered now = none) : Disposed w now ret none

theorem disposed {w : Win} (ok : w._io_recv.Ok) (now : Nat) (ret : Option Nat) :
    Disposed w now ret (w._dispose_recv now ret) := by
  unfold _dispose_recv
  split
  next shut =>
    refine .keeps (if_neg ?_)
    rintro ⟨running,open_,_⟩
    rcases shut with off | over_
    · exact off running
    · cases open_.symm.trans over_
  next open_ =>
    obtain ⟨running,open_⟩ := not_or.mp open_
    have running := not_not.mp running
    split
    next completed =>
      have quiet := ok.quiet (by simp [completed])
      have undelivered : w._io_recv.undelivered =
          if w._io_recv.io._succ then w._io_recv.io._data.take w._io_recv.io._bytes else [] := by
        simp [Overlapped.undelivered,quiet,completed]
      dsimp only
      split
      next succ =>
        rw [if_pos succ] at undelivered
        split
        next =>
          rw [← undelivered]
          split
          next failed => exact .stuck failed
          next c ran => exact .reads running completed (by simpa using open_) ran (posted rfl ret)
        next empty =>
          have none_ : w._io_recv.io._bytes = 0 := not_not.mp empty
          exact .ends running completed (by rw [undelivered,none_,List.take_zero])
      next fails =>
        rw [if_neg fails] at undelivered
        exact .fails running completed undelivered
    next busy => exact .keeps (if_neg fun ready => busy ready.2.2)

/-- The ways `_dispose_send` can go. -/
inductive Sent (w : Win) (ret : Option Nat) : Option Win → Prop where
  | keeps : Sent w ret (some w)
  | shuts (running : w.self.status = .running) (idle : w._io_send.io._status = .idle)
      (open_ : w.self.sendOver = false) (none_ : w.self.msgSend = none)
      (empty : w.self.queSend = []) (disconnect : w.self.disconnect = true) :
      Sent w ret (some (w.put (({w.self with sendOver := true}).call .shutdown)))
  | posts (running : w.self.status = .running) (idle : w._io_send.io._status = .idle)
      (open_ : w.self.sendOver = false) (none_ : w.self.msgSend = none) {m : Message}
      {rest : List Message} (front : w.self.queSend = m::rest) (failed : ret = none) :
      Sent w ret (some ({w with _io_send := w._io_send.start none}.put
        (takeSend w.self m rest (.sent m.bytes.length))))
  | refused (running : w.self.status = .running) (idle : w._io_send.io._status = .idle)
      (open_ : w.self.sendOver = false) (none_ : w.self.msgSend = none) {m : Message}
      {rest : List Message} (front : w.self.queSend = m::rest) {err : Nat} (failed : ret = some err) :
      Sent w ret (some ({w with _io_send := w._io_send.start (some err)}.put
        (({takeSend w.self m rest (.err err) with sendError := err}).setSocketStatus .error)))
  | frees (running : w.self.status = .running) (completed : w._io_send.io._status = .completed)
      (open_ : w.self.sendOver = false) {m : Message} (held : w.self.msgSend = some m) :
      Sent w ret (some {w with
        _io_send := w._io_send.idle
        ctx := {
          self := {w.self with msgSend := none}
          env := {w.ctx.env with sendQue := w.ctx.env.sendQue.freeMessage m}}})
  | fails (running : w.self.status = .running) (completed : w._io_send.io._status = .completed) :
      Sent w ret (some ({w with _io_send := w._io_send.idle}.put
        (({w.self with sendError := w._io_send.io._err}).setSocketStatus .error)))

/-- Between two pieces of `Update` a session that runs holds the message it has handed to the
kernel, and no other. -/
structure Holds (w : Win) : Prop where
  free : w.self.status = .running → w._io_send.io._status = .idle → w.self.msgSend = none
  held : w._io_send.io._status = .pending ∨ w._io_send.io._status = .completed →
    w.self.msgSend ≠ none

theorem sent {w : Win} (holds : w.Holds) (ret : Option Nat) :
    Sent w ret (w._dispose_send ret) := by
  unfold _dispose_send
  split
  next => exact .keeps
  next open_ =>
    obtain ⟨running,open_⟩ := not_or.mp open_
    have running := not_not.mp running
    have open_ : w.self.sendOver = false := by simpa using open_
    split
    next idle =>
      have none_ := holds.free running idle
      unfold _post_send
      rw [if_neg (not_not.mpr idle)]
      split
      next empty =>
        have empty : w.self.queSend = [] := List.isEmpty_iff.mp (Bool.and_eq_true_iff.mp empty).2
        split
        next asked =>
          exact .shuts running idle open_ none_ empty (Bool.and_eq_true_iff.mp asked).1
        next => exact .keeps
      next waits =>
        split
        next empty => exact absurd (by rw [none_,empty]; rfl) waits
        next m rest front =>
          split
          next =>
            have same : w.put {w.self with msgSend := none} = w := by
              rw [← none_]
              rfl
            rw [same]
            exact .keeps
          next =>
            cases ret with
            | none => exact .posts running idle open_ none_ front rfl
            | some err => exact .refused running idle open_ none_ front rfl
    next =>
      split
      next completed =>
        dsimp only
        split
        next =>
          cases held : w.self.msgSend with
          | none => exact absurd held (holds.held (.inr completed))
          | some m =>
            have same : ({w with _io_send := w._io_send.idle} : Win).self.msgSend = some m := held
            rw [same]
            exact .frees running completed open_ held
        next => exact .fails running completed
      next => exact .keeps

/-- The call of `g_net_close_socket`, where the socket is still open. -/
def closeCalls (s : Session) : List Call := if s.socket ≠ -1 then [.close] else []

theorem closeCalls_sends (s : Session) : ∀ c ∈ closeCalls s, c.sends = false := by
  intro c member
  unfold closeCalls at member
  split at member
  · rw [List.mem_singleton.mp member]
    rfl
  · cases member

theorem close_eq (s : Session) : (s.call .onClosed).closeSocket.setSocketStatus .closed = {s with
    status := .closed
    trace := s.trace ++ ([.onClosed] ++ closeCalls s ++ [.status .closed])
    socket := -1} := by
  simp [Session.closeSocket_eq,Session.call,Session.setSocketStatus,closeCalls]

end Win

theorem Ctx.destroy_self (c : Ctx) : c.destroy.self = {c.self with
    msgRecv := none, msgSend := none, key := none, socket := -1
    trace := c.self.trace ++ Win.closeCalls c.self} := Session.closeSocket_eq _

end Pworld.Net
