import Pworld.Net.Message

/-! The Linux session: framing on the receive side, batching and partial writes
on the send side, and the status machine that `Update` drives. The kernel is the
list of outcomes its calls return; a call whose outcomes do not reach its end,
or that the kernel cannot give, is `none`. -/
namespace Pworld.Net

inductive SockStatus where
  | none
  | running
  | error
  | preclosed
  | closed
  deriving DecidableEq,Repr

def SockStatus.rank : SockStatus → Nat
  | .none => 0
  | .running => 1
  | .error => 2
  | .preclosed => 3
  | .closed => 4

def epollIn : Nat := 0x001
def epollOut : Nat := 0x004
def epollErr : Nat := 0x008
def epollHup : Nat := 0x010
def epollRdHup : Nat := 0x2000
def epollOneShot : Nat := 0x40000000

def has (events bit : Nat) : Bool := events &&& bit != 0

inductive SendRet where
  | sent (n : Nat)
  | again
  | intr
  | err (errno : Nat)
  deriving DecidableEq,Repr

inductive RecvRet where
  | data (chunk : Bytes) (now : Nat)  -- the bytes, and the clock when they are handled
  | eof
  | again
  | intr
  | err (errno : Nat)
  | odd (errno : Nat)  -- a negative result other than -1
  deriving DecidableEq,Repr

inductive Call where
  | status (s : SockStatus)
  | send (offered : Bytes) (ret : SendRet)
  | shutdown
  | close
  | register (key : Option Nat) (events : Nat)
  | unregister (fd : Int)
  | onOpened
  | onClosed
  deriving DecidableEq,Repr

structure Session where
  id : Nat  -- `this`, as `_ptr` of a message stores it
  socket : Int
  status : SockStatus
  key : Option Nat
  msgHeader : Message
  msgRecv : Option Message
  queSend : List Message
  msgSend : Option Message
  sendLen : Nat
  sendError : Nat
  recvError : Nat
  otheError : Nat
  rdReady : Bool
  wrReady : Bool
  events : Nat
  disconnect : Bool
  sendOver : Bool
  recvOver : Bool
  inEpoll : Bool
  lastActiveT : Nat
  trace : List Call  -- not a field of the class: the calls made so far, oldest first
  deriving DecidableEq

/-- What all sessions of a process share: `INSTANCE(MessageQueue)` for packets
received, `INSTANCE_2(MessageQueue)` for buffers being sent, the next address
`new` returns, and the messages given to `delete`. -/
structure Env where
  recvQue : MessageQueue
  sendQue : MessageQueue
  next : Nat
  deleted : List Message
  deriving DecidableEq

-- the process before its first session
def Env.initial : Env := ⟨⟨[],[]⟩,⟨[],[]⟩,100,[]⟩

structure Ctx where
  self : Session
  env : Env
  deriving DecidableEq

namespace Session

-- the header has a capacity but no length before `Attach`
def new (id header now : Nat) : Session where
  id := id
  socket := -1
  status := .none
  key := none
  msgHeader := .newHeader header
  msgRecv := none
  queSend := []
  msgSend := none
  sendLen := 0
  sendError := 0
  recvError := 0
  otheError := 0
  rdReady := true
  wrReady := true
  events := 0
  disconnect := false
  sendOver := false
  recvOver := false
  inEpoll := false
  lastActiveT := now
  trace := []

def call (s : Session) (c : Call) : Session := {s with trace := s.trace ++ [c]}

def setSocketStatus (s : Session) (status : SockStatus) : Session :=
  {s with status := status, trace := s.trace ++ [.status status]}

def Active (s : Session) : Bool := s.status == .running
def Disposable (s : Session) : Bool := s.status == .closed

def Disconnect (s : Session) : Session :=
  if !s.disconnect then {s with disconnect := true} else s

def packetLen (s : Session) : Nat := Bytes.ofLe (s.msgHeader.data.take 4)

def resetHeader (s : Session) : Session :=
  {s with msgHeader := s.msgHeader.reset 4 (by decide)}

def attach (s : Session) (socket : Int) (key : Option Nat) (fresh : Nat) : Session :=
  (({(s.resetHeader) with
    socket := socket
    key := some (key.getD fresh)}).setSocketStatus .running).call .onOpened

def sessionCb (s : Session) (events : Nat) : Session :=
  {s with events := events, inEpoll := false}

end Session

namespace Ctx

def applyRecv (c : Ctx) : Message × Ctx :=
  let r := c.env.recvQue.applyMessage c.env.next
  (r.1,{c with env := {c.env with
    recvQue := r.2.1
    next := if r.2.2 then c.env.next+1 else c.env.next}})

def applySend (c : Ctx) : Message × Ctx :=
  let r := c.env.sendQue.applyMessage c.env.next
  (r.1,{c with env := {c.env with
    sendQue := r.2.1
    next := if r.2.2 then c.env.next+1 else c.env.next}})

-- `if (_que_send.empty() || _que_send.back()->Full())`
def openBack (c : Ctx) : Ctx :=
  if (c.self.queSend.getLast?).all (fun m => m.full) then
    let r := c.applySend
    {r.2 with self := {r.2.self with
      queSend := r.2.self.queSend ++ [r.1.reset maxBufferSize (by decide)]}}
  else c

def _sendBody : Ctx × Bytes → Option ((Ctx × Bytes) ⊕ Ctx)
  | (c,data) =>
    if data.isEmpty then some (.inr c)
    else
      let c := c.openBack
      match c.self.queSend.getLast? with
      | none => none
      | some writer =>
        let r := writer.fill data
        some (.inl ({c with self := {c.self with
          queSend := c.self.queSend.dropLast ++ [r.1]}},r.2))

def _send (c : Ctx) (data : Bytes) : Option Ctx :=
  Loop.iterate _sendBody (data.length+1) (c,data)

def send (c : Ctx) (data : Bytes) : Option Ctx :=
  if !c.self.Active then some c
  else
    match c._send (Bytes.le 4 data.length) with
    | none => none
    | some c => c._send data

/-- `if (!_msg_recv)`: the header's length is checked once the header is full;
nothing when it is rejected. -/
def beginRecv (c : Ctx) : Option (Message × Ctx) :=
  match c.self.msgRecv with
  | some m => some (m,c)
  | none =>
    if reject : c.self.packetLen > maxPacketSize ∨ c.self.packetLen < 2 then none
    else some (c.applyRecv.1.reset c.self.packetLen (by omega),c.applyRecv.2)

def pushRecv (c : Ctx) (m : Message) (now : Nat) : Ctx :=
  {self := {(c.self.resetHeader) with msgRecv := none, lastActiveT := now}
   env := {c.env with recvQue := c.env.recvQue.pushMessage (m.own c.self.id)}}

def onRecvBody (now : Nat) : Ctx × Bytes → Option ((Ctx × Bytes) ⊕ Ctx)
  | (c,data) =>
    match c.self.msgHeader.fillWhile data with
    | none => none
    | some (header,data) =>
      let c := {c with self := {c.self with msgHeader := header}}
      if !header.full then some (.inr c)
      else
        match c.beginRecv with
        | none => some (.inr {c with self := c.self.Disconnect})
        | some (m,c) =>
          match m.fillWhile data with
          | none => none
          | some (m,data) =>
            let c := if m.full then c.pushRecv m now
              else {c with self := {c.self with msgRecv := some m}}
            some (if data.isEmpty then .inr c else .inl (c,data))

def onRecv (c : Ctx) (data : Bytes) (now : Nat) : Option Ctx :=
  Loop.iterate (onRecvBody now) (data.length+1) (c,data)

-- `if (!_msg_send)`: the message to go on with, or a return
def fetchSend (c : Ctx) : Option Message × Ctx :=
  match c.self.msgSend with
  | some m => (some m,c)
  | none =>
    match c.self.queSend with
    | [] => (none,c)
    | m::rest =>
      if m.currLen = 0 then (none,{c with self := {c.self with msgSend := none, sendLen := 0}})
      else (some m,{c with self := {c.self with
        msgSend := some m, sendLen := 0, queSend := rest}})

def freeSend (c : Ctx) (m : Message) : Ctx :=
  {self := {c.self with msgSend := none, sendLen := 0}
   env := {c.env with sendQue := c.env.sendQue.freeMessage m}}

/-- One outcome of `::send` on the current message; `inr` returns from `_post_send`. -/
def sendRound (c : Ctx) (m : Message) (ret : SendRet) : Option (Ctx ⊕ Ctx) :=
  let data := m.bytes.drop c.self.sendLen
  let c := {c with self := c.self.call (.send data ret)}
  match ret with
  | .again => some (.inr {c with self := {c.self with wrReady := false}})
  | .intr => some (.inl c)
  | .err errno => some (.inr {c with self :=
      ({c.self with sendError := errno}).setSocketStatus .error})
  | .sent n =>
    if n = data.length then some (.inl (c.freeSend m))
    else if n < data.length then
      some (.inr {c with self := {c.self with sendLen := c.self.sendLen + n}})
    else none

def postSendLoop : List SendRet → Ctx → Option Ctx
  | [],c =>
    match c.fetchSend with
    | (none,c) => some c
    | (some _,_) => none
  | ret::rets,c =>
    match c.fetchSend with
    | (none,c) => some c
    | (some m,c) =>
      match c.sendRound m ret with
      | none => none
      | some (.inl c) => postSendLoop rets c
      | some (.inr c) => some c

def postSend (c : Ctx) (rets : List SendRet) : Option Ctx :=
  if c.self.msgSend.isNone && c.self.queSend.isEmpty then
    if c.self.disconnect && !c.self.sendOver then
      some {c with self := ({c.self with sendOver := true}).call .shutdown}
    else some c
  else if c.self.sendOver || c.self.status != .running || !c.self.wrReady then some c
  else postSendLoop rets c

/-- One outcome of `recv`, which gives between one byte and the whole buffer;
`inr` returns from `_post_recv`. -/
def recvRound (c : Ctx) : RecvRet → Option (Ctx ⊕ Ctx)
  | .data chunk now =>
    if chunk.length = 0 ∨ chunk.length > maxBufferSize then none
    else
      match c.onRecv chunk now with
      | none => none
      | some c => if chunk.length = maxBufferSize then some (.inl c) else some (.inr c)
  | .again => some (.inr {c with self := {c.self with rdReady := false}})
  | .intr => some (.inl c)
  | .err errno => some (.inr {c with self :=
      ({c.self with recvError := errno}).setSocketStatus .error})
  | .eof => some (.inr {c with self := ({c.self with recvOver := true}).Disconnect})
  | .odd errno => some (.inr {c with self := {c.self with recvError := errno}})

def postRecvLoop : List RecvRet → Ctx → Option Ctx
  | [],_ => none
  | ret::rets,c =>
    match c.recvRound ret with
    | none => none
    | some (.inl c) => postRecvLoop rets c
    | some (.inr c) => some c

def postRecv (c : Ctx) (rets : List RecvRet) : Option Ctx :=
  if c.self.recvOver || c.self.status != .running || !c.self.rdReady then some c
  else postRecvLoop rets c

end Ctx

namespace Session

-- the event block of `Update`; true is `should_close`
def takeEvents (s : Session) (sockErr : Nat) : Bool × Session :=
  if s.events = 0 then (false,s)
  else
    (has s.events epollErr || has s.events epollHup || has s.events epollRdHup,
      {s with
        otheError := if has s.events epollErr then sockErr else s.otheError
        rdReady := s.rdReady || has s.events epollHup || has s.events epollIn
        wrReady := s.wrReady || has s.events epollOut
        events := 0})

def closeSocket (s : Session) : Session :=
  if s.socket ≠ -1 then {s with socket := -1, trace := s.trace ++ [.close]} else s

def checkActivity (s : Session) (now again : Nat) : Session :=
  if u64 (now + 2^64 - u64 s.lastActiveT) > 60 then {s.Disconnect with lastActiveT := again}
  else s

def switchStatus (s : Session) (now again : Nat) : Session :=
  match s.status with
  | .running =>
    (if s.sendOver && s.recvOver then s.setSocketStatus .preclosed else s).checkActivity now again
  | .error => s.setSocketStatus .preclosed
  | .preclosed =>
    let s := (s.call .onClosed).closeSocket
    (s.call (.unregister s.socket)).setSocketStatus .closed
  | _ => s

def registerHandler (s : Session) : Session :=
  if !s.inEpoll && s.status == .running then
    {s.call (.register s.key (epollRdHup ||| epollOneShot ||| epollIn ||| epollOut)) with
      inEpoll := true}
  else s

end Session

/-- What one `Update` meets: whether the mutex was free, the socket's error, the
outcomes of `recv` and `send`, and the clock where it is read. -/
structure UpdateIn where
  locked : Bool
  sockErr : Nat
  recvs : List RecvRet
  sends : List SendRet
  now : Nat
  again : Nat
  deriving DecidableEq,Repr

namespace Ctx

def update (c : Ctx) (i : UpdateIn) : Option Ctx :=
  if !i.locked then some c
  else
    let r := c.self.takeEvents i.sockErr
    match ({c with self := r.2}).postRecv i.recvs with
    | none => none
    | some c =>
      match c.postSend i.sends with
      | none => none
      | some c =>
        let s := if r.1 then c.self.setSocketStatus .error else c.self
        some {c with self := (s.switchStatus i.now i.again).registerHandler}

/-- `~Session`. The messages still queued for sending are not touched. -/
def destroy (c : Ctx) : Ctx :=
  let env := match c.self.msgRecv with
    | none => c.env
    | some m => {c.env with deleted := c.env.deleted ++ [m]}
  let env := match c.self.msgSend with
    | none => env
    | some m => {env with sendQue := env.sendQue.freeMessage m}
  {self := {c.self with msgRecv := none, msgSend := none, key := none}.closeSocket, env := env}

end Ctx

end Pworld.Net
