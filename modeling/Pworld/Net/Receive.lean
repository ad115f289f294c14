import Pworld.Net.Session
import Pworld.Support.Framing

/-! The receive path against the wire format. A packet is a four byte
little-endian length and that many bytes; `_on_recv` keeps a half-read header and
a half-read packet between calls, and yet any way of cutting the stream gives the
packets of the stream read at once. -/
namespace Pworld.Net

open Framing

def wireLen (bs : Bytes) : Nat := Bytes.ofLe (bs.take 4)

/-- One packet off the front of the stream. -/
def wireCut (bs : Bytes) : Cut UInt8 Bytes :=
  if bs.length < 4 then .more
  else if wireLen bs > maxPacketSize ∨ wireLen bs < 2 then .bad
  else if bs.length < 4 + wireLen bs then .more
  else .frame ((bs.drop 4).take (wireLen bs)) (bs.drop (4 + wireLen bs))

theorem wireCut_frame {bs f rest : Bytes} (cut : wireCut bs = .frame f rest) :
    2 ≤ f.length ∧ f.length ≤ maxPacketSize ∧ bs = Bytes.le 4 f.length ++ f ++ rest := by
  unfold wireCut at cut
  split_ifs at cut with short bad part
  cases cut
  have size : (bs.take 4).length = 4 := by rw [List.length_take]; omega
  have head : Bytes.le 4 (wireLen bs) = bs.take 4 := by
    have same := Bytes.le_ofLe (bs.take 4)
    rwa [size] at same
  have length : ((bs.drop 4).take (wireLen bs)).length = wireLen bs := by
    rw [List.length_take,List.length_drop]
    omega
  refine ⟨by omega,by omega,?_⟩
  rw [length,head,List.append_assoc,← List.drop_drop,List.take_append_drop,List.take_append_drop]

theorem wireCut_packet {f : Bytes} (low : 2 ≤ f.length) (high : f.length ≤ maxPacketSize)
    (rest : Bytes) : wireCut (Bytes.le 4 f.length ++ f ++ rest) = .frame f rest := by
  have fits : f.length < 256^4 := by simp only [maxPacketSize] at high; omega
  have head : (Bytes.le 4 f.length ++ f ++ rest).take 4 = Bytes.le 4 f.length := by
    rw [List.append_assoc]
    exact List.take_left' (Bytes.le_length 4 _)
  have tail : (Bytes.le 4 f.length ++ f ++ rest).drop 4 = f ++ rest := by
    rw [List.append_assoc]
    exact List.drop_left' (Bytes.le_length 4 _)
  have size : (Bytes.le 4 f.length ++ f ++ rest).length = 4 + f.length + rest.length := by
    simp only [List.length_append,Bytes.le_length]
  have announced : wireLen (Bytes.le 4 f.length ++ f ++ rest) = f.length := by
    rw [wireLen,head,Bytes.ofLe_le_of_lt fits]
  unfold wireCut
  rw [announced,if_neg (by omega),if_neg (by omega),if_neg (by omega),← List.drop_drop,tail,
    List.take_left,List.drop_left]

theorem wireCut_frame_stable {xs f rest : Bytes} (ys : Bytes) (cut : wireCut xs = .frame f rest) :
    wireCut (xs ++ ys) = .frame f (rest ++ ys) := by
  obtain ⟨low,high,rfl⟩ := wireCut_frame cut
  rw [List.append_assoc]
  exact wireCut_packet low high _

theorem wireCut_bad_stable {xs : Bytes} (ys : Bytes) (cut : wireCut xs = .bad) :
    wireCut (xs ++ ys) = .bad := by
  unfold wireCut at cut
  split_ifs at cut with short bad
  have head : wireLen (xs ++ ys) = wireLen xs := by
    rw [wireLen,wireLen,List.take_append_of_le_length (by omega)]
  unfold wireCut
  rw [if_neg (by rw [List.length_append]; omega),head,if_pos bad]

def wire : Cutter UInt8 Bytes where
  cut := wireCut
  shorter := by
    intro xs f rest cut
    obtain ⟨low,_,same⟩ := wireCut_frame cut
    rw [same]
    simp only [List.length_append,Bytes.le_length]
    omega
  frame_stable := wireCut_frame_stable
  bad_stable := wireCut_bad_stable

theorem wire_cut : wire.cut = wireCut := rfl

namespace Session

def pending (s : Session) : Bytes :=
  s.msgHeader.bytes ++ (s.msgRecv.map Message.bytes).getD []

/-- Between two calls: the header is short, or it is full and announces the
packet whose buffer is not full. -/
structure Receiving (s : Session) : Prop where
  header : s.msgHeader.dataLen = 4
  waits : s.msgRecv = none → s.msgHeader.currLen < 4
  fills : ∀ m, s.msgRecv = some m → s.msgHeader.currLen = 4 ∧
    m.dataLen = Bytes.ofLe s.msgHeader.bytes ∧ 2 ≤ m.dataLen ∧ m.dataLen ≤ maxPacketSize ∧
    m.currLen < m.dataLen

structure Rejected (s : Session) : Prop where
  full : s.msgHeader.currLen = 4 ∧ s.msgHeader.dataLen = 4
  empty : s.msgRecv = none
  length : Bytes.ofLe s.msgHeader.bytes > maxPacketSize ∨ Bytes.ofLe s.msgHeader.bytes < 2
  disconnect : s.disconnect = true

def Left (s : Session) : Option Bytes → Prop
  | some rest => s.Receiving ∧ s.pending = rest
  | none => s.Rejected

end Session

namespace Ctx

theorem applyRecv_self (c : Ctx) : c.applyRecv.2.self = c.self := rfl

theorem applyRecv_waiting (c : Ctx) :
    c.applyRecv.2.env.recvQue.waiting = c.env.recvQue.waiting :=
  MessageQueue.applyMessage_waiting _ _

theorem packetLen_eq {s : Session} (full : s.msgHeader.currLen = 4) :
    s.packetLen = Bytes.ofLe s.msgHeader.bytes := by
  rw [Session.packetLen,Message.bytes,full]

theorem beginRecv_cases (c : Ctx) (full : c.self.msgHeader.currLen = 4)
    (fills : ∀ m, c.self.msgRecv = some m → m.dataLen = Bytes.ofLe c.self.msgHeader.bytes ∧
      2 ≤ m.dataLen ∧ m.dataLen ≤ maxPacketSize ∧ m.currLen < m.dataLen) :
    (c.beginRecv = none ∧ c.self.msgRecv = none ∧
      (Bytes.ofLe c.self.msgHeader.bytes > maxPacketSize ∨
        Bytes.ofLe c.self.msgHeader.bytes < 2)) ∨
    ∃ m c', c.beginRecv = some (m,c') ∧ c'.self = c.self ∧
      c'.env.recvQue.waiting = c.env.recvQue.waiting ∧
      m.bytes = (c.self.msgRecv.map Message.bytes).getD [] ∧
      m.dataLen = Bytes.ofLe c.self.msgHeader.bytes ∧ 2 ≤ m.dataLen ∧
      m.dataLen ≤ maxPacketSize ∧ m.currLen < m.dataLen := by
  rw [← packetLen_eq full] at *
  unfold beginRecv
  cases stored : c.self.msgRecv with
  | some m => exact .inr ⟨m,c,rfl,rfl,rfl,rfl,fills m stored⟩
  | none =>
    simp only
    split
    next reject => exact .inl ⟨rfl,trivial,reject⟩
    next accept =>
      refine .inr ⟨_,_,rfl,applyRecv_self c,applyRecv_waiting c,by simp,?_⟩
      simp only [Message.reset_dataLen,Message.reset_currLen]
      exact ⟨trivial,by omega,by omega,by omega⟩

/-- Filling the header moves bytes of the stream, it loses none. -/
theorem header_stream {s : Session} (receiving : s.Receiving) (data : Bytes) :
    {s with msgHeader := (s.msgHeader.fill data).1}.pending ++ (s.msgHeader.fill data).2 =
      s.pending ++ data := by
  simp only [Session.pending,Message.fill_bytes,Message.fill_rest,receiving.header]
  cases stored : s.msgRecv with
  | none => simp
  | some m =>
    have full := (receiving.fills m stored).1
    simp [full]

theorem header_length {m : Message} (full : m.currLen = 4) : m.bytes.length = 4 := by
  rw [Message.bytes_length,full]

theorem wireLen_header {m : Message} (full : m.currLen = 4) (tail : Bytes) :
    wireLen (m.bytes ++ tail) = Bytes.ofLe m.bytes := by
  rw [wireLen,List.take_left' (header_length full)]

/-- What a round that starts from `c` with `size` bytes does, by what the stream begins with. -/
inductive Round (c : Ctx) (size : Nat) (stream : Bytes) :
    Option ((Ctx × Bytes) ⊕ Ctx) → Prop where
  | waits {c' : Ctx} (cut : wireCut stream = .more) (receiving : c'.self.Receiving)
      (pending : c'.self.pending = stream) (disconnect : c'.self.disconnect = c.self.disconnect)
      (waiting : c'.env.recvQue.waiting = c.env.recvQue.waiting) :
      Round c size stream (some (.inr c'))
  | rejects {c' : Ctx} (cut : wireCut stream = .bad) (rejected : c'.self.Rejected)
      (waiting : c'.env.recvQue.waiting = c.env.recvQue.waiting) :
      Round c size stream (some (.inr c'))
  | pushes {c' : Ctx} {m : Message} {rest : Bytes} (cut : wireCut stream = .frame m.bytes rest)
      (receiving : c'.self.Receiving) (pending : c'.self.pending = [])
      (disconnect : c'.self.disconnect = c.self.disconnect) (id : c'.self.id = c.self.id)
      (waiting : c'.env.recvQue.waiting = c.env.recvQue.waiting ++ [m])
      (ptr : m.ptr = some c.self.id) (fewer : rest.length < size) :
      Round c size stream (some (if rest.isEmpty then .inr c' else .inl (c',rest)))

/-- Only the length and a few fields of where a round starts are looked at. -/
theorem Round.of_start {c d : Ctx} {size size' : Nat} {stream : Bytes}
    {o : Option ((Ctx × Bytes) ⊕ Ctx)} (round : Round d size stream o) (le : size ≤ size')
    (disconnect : d.self.disconnect = c.self.disconnect) (id : d.self.id = c.self.id)
    (waiting : d.env.recvQue.waiting = c.env.recvQue.waiting) : Round c size' stream o := by
  cases round with
  | waits cut receiving pending disconnect' waiting' =>
    exact .waits cut receiving pending (disconnect'.trans disconnect) (waiting'.trans waiting)
  | rejects cut rejected waiting' => exact .rejects cut rejected (waiting'.trans waiting)
  | pushes cut receiving pending disconnect' id' waiting' ptr fewer =>
    exact .pushes cut receiving pending (disconnect'.trans disconnect) (id'.trans id)
      (by rw [waiting',waiting]) (by rw [ptr,id]) (by omega)

/-- A header that stays short takes every byte. -/
theorem header_short {s : Session} (receiving : s.Receiving) {data : Bytes}
    (isShort : (s.msgHeader.fill data).1.full = false) :
    (s.msgHeader.fill data).2 = [] ∧
      ({s with msgHeader := (s.msgHeader.fill data).1} : Session).Receiving ∧
      wireCut (s.pending ++ data) = .more := by
  have dataLen : (s.msgHeader.fill data).1.dataLen = 4 := by
    rw [Message.fill_dataLen,receiving.header]
  have used : (s.msgHeader.fill data).2 = [] := by
    simpa [isShort] using s.msgHeader.fill_stops data
  have short : (s.msgHeader.fill data).1.currLen < 4 := by
    have pos := (s.msgHeader.fill data).1.ok.pos
    have notFull : (s.msgHeader.fill data).1.currLen ≠ (s.msgHeader.fill data).1.dataLen :=
      fun same => by simp [(Message.full_iff _).mpr same] at isShort
    omega
  have empty : s.msgRecv = none := by
    cases stored : s.msgRecv with
    | none => rfl
    | some m =>
      have full := (receiving.fills m stored).1
      rw [Message.fill_currLen] at short
      omega
  refine ⟨used,⟨dataLen,fun _ => short,fun m stored => ?_⟩,?_⟩
  · rw [empty] at stored
    cases stored
  · have stream := header_stream receiving data
    rw [used,List.append_nil] at stream
    rw [← stream,wireCut]
    simp only [Session.pending,empty,Option.map_none,Option.getD_none,List.append_nil,
      Message.bytes_length]
    rw [if_pos short]

/-- A header that is full, and a packet begun under it or not yet begun. -/
structure Headed (s : Session) : Prop where
  dataLen : s.msgHeader.dataLen = 4
  full : s.msgHeader.currLen = 4
  fills : ∀ m, s.msgRecv = some m → m.dataLen = Bytes.ofLe s.msgHeader.bytes ∧
    2 ≤ m.dataLen ∧ m.dataLen ≤ maxPacketSize ∧ m.currLen < m.dataLen

theorem header_full {s : Session} (receiving : s.Receiving) {data : Bytes}
    (isFull : (s.msgHeader.fill data).1.full = true) :
    Headed {s with msgHeader := (s.msgHeader.fill data).1} := by
  have dataLen : (s.msgHeader.fill data).1.dataLen = 4 := by
    rw [Message.fill_dataLen,receiving.header]
  refine ⟨dataLen,((Message.full_iff _).mp isFull).trans dataLen,fun m stored => ?_⟩
  obtain ⟨full,announced,bounds⟩ := receiving.fills m stored
  have kept : (s.msgHeader.fill data).1.bytes = s.msgHeader.bytes := by
    rw [Message.fill_bytes,receiving.header,full]
    simp
  exact ⟨by rw [kept,announced],bounds⟩

/-- The rest of a round whose header is full. -/
def packetRound (now : Nat) (c : Ctx) (data : Bytes) : Option ((Ctx × Bytes) ⊕ Ctx) :=
  match c.beginRecv with
  | none => some (.inr {c with self := c.self.Disconnect})
  | some (m,c) =>
    let c' := if (m.fill data).1.full then c.pushRecv (m.fill data).1 now
      else {c with self := {c.self with msgRecv := some (m.fill data).1}}
    some (if (m.fill data).2.isEmpty then .inr c' else .inl (c',(m.fill data).2))

theorem onRecvBody_eq (now : Nat) (c : Ctx) (data : Bytes) : onRecvBody now (c,data) =
    if (c.self.msgHeader.fill data).1.full then
      packetRound now {c with self := {c.self with msgHeader := (c.self.msgHeader.fill data).1}}
        (c.self.msgHeader.fill data).2
    else some (.inr {c with self := {c.self with
      msgHeader := (c.self.msgHeader.fill data).1}}) := by
  unfold onRecvBody packetRound
  simp only [Message.fillWhile_eq]
  cases (c.self.msgHeader.fill data).1.full <;> rfl

section
variable {c : Ctx} (headed : Headed c.self) {data : Bytes}
include headed

theorem packet_rejected (empty : c.self.msgRecv = none)
    (length : Bytes.ofLe c.self.msgHeader.bytes > maxPacketSize ∨
      Bytes.ofLe c.self.msgHeader.bytes < 2) :
    Round c data.length (c.self.pending ++ data)
      (some (.inr {c with self := c.self.Disconnect})) := by
  refine .rejects ?_ ?_ rfl
  · simp only [Session.pending,empty,Option.map_none,Option.getD_none,List.append_nil]
    unfold wireCut
    rw [wireLen_header headed.full,if_pos length,if_neg]
    rw [List.length_append,header_length headed.full]
    omega
  · obtain ⟨dataLen,full,_⟩ := headed
    constructor <;> unfold Session.Disconnect <;> split <;> simp_all

variable {m : Message} {c' : Ctx} (self : c'.self = c.self)
  (waiting : c'.env.recvQue.waiting = c.env.recvQue.waiting)
  (bytes : m.bytes = (c.self.msgRecv.map Message.bytes).getD [])
  (announced : m.dataLen = Bytes.ofLe c.self.msgHeader.bytes) (low : 2 ≤ m.dataLen)
  (high : m.dataLen ≤ maxPacketSize)
include self waiting bytes announced low high

theorem packet_short (isShort : (m.fill data).1.full = false) :
    (m.fill data).2 = [] ∧ Round c data.length (c.self.pending ++ data)
      (some (.inr {c' with self := {c'.self with msgRecv := some (m.fill data).1}})) := by
  have used : (m.fill data).2 = [] := by simpa [isShort] using m.fill_stops data
  have all : m.bytes ++ data = (m.fill data).1.bytes := by
    rw [Message.fill_rest] at used
    rw [Message.fill_bytes,List.take_of_length_le (List.drop_eq_nil_iff.mp used)]
  have short : (m.fill data).1.currLen < m.dataLen := by
    have pos := (m.fill data).1.ok.pos
    have notFull : (m.fill data).1.currLen ≠ (m.fill data).1.dataLen :=
      fun same => by simp [(Message.full_iff _).mpr same] at isShort
    rw [Message.fill_dataLen] at pos notFull
    omega
  have stream : c.self.pending ++ data = c.self.msgHeader.bytes ++ (m.fill data).1.bytes := by
    rw [Session.pending,← bytes,List.append_assoc,all]
  refine ⟨used,.waits ?_ ⟨?_,?_,?_⟩ ?_ (by rw [self]) waiting⟩
  · rw [stream,wireCut,wireLen_header headed.full,List.length_append,header_length headed.full,
      Message.bytes_length,if_neg (by omega),if_neg (by omega),if_pos (by omega)]
  · rw [self]
    exact headed.dataLen
  · intro none_
    cases none_
  · intro m' stored
    cases Option.some.inj stored
    simp only [self,Message.fill_dataLen]
    exact ⟨headed.full,announced,low,high,short⟩
  · rw [stream]
    simp only [Session.pending,self,Option.map_some,Option.getD_some]

theorem packet_full (room : m.currLen < m.dataLen) (isFull : (m.fill data).1.full = true)
    (now : Nat) : Round c data.length (c.self.pending ++ data)
      (some (if (m.fill data).2.isEmpty then .inr (c'.pushRecv (m.fill data).1 now)
        else .inl (c'.pushRecv (m.fill data).1 now,(m.fill data).2))) := by
  have taken := (Message.full_iff _).mp isFull
  have whole : (m.fill data).1.bytes.length = m.dataLen := by
    rw [Message.bytes_length,taken,Message.fill_dataLen]
  have head : c.self.msgHeader.bytes = Bytes.le 4 (m.fill data).1.bytes.length := by
    have same := Bytes.le_ofLe c.self.msgHeader.bytes
    rw [header_length headed.full] at same
    rw [whole,announced,same]
  have stream : c.self.pending ++ data = Bytes.le 4 (m.fill data).1.bytes.length ++
      (m.fill data).1.bytes ++ (m.fill data).2 := by
    rw [← head,Session.pending,← bytes,Message.fill_bytes,Message.fill_rest]
    simp only [List.append_assoc,List.take_append_drop]
  refine .pushes (m := (m.fill data).1.own c.self.id) ?_ ⟨?_,?_,?_⟩ ?_ ?_ ?_ ?_ rfl ?_
  · rw [stream]
    exact wireCut_packet (by omega) (by omega) _
  · simp [pushRecv,Session.resetHeader]
  · intro _
    simp [pushRecv,Session.resetHeader]
  · intro m' stored
    simp [pushRecv] at stored
  · simp [pushRecv,Session.resetHeader,Session.pending]
  · simp [pushRecv,Session.resetHeader,self]
  · simp [pushRecv,Session.resetHeader,self]
  · simp only [pushRecv,MessageQueue.pushMessage,waiting,self]
  · rw [Message.fill_currLen,Message.fill_dataLen] at taken
    rw [Message.fill_rest,List.length_drop]
    omega

end

theorem packetRound_round {c : Ctx} (headed : Headed c.self) (data : Bytes) (now : Nat) :
    Round c data.length (c.self.pending ++ data) (packetRound now c data) := by
  unfold packetRound
  rcases beginRecv_cases c headed.full headed.fills with
    ⟨began,empty,length⟩ | ⟨m,c',began,self,waiting,bytes,announced,low,high,room⟩
  · rw [began]
    exact packet_rejected headed empty length
  · rw [began]
    dsimp only
    cases isFull : (m.fill data).1.full with
    | false =>
      obtain ⟨used,round⟩ :=
        packet_short headed self waiting bytes announced low high isFull
      rw [used]
      exact round
    | true => exact packet_full headed self waiting bytes announced low high room isFull now

/-- What one round does, by what the stream now begins with. -/
theorem onRecvBody_round {c : Ctx} (receiving : c.self.Receiving) (data : Bytes) (now : Nat) :
    Round c data.length (c.self.pending ++ data) (onRecvBody now (c,data)) := by
  have stream := header_stream receiving data
  rw [onRecvBody_eq]
  cases isFull : (c.self.msgHeader.fill data).1.full with
  | false =>
    obtain ⟨used,receiving',cut⟩ := header_short receiving isFull
    rw [used,List.append_nil] at stream
    exact .waits cut receiving' stream rfl rfl
  | true =>
    have fewer : (c.self.msgHeader.fill data).2.length ≤ data.length := by
      rw [Message.fill_rest,List.length_drop]
      omega
    have round := packetRound_round
      (c := {c with self := {c.self with msgHeader := (c.self.msgHeader.fill data).1}})
      (header_full receiving isFull) (c.self.msgHeader.fill data).2 now
    rw [stream] at round
    exact round.of_start fewer rfl rfl rfl

/-- `c'` came from `c` by pushing `ms`. -/
structure Pushed (c c' : Ctx) (ms : List Message) : Prop where
  waiting : c'.env.recvQue.waiting = c.env.recvQue.waiting ++ ms
  owned : ∀ m ∈ ms, m.ptr = some c.self.id

theorem Pushed.step {c c' c'' : Ctx} {ms : List Message} {m : Message} (pushed : Pushed c c' ms)
    (waiting : c''.env.recvQue.waiting = c'.env.recvQue.waiting ++ [m])
    (ptr : m.ptr = some c.self.id) : Pushed c c'' (ms ++ [m]) := by
  refine ⟨by rw [waiting,pushed.waiting,List.append_assoc],fun n member => ?_⟩
  rcases List.mem_append.mp member with old | new
  · exact pushed.owned n old
  · rw [List.mem_singleton.mp new,ptr]

theorem Pushed.keep {c c' c'' : Ctx} {ms : List Message} (pushed : Pushed c c' ms)
    (waiting : c''.env.recvQue.waiting = c'.env.recvQue.waiting) : Pushed c c'' ms :=
  ⟨waiting.trans pushed.waiting,pushed.owned⟩

/-- Between two rounds of a call that started in `c`: what was pushed so far, and what
the rest of the stream will give, make up `whole`. -/
structure Midway (c : Ctx) (whole : Parsed UInt8 Bytes) (s : Ctx × Bytes) : Prop where
  receiving : s.1.self.Receiving
  disconnect : s.1.self.disconnect = c.self.disconnect
  id : s.1.self.id = c.self.id
  parsed : ∃ ms, Pushed c s.1 ms ∧
    whole = (ms.map Message.bytes ++ (parse wire (s.1.self.pending ++ s.2)).1,
      (parse wire (s.1.self.pending ++ s.2)).2)

/-- After the call. -/
structure Absorbed (c : Ctx) (whole : Parsed UInt8 Bytes) (c' : Ctx) : Prop where
  left : c'.self.Left whole.2
  pushed : ∃ ms, Pushed c c' ms ∧ ms.map Message.bytes = whole.1
  disconnect : whole.2 ≠ none → c'.self.disconnect = c.self.disconnect

theorem midway_round {c : Ctx} {whole : Parsed UInt8 Bytes} (now : Nat) (s : Ctx × Bytes)
    (midway : Midway c whole s) :
    (∃ s', onRecvBody now s = some (.inl s') ∧ Midway c whole s' ∧ s'.2.length < s.2.length) ∨
    ∃ r, onRecvBody now s = some (.inr r) ∧ Absorbed c whole r := by
  obtain ⟨c₁,d₁⟩ := s
  obtain ⟨receiving₁,disconnect₁,id₁,ms,pushed₁,parsed⟩ := midway
  have round := onRecvBody_round receiving₁ d₁ now
  dsimp only at disconnect₁ id₁ pushed₁ parsed
  generalize onRecvBody now (c₁,d₁) = o at round ⊢
  cases round with
  | @waits c₂ cut receiving pending disconnect waiting =>
    rw [parse_more (C := wire) cut] at parsed
    subst parsed
    exact .inr ⟨c₂,rfl,⟨receiving,pending⟩,⟨ms,pushed₁.keep waiting,(List.append_nil _).symm⟩,
      fun _ => disconnect.trans disconnect₁⟩
  | @rejects c₂ cut rejected waiting =>
    rw [parse_bad (C := wire) cut] at parsed
    subst parsed
    exact .inr ⟨c₂,rfl,rejected,⟨ms,pushed₁.keep waiting,(List.append_nil _).symm⟩,
      fun keep => absurd rfl keep⟩
  | @pushes c₂ m rest cut receiving pending disconnect id waiting ptr fewer =>
    rw [parse_frame (C := wire) cut] at parsed
    have pushed := pushed₁.step waiting (ptr.trans (congrArg some id₁))
    have bytes : ms.map Message.bytes ++ m.bytes :: (parse wire rest).1 =
        (ms ++ [m]).map Message.bytes ++ (parse wire rest).1 := by simp
    rw [bytes] at parsed
    cases rest with
    | nil =>
      have empty : parse wire [] = ([],some []) := parse_more rfl
      rw [empty] at parsed
      subst parsed
      exact .inr ⟨c₂,rfl,⟨receiving,pending⟩,⟨ms ++ [m],pushed,(List.append_nil _).symm⟩,
        fun _ => disconnect.trans disconnect₁⟩
    | cons b rest =>
      exact .inl ⟨(c₂,b::rest),rfl,⟨receiving,disconnect.trans disconnect₁,id.trans id₁,
        ms ++ [m],pushed,by rw [pending,List.nil_append]; exact parsed⟩,fewer⟩

/-- A rejected session rejects its bad header again. -/
theorem onRecv_rejected {c : Ctx} (rejected : c.self.Rejected) (data : Bytes) (now : Nat) :
    c.onRecv data now = some c := by
  obtain ⟨⟨full,dataLen⟩,empty,length,disconnect⟩ := rejected
  have isFull : c.self.msgHeader.full = true := by rw [Message.full_iff,full,dataLen]
  have began : c.beginRecv = none := by
    rw [← packetLen_eq full] at length
    simp only [beginRecv,empty,dif_pos length]
  have same : c.self.Disconnect = c.self := by simp [Session.Disconnect,disconnect]
  apply Loop.iterate_leave _
  simp only [onRecvBody,Message.fillWhile_eq,Message.fill_stop _ (.inl isFull),isFull,
    Bool.not_true,Bool.false_eq_true,if_false,began,same]

/-- One call absorbs its bytes as the wire format says. -/
theorem onRecv_absorb {c : Ctx} {before : Option Bytes} (left : c.self.Left before)
    (data : Bytes) (now : Nat) :
    ∃ c' ms, c.onRecv data now = some c' ∧ c'.self.Left (absorb wire before data).2 ∧
      c'.env.recvQue.waiting = c.env.recvQue.waiting ++ ms ∧
      ms.map Message.bytes = (absorb wire before data).1 ∧
      (∀ m ∈ ms, m.ptr = some c.self.id) ∧
      ((absorb wire before data).2 ≠ none → c'.self.disconnect = c.self.disconnect) := by
  cases before with
  | none =>
    exact ⟨c,[],onRecv_rejected left data now,left,(List.append_nil _).symm,rfl,
      fun _ member => (nomatch member),fun keep => absurd rfl keep⟩
  | some rest =>
    obtain ⟨receiving,rfl⟩ := left
    have start : Midway c (parse wire (c.self.pending ++ data)) (c,data) :=
      ⟨receiving,rfl,rfl,[],⟨(List.append_nil _).symm,fun _ member => (nomatch member)⟩,rfl⟩
    obtain ⟨c',ran,left,⟨ms,pushed,bytes⟩,keep⟩ := Loop.iterate_total (Midway c _) (Absorbed c _)
      (fun s => s.2.length) (midway_round now) start (Nat.lt_succ_self data.length)
    exact ⟨c',ms,ran,left,pushed.waiting,bytes,pushed.owned,keep⟩

def recvAll (c : Ctx) (chunks : List (Bytes × Nat)) : Option Ctx :=
  chunks.foldlM (fun c chunk => c.onRecv chunk.1 chunk.2) c

def stream (chunks : List (Bytes × Nat)) : Bytes := (chunks.map Prod.fst).flatten

theorem recvAll_absorb {c : Ctx} {before : Option Bytes} (left : c.self.Left before)
    (settled : Settled wire before) (chunks : List (Bytes × Nat)) :
    ∃ c' ms, c.recvAll chunks = some c' ∧
      c'.self.Left (absorb wire before (stream chunks)).2 ∧
      c'.env.recvQue.waiting = c.env.recvQue.waiting ++ ms ∧
      ms.map Message.bytes = (absorb wire before (stream chunks)).1 ∧
      ((absorb wire before (stream chunks)).2 ≠ none →
        c'.self.disconnect = c.self.disconnect) := by
  rw [stream,← absorbs_flatten settled]
  induction chunks generalizing c before with
  | nil => exact ⟨c,[],rfl,left,by simp,rfl,fun _ => rfl⟩
  | cons chunk chunks ih =>
    obtain ⟨c₁,ms₁,ran₁,left₁,waiting₁,bytes₁,_,keep₁⟩ := onRecv_absorb left chunk.1 chunk.2
    obtain ⟨c₂,ms₂,ran₂,left₂,waiting₂,bytes₂,keep₂⟩ := ih left₁ (absorb_settled before chunk.1)
    refine ⟨c₂,ms₁ ++ ms₂,?_,left₂,?_,?_,?_⟩
    · simp only [recvAll,List.foldlM_cons,ran₁]
      exact ran₂
    · rw [waiting₂,waiting₁,List.append_assoc]
    · simp only [List.map_cons,absorbs,List.map_append,bytes₁,bytes₂]
    · intro open_
      rw [keep₂ open_]
      apply keep₁
      intro rejected
      apply open_
      simp only [List.map_cons,absorbs,rejected]
      rw [absorbs_flatten (show Settled wire none from trivial)]
      rfl

section

variable {P : Ctx → Prop}
  (round : ∀ {now c data o}, P c → onRecvBody now (c,data) = some o → P (o.elim Prod.fst id))
include round

/-- What every round of `_on_recv` preserves, the whole call preserves. -/
theorem onRecv_rule {c c' : Ctx} {data : Bytes} {now : Nat} (inv : P c)
    (ran : c.onRecv data now = some c') : P c' := by
  apply Loop.iterate_partial (fun s => P s.1) P _ _ inv ran
  · intro s s' before again
    exact round before again
  · intro s d before left
    exact round before left

variable (disconnect : ∀ c, P c → P {c with self := c.self.Disconnect})
  (failed : ∀ c, P c → P {c with self := c.self.setSocketStatus .error})
  (marked : ∀ c ready over_ errno, P c → P {c with self := {c.self with
    rdReady := ready, recvOver := over_, recvError := errno}})
include disconnect failed marked

theorem recvRound_rule {c : Ctx} {ret : RecvRet} {o : Ctx ⊕ Ctx} (inv : P c)
    (stepped : c.recvRound ret = some o) : P (o.elim id id) := by
  cases ret with
  | data chunk now =>
    simp only [recvRound] at stepped
    split at stepped
    next => cases stepped
    next =>
      split at stepped
      next => cases stepped
      next d ran =>
        have whole := onRecv_rule round inv ran
        split at stepped
        · cases stepped
          exact whole
        · cases stepped
          exact whole
  | eof =>
    cases stepped
    exact disconnect _ (marked c c.self.rdReady true c.self.recvError inv)
  | intr =>
    cases stepped
    exact inv
  | again =>
    cases stepped
    exact marked c false c.self.recvOver c.self.recvError inv
  | err errno =>
    cases stepped
    exact failed _ (marked c c.self.rdReady c.self.recvOver errno inv)
  | odd errno =>
    cases stepped
    exact marked c c.self.rdReady c.self.recvOver errno inv

/-- What the rounds and the marks it leaves on the session preserve, `_post_recv` preserves. -/
theorem postRecv_rule {rets : List RecvRet} {c c' : Ctx} (inv : P c)
    (ran : c.postRecv rets = some c') : P c' := by
  unfold postRecv at ran
  split at ran
  next =>
    cases ran
    exact inv
  next go =>
    clear go
    induction rets generalizing c with
    | nil => cases ran
    | cons ret rets ih =>
      unfold postRecvLoop at ran
      split at ran
      next => cases ran
      next d stepped => exact ih (recvRound_rule round disconnect failed marked inv stepped) ran
      next d stepped =>
        cases ran
        exact recvRound_rule round disconnect failed marked inv stepped

end

/-- A session just attached, in a process whose queues are in any state. -/
def attached (id header now : Nat) (socket : Int) (key : Option Nat) (fresh : Nat)
    (env : Env) : Ctx :=
  ⟨(Session.new id header now).attach socket key fresh,env⟩

theorem attached_left (id header now : Nat) (socket : Int) (key : Option Nat) (fresh : Nat)
    (env : Env) : (attached id header now socket key fresh env).self.Left (some []) := by
  refine ⟨⟨rfl,fun _ => ?_,?_⟩,rfl⟩
  · exact Nat.zero_lt_succ _
  · intro m stored
    cases stored

/-- Two ways of cutting one stream, well formed or hostile: every call returns,
both push the packets of the reference parse, and both have disconnected exactly
when it rejects. After that no chunk pushes anything. -/
theorem recv_segmentation (id header now : Nat) (socket : Int) (key : Option Nat) (fresh : Nat)
    (env : Env) (chunks chunks' : List (Bytes × Nat)) (same : stream chunks = stream chunks') :
    ∃ c c' ms ms',
      (attached id header now socket key fresh env).recvAll chunks = some c ∧
      (attached id header now socket key fresh env).recvAll chunks' = some c' ∧
      c.env.recvQue.waiting = env.recvQue.waiting ++ ms ∧
      c'.env.recvQue.waiting = env.recvQue.waiting ++ ms' ∧
      ms.map Message.bytes = (parse wire (stream chunks)).1 ∧
      ms'.map Message.bytes = ms.map Message.bytes ∧
      c.self.disconnect = (parse wire (stream chunks)).2.isNone ∧
      c'.self.disconnect = c.self.disconnect ∧
      ((parse wire (stream chunks)).2 = none → ∀ more, ∃ d, c.recvAll more = some d ∧
        d.env.recvQue.waiting = c.env.recvQue.waiting ∧ d.self.disconnect = true) := by
  have start := attached_left id header now socket key fresh env
  have settled : Settled wire (some []) := rfl
  have flag {c' : Ctx} {st : Option Bytes} (left : c'.self.Left st)
      (keep : st ≠ none → c'.self.disconnect = false) : c'.self.disconnect = st.isNone := by
    cases st with
    | none => exact left.disconnect
    | some rest => exact keep (by simp)
  obtain ⟨c,ms,ran,left,waiting,bytes,keep⟩ := recvAll_absorb start settled chunks
  obtain ⟨c',ms',ran',left',waiting',bytes',keep'⟩ := recvAll_absorb start settled chunks'
  rw [← same] at left' bytes' keep'
  simp only [absorb,List.nil_append] at left left' bytes bytes' keep keep'
  refine ⟨c,c',ms,ms',ran,ran',waiting,waiting',bytes,bytes'.trans bytes.symm,flag left keep,
    (flag left' keep').trans (flag left keep).symm,?_⟩
  intro rejected more
  rw [rejected] at left
  obtain ⟨d,ms'',ran'',left'',waiting'',bytes'',_⟩ := recvAll_absorb left trivial more
  simp only [absorb,List.map_eq_nil_iff] at bytes''
  refine ⟨d,ran'',?_,left''.disconnect⟩
  rw [waiting'',bytes'',List.append_nil]

theorem recv_segmentation_split :
    ∃ c c' ms ms', (attached 1 2 3 4 none 5 .initial).recvAll [([2,0,0,0,7,8],5)] = some c ∧
      (attached 1 2 3 4 none 5 .initial).recvAll [([2,0],5),([0,0,7],6),([8],7)] = some c' ∧
      c.env.recvQue.waiting = Env.initial.recvQue.waiting ++ ms ∧
      c'.env.recvQue.waiting = Env.initial.recvQue.waiting ++ ms' ∧
      ms'.map Message.bytes = ms.map Message.bytes := by
  obtain ⟨c,c',ms,ms',ran,ran',waiting,waiting',_,same,_⟩ := recv_segmentation 1 2 3 4 none 5
    .initial [([2,0,0,0,7,8],5)] [([2,0],5),([0,0,7],6),([8],7)] rfl
  exact ⟨c,c',ms,ms',ran,ran',waiting,waiting',same⟩

end Ctx

end Pworld.Net
