import Pworld.Net.Link
import Pworld.Support.Prefixed

/-! The test client: it writes a packet, waits for the same packet to come back, and writes the
next one three seconds later. -/
namespace Pworld.Peer

open Net Framing

/-- What `make_packet` is made of: the random numbers, and the memory of `allocUnsafe`. -/
structure Draw where
  pid : Nat
  len : Nat
  buff : Bytes
  letters : Bytes  -- one for each round of the loop
  pid_range : 1 ≤ pid ∧ pid ≤ 4000
  len_range : 1 ≤ len ∧ len ≤ 100
  buff_length : buff.length = 4 + 2 + len
  rounds : letters.length = len - 6
  deriving DecidableEq

def make_packet (d : Draw) : Bytes :=
  let buff := Bytes.overwrite d.buff 0 (Bytes.le 4 (2 + d.len))
  let buff := Bytes.overwrite buff 4 (Bytes.le 2 d.pid)
  Bytes.overwrite buff 6 d.letters

/-- What `_packet` is set to. -/
def Draw.payload (d : Draw) : Bytes := ((make_packet d).drop 4).take (d.len + 2)

structure TestSession where
  recv_buffer : Option Bytes
  sending : Bool
  ending : Bool
  _packet : Option Bytes
  timers : Nat  -- `setTimeout`s that have not gone off
  finished : Bool  -- `end` was called on the socket
  rejected : Bool  -- with a text
  written : Bytes
  sent : List Bytes
  skipped : Bool  -- `SendPacket` has only written to the console
  events : Nat
  got : Bytes
  packets : List (Bytes × Bool)  -- and whether it was the one sent
  deriving DecidableEq

inductive ClientOp where
  | data (chunk : Bytes)
  | timeout (d : Draw) (ret : Bool)
  | drain
  | end_
  | error
  deriving DecidableEq

namespace TestSession

/-- What `write` returns is for the socket to say, and false where nothing can be written. -/
def SendPacket (s : TestSession) (d : Draw) (ret : Bool) : TestSession :=
  if s.ending then {s with skipped := true}
  else if s.sending then {s with skipped := true}
  else
    let packet := make_packet d
    let ret := ret && !s.finished
    {s with
      written := if s.finished then s.written else s.written ++ packet
      sending := !ret
      _packet := some d.payload
      sent := s.sent ++ [d.payload]}

def opened : TestSession :=
  ⟨none,false,false,none,0,false,false,[],[],false,0,[],[]⟩

/-- After the constructor. -/
def start (d : Draw) (ret : Bool) : TestSession := opened.SendPacket d ret

-- `c.end` with a text
def reject (s : TestSession) (text : String) : TestSession :=
  {s with
    finished := true
    rejected := true
    written := if s.finished then s.written else s.written ++ text.toUTF8.data.toList}

def onData (s : TestSession) (chunk : Bytes) : TestSession :=
  let data := match s.recv_buffer with
    | some before => before ++ chunk
    | none => chunk
  let s := {s with got := s.got ++ chunk, events := s.events + 1, recv_buffer := none}
  if data.length < 4 then {s with recv_buffer := some data}
  else
    let packet_size := Bytes.ofLe (data.take 4)
    if packet_size > 16 * 0x1000 then s.reject "超大的包11"
    else if packet_size < 2 then s.reject "超小的包22"
    else if data.length - 4 < packet_size then {s with recv_buffer := some data}
    else
      let packet := (data.drop 4).take packet_size
      if packet.length ≠ packet_size then s.reject "拷贝数据失败"
      else
        let rest := data.drop (packet_size + 4)
        let s := if data.length > packet_size + 4 then {s with recv_buffer := some rest} else s
        if data.length > packet_size + 4 ∧ rest.length ≠ data.length - (packet_size + 4) then
          s.reject "拷贝数据失败2"
        else if s._packet = some packet then
          {s with
            _packet := none
            timers := s.timers + 1
            packets := s.packets ++ [(packet,true)]}
        else {s with packets := s.packets ++ [(packet,false)]}

def step (s : TestSession) : ClientOp → Option TestSession
  | .data chunk => some (s.onData chunk)
  | .timeout d ret =>
    match s.timers with
    | 0 => none
    | n+1 => some ({s with timers := n}.SendPacket d ret)
  | .drain => some {s with sending := false}
  | .end_ => some {s with ending := true}
  | .error => some {s with finished := true}

/-- The client takes longer packets than the server. -/
def stream : Cutter UInt8 Bytes := Prefixed.cutter 2 (16 * 0x1000)

/-- What is kept for the next piece. -/
def kept (s : TestSession) : Bytes := s.recv_buffer.getD []

end TestSession

/-- A copy that begins where a known front ends. -/
theorem overwrite_behind (front rest bs : Bytes) :
    Bytes.overwrite (front ++ rest) front.length bs = front ++ (bs ++ rest.drop bs.length) := by
  rw [Bytes.overwrite,List.take_left,← List.drop_drop,List.drop_left,List.append_assoc]

theorem make_packet_eq (d : Draw) : make_packet d = Bytes.le 4 (2 + d.len) ++
    (Bytes.le 2 d.pid ++ (d.letters ++ d.buff.drop (6 + d.letters.length))) := by
  have size := overwrite_behind [] d.buff (Bytes.le 4 (2 + d.len))
  have opcode := overwrite_behind (Bytes.le 4 (2 + d.len)) (d.buff.drop 4) (Bytes.le 2 d.pid)
  have letters := overwrite_behind (Bytes.le 4 (2 + d.len) ++ Bytes.le 2 d.pid) (d.buff.drop 6)
    d.letters
  simp only [List.nil_append,List.length_nil,Bytes.le_length,List.drop_drop,List.length_append,
    Nat.reduceAdd] at size opcode letters
  unfold make_packet
  simp only [size,opcode]
  rw [← List.append_assoc,letters,List.append_assoc]

theorem payload_eq (d : Draw) :
    d.payload = Bytes.le 2 d.pid ++ (d.letters ++ d.buff.drop (6 + d.letters.length)) := by
  have length := d.buff_length
  have rounds := d.rounds
  rw [Draw.payload,make_packet_eq,List.drop_left' (Bytes.le_length 4 _),List.take_of_length_le]
  simp only [List.length_append,Bytes.le_length,List.length_drop]
  omega

theorem payload_length (d : Draw) : d.payload.length = 2 + d.len := by
  have length := d.buff_length
  have rounds := d.rounds
  have low := d.len_range.1
  rw [payload_eq]
  simp only [List.length_append,Bytes.le_length,List.length_drop]
  omega

theorem make_packet_packet (d : Draw) : make_packet d = Link.packet d.payload := by
  rw [Link.packet,payload_length,make_packet_eq,payload_eq]

theorem payload_fits (d : Draw) : Link.Fits d.payload := by
  have length := payload_length d
  have high := d.len_range.2
  rw [Link.Fits,maxPacketSize]
  omega

/-- The server answers it. -/
theorem payload_opcode (d : Draw) : Bytes.ofLe (d.payload.take 2) ≠ 0 := by
  have low := d.pid_range
  rw [payload_eq,List.take_left' (Bytes.le_length 2 _),Bytes.ofLe_le_of_lt (by omega)]
  omega

namespace TestSession

/-- What a piece does is decided by the first packet of the bytes that are there. -/
inductive Took (s : TestSession) (chunk : Bytes) : TestSession → Prop where
  | keeps (more : stream.cut (s.kept ++ chunk) = .more) :
    Took s chunk {s with
      recv_buffer := some (s.kept ++ chunk)
      got := s.got ++ chunk
      events := s.events + 1}
  | rejects (text : String) (bad : stream.cut (s.kept ++ chunk) = .bad) :
    Took s chunk ({s with
      recv_buffer := none
      got := s.got ++ chunk
      events := s.events + 1}.reject text)
  | same (p rest : Bytes) (buffer : Option Bytes)
      (framed : stream.cut (s.kept ++ chunk) = .frame p rest) (left : buffer.getD [] = rest)
      (same : s._packet = some p) :
    Took s chunk {s with
      recv_buffer := buffer
      got := s.got ++ chunk
      events := s.events + 1
      _packet := none
      timers := s.timers + 1
      packets := s.packets ++ [(p,true)]}
  | differs (p rest : Bytes) (buffer : Option Bytes)
      (framed : stream.cut (s.kept ++ chunk) = .frame p rest) (left : buffer.getD [] = rest)
      (other : s._packet ≠ some p) :
    Took s chunk {s with
      recv_buffer := buffer
      got := s.got ++ chunk
      events := s.events + 1
      packets := s.packets ++ [(p,false)]}

theorem onData_took (s : TestSession) (chunk : Bytes) : Took s chunk (s.onData chunk) := by
  have data : (match s.recv_buffer with
      | some before => before ++ chunk
      | none => chunk) = s.kept ++ chunk := by
    unfold kept
    cases s.recv_buffer <;> rfl
  unfold onData
  simp only [data]
  have cut : stream.cut (s.kept ++ chunk) =
    Prefixed.cut 2 (16 * 0x1000) (s.kept ++ chunk) := rfl
  unfold Prefixed.cut Prefixed.length at cut
  split
  next short =>
    rw [if_pos short] at cut
    exact .keeps cut
  next header =>
    rw [if_neg header] at cut
    split
    next large =>
      rw [if_pos (.inl large)] at cut
      exact .rejects _ cut
    next =>
      split
      next small =>
        rw [if_pos (.inr small)] at cut
        exact .rejects _ cut
      next =>
        rw [if_neg (by omega)] at cut
        split
        next part =>
          rw [if_pos (by omega)] at cut
          exact .keeps cut
        next there =>
          rw [if_neg (by omega),Nat.add_comm] at cut
          -- the copies are never short
          have whole : (((s.kept ++ chunk).drop 4).take
              (Bytes.ofLe ((s.kept ++ chunk).take 4))).length =
                Bytes.ofLe ((s.kept ++ chunk).take 4) := by
            rw [List.length_take,List.length_drop]
            omega
          rw [if_neg (not_not_intro whole),if_neg (fun more => more.2 List.length_drop)]
          generalize Bytes.ofLe ((s.kept ++ chunk).take 4) = packet_size at *
          split
          next more =>
            dsimp only
            split
            next same => exact .same _ _ _ cut rfl same
            next other => exact .differs _ _ _ cut rfl other
          next none_ =>
            have nothing : (s.kept ++ chunk).drop (packet_size + 4) = [] :=
              List.drop_of_length_le (by omega)
            rw [nothing] at cut
            dsimp only
            split
            next same => exact .same _ _ none cut rfl same
            next other => exact .differs _ _ none cut rfl other

/-- Until a packet is rejected, what the client has compared and what it keeps are the stream, and
it has compared no more packets than there were pieces. It waits for one packet at most. -/
structure Reads (s : TestSession) : Prop where
  stream : s.rejected = false →
    parse stream s.got = (s.packets.map Prod.fst ++ (parse stream s.kept).1,(parse stream s.kept).2)
  compared : s.packets.length ≤ s.events
  waits : s.timers + s._packet.toList.length ≤ 1

theorem send_reads {s : TestSession} (d : Draw) (ret : Bool) (reads : s.Reads)
    (timers : s.timers = 0) : (s.SendPacket d ret).Reads := by
  obtain ⟨whole,compared,waits⟩ := reads
  unfold SendPacket
  split
  next => exact ⟨whole,compared,waits⟩
  next =>
    split
    next => exact ⟨whole,compared,waits⟩
    next => exact ⟨whole,compared,by simp [timers]⟩

/-- A piece is parsed with what was kept. -/
theorem parse_piece {s : TestSession} (reads : s.Reads) (live : s.rejected = false)
    (chunk : Bytes) : parse TestSession.stream (s.got ++ chunk) =
      (s.packets.map Prod.fst ++ (parse TestSession.stream (s.kept ++ chunk)).1,
        (parse TestSession.stream (s.kept ++ chunk)).2) := by
  rw [parse_append,reads.stream live,parse_append s.kept,List.append_assoc]

theorem data_reads {s : TestSession} (chunk : Bytes) (reads : s.Reads) :
    (s.onData chunk).Reads := by
  have waits := reads.waits
  have compared := reads.compared
  have took := onData_took s chunk
  generalize s.onData chunk = s' at took ⊢
  cases took with
  | keeps more =>
    refine ⟨fun live => ?_,Nat.le_succ_of_le compared,waits⟩
    exact parse_piece reads live chunk
  | rejects text bad => exact ⟨nofun,Nat.le_succ_of_le compared,waits⟩
  | same p rest buffer framed left same =>
    refine ⟨fun live => ?_,?_,?_⟩
    · have whole := parse_piece reads live chunk
      rw [parse_frame framed,← left] at whole
      rw [whole,List.map_append,List.append_assoc]
      rfl
    · rw [List.length_append]
      exact Nat.succ_le_succ compared
    · rw [same] at waits
      exact waits
  | differs p rest buffer framed left other =>
    refine ⟨fun live => ?_,?_,waits⟩
    · have whole := parse_piece reads live chunk
      rw [parse_frame framed,← left] at whole
      rw [whole,List.map_append,List.append_assoc]
      rfl
    · rw [List.length_append]
      exact Nat.succ_le_succ compared

theorem step_reads (s : TestSession) (op : ClientOp) (s' : TestSession) (reads : s.Reads)
    (stepped : s.step op = some s') : s'.Reads := by
  cases op with
  | data chunk =>
    cases stepped
    exact data_reads chunk reads
  | timeout d ret =>
    simp only [step] at stepped
    split at stepped
    next => cases stepped
    next n pending =>
      cases stepped
      have waits := reads.waits
      rw [pending] at waits
      refine send_reads d ret ⟨reads.stream,reads.compared,?_⟩ ?_
      · exact Nat.le_trans (Nat.add_le_add_right (Nat.le_succ n) _) waits
      · show n = 0
        omega
  | drain =>
    cases stepped
    exact ⟨reads.stream,reads.compared,reads.waits⟩
  | end_ =>
    cases stepped
    exact ⟨reads.stream,reads.compared,reads.waits⟩
  | error =>
    cases stepped
    exact ⟨reads.stream,reads.compared,reads.waits⟩

theorem start_reads (d : Draw) (ret : Bool) : (start d ret).Reads := by
  refine send_reads d ret ⟨fun _ => ?_,Nat.le_refl _,Nat.zero_le _⟩ rfl
  show parse stream [] = ([] ++ (parse stream []).1,(parse stream []).2)
  rw [List.nil_append]

/-- Whatever the server sends, and however it arrives. -/
theorem client_reads (d : Draw) (ret : Bool) (ops : List ClientOp) :
    Runs.Always step Reads (start d ret) ops :=
  Runs.always_of_pres Reads (fun _ reads => reads) step_reads (start_reads d ret)

end TestSession

end Pworld.Peer
