import Pworld.Frame.Replies
import Pworld.Peer.TestSession

/-! The test client and the server: each packet of the client comes back before the next one is
written, whatever the other clients do. -/
namespace Pworld.Peer

open Net Framing Pworld.Frame

namespace TestSession

/-- What holds where nothing comes back but what was written. -/
structure Steady (s : TestSession) : Prop where
  accepts : s.rejected = false
  same : ∀ p ∈ s.packets, p.2 = true
  order : s.packets.map Prod.fst ++ s._packet.toList = s.sent
  reads : s.got = Link.encode (s.packets.map Prod.fst) ++ s.kept
  part : stream.cut s.kept = .more
  wrote : s.written <+: Link.encode s.sent
  open_ : s.finished = false → s.written = Link.encode s.sent
  asks : ∀ p ∈ s.sent, Link.Fits p ∧ Traffic.answered p
  waits : s.timers + s._packet.toList.length ≤ 1
  goes_on : s.skipped = false → s.timers + s._packet.toList.length = 1

end TestSession

theorem encode_concat (ps qs : List Bytes) :
    Link.encode (ps ++ qs) = Link.encode ps ++ Link.encode qs := by
  simp [Link.encode]

theorem stream_packet {p : Bytes} (fits : Link.Fits p) :
    TestSession.stream.cut (Link.packet p) = .frame p [] := by
  obtain ⟨low,high⟩ := fits
  rw [maxPacketSize] at high
  have framed := Prefixed.cut_packet low (Nat.le_trans high (by decide : 0x4000 ≤ 16 * 0x1000))
    (by omega) []
  rwa [List.append_nil] at framed

theorem stream_piece {p xs : Bytes} (fits : Link.Fits p) (piece : xs <+: Link.packet p) :
    xs = Link.packet p ∨ TestSession.stream.cut xs = .more := by
  obtain ⟨low,high⟩ := fits
  rw [maxPacketSize] at high
  exact Prefixed.piece_cut low (Nat.le_trans high (by decide : 0x4000 ≤ 16 * 0x1000))
    (by omega) piece

namespace TestSession

variable {s : TestSession}

/-- A timer goes off where nothing is awaited. -/
theorem Steady.send (steady : s.Steady) {n : Nat} (pending : s.timers = n+1) (d : Draw)
    (ret : Bool) : ({s with timers := n}.SendPacket d ret).Steady := by
  obtain ⟨accepts,same,order,reads,part,wrote,open_,asks,waits,_⟩ := steady
  rw [pending] at waits
  have timers : n = 0 := by omega
  have none_ : s._packet = none := by
    cases awaits : s._packet with
    | none => rfl
    | some p =>
      rw [awaits,Option.toList_some,List.length_singleton] at waits
      omega
  have waits : n + s._packet.toList.length ≤ 1 := by omega
  unfold SendPacket
  split
  next => exact ⟨accepts,same,order,reads,part,wrote,open_,asks,waits,nofun⟩
  next =>
    split
    next => exact ⟨accepts,same,order,reads,part,wrote,open_,asks,waits,nofun⟩
    next =>
      have whole : Link.encode (s.sent ++ [d.payload]) = Link.encode s.sent ++ make_packet d := by
        rw [make_packet_packet,Link.encode_append]
        rfl
      refine ⟨accepts,same,?_,reads,part,?_,?_,?_,?_,?_⟩
      · rw [none_,Option.toList_none,List.append_nil] at order
        show s.packets.map Prod.fst ++ [d.payload] = s.sent ++ [d.payload]
        rw [order]
      · dsimp only
        rw [whole]
        split
        next => exact wrote.trans (List.prefix_append _ _)
        next live => simp [open_ (eq_false_of_ne_true live)]
      · dsimp only
        intro live
        rw [whole,if_neg (ne_true_of_eq_false live),open_ live]
      · intro p member
        rcases List.mem_append.mp member with old | new
        · exact asks p old
        · rw [List.mem_singleton.mp new]
          exact ⟨payload_fits d,bne_iff_ne.mpr (payload_opcode d)⟩
      · simp [timers]
      · simp [timers]

/-- What arrives is a part of the one packet that is awaited. -/
theorem Steady.piece (steady : s.Steady) {chunk : Bytes}
    (echoed : s.got ++ chunk <+: Link.encode s.sent) :
    s.kept ++ chunk <+: Link.encode s._packet.toList := by
  rw [steady.reads,← steady.order,encode_concat,List.append_assoc] at echoed
  exact (List.prefix_append_right_inj _).mp echoed

theorem Steady.data (steady : s.Steady) {chunk : Bytes}
    (echoed : s.got ++ chunk <+: Link.encode s.sent) : (s.onData chunk).Steady := by
  have piece := steady.piece echoed
  have took := onData_took s chunk
  obtain ⟨accepts,same,order,reads,_,wrote,open_,asks,waits,goes_on⟩ := steady
  have cut : stream.cut (s.kept ++ chunk) = .more ∨
      ∃ p, s._packet = some p ∧ stream.cut (s.kept ++ chunk) = .frame p [] ∧
        s.kept ++ chunk = Link.packet p := by
    cases awaits : s._packet with
    | none =>
      rw [awaits] at piece
      rw [List.prefix_nil.mp piece]
      exact .inl rfl
    | some p =>
      have one : Link.encode (some p).toList = Link.packet p := by simp [Link.encode]
      rw [awaits,one] at piece
      have fits : Link.Fits p := by
        refine (asks p ?_).1
        rw [← order,awaits]
        exact List.mem_append_right _ List.mem_cons_self
      rcases stream_piece fits piece with whole | more
      · exact .inr ⟨p,rfl,by rw [whole,stream_packet fits],whole⟩
      · exact .inl more
  generalize s.onData chunk = s' at took ⊢
  cases took with
  | keeps more =>
    refine ⟨accepts,same,order,?_,more,wrote,open_,asks,waits,goes_on⟩
    show s.got ++ chunk = _ ++ (s.kept ++ chunk)
    rw [reads,List.append_assoc]
  | rejects text bad => simp [bad] at cut
  | differs p rest buffer framed left other =>
    rcases cut with more | ⟨q,awaits,whole,_⟩
    · cases framed.symm.trans more
    · cases framed.symm.trans whole
      exact absurd awaits other
  | same p rest buffer framed left awaits =>
    rcases cut with more | ⟨q,awaits',whole,all⟩
    · cases framed.symm.trans more
    cases framed.symm.trans whole
    have kept : ∀ (u : TestSession), u.recv_buffer = buffer → u.kept = [] := by
      intro u same
      rw [TestSession.kept,same,left]
    refine ⟨accepts,?_,?_,?_,?_,wrote,open_,asks,?_,?_⟩
    · intro q member
      rcases List.mem_append.mp member with old | new
      · exact same q old
      · rw [List.mem_singleton.mp new]
    · rw [awaits] at order
      rw [← order]
      simp
    · rw [kept _ rfl,List.append_nil,List.map_append,encode_concat]
      show s.got ++ chunk = _ ++ Link.encode [p]
      rw [reads,List.append_assoc,all]
      simp [Link.encode]
    · rw [kept _ rfl]
      rfl
    · rw [awaits] at waits
      exact waits
    · intro going
      rw [awaits] at goes_on
      exact goes_on going

end TestSession

theorem TestSession.step_written {s s' : TestSession} {op : ClientOp}
    (stepped : s.step op = some s') : s.written <+: s'.written := by
  cases op with
  | data chunk =>
    cases stepped
    have took := onData_took s chunk
    generalize s.onData chunk = s' at took ⊢
    cases took with
    | rejects text bad =>
      unfold reject
      dsimp only
      split
      · exact List.prefix_rfl
      · exact List.prefix_append _ _
    | keeps | same | differs => exact List.prefix_rfl
  | timeout d ret =>
    simp only [step] at stepped
    split at stepped
    next => cases stepped
    next =>
      cases stepped
      unfold SendPacket
      split_ifs
      · exact List.prefix_rfl
      · exact List.prefix_rfl
      · exact List.prefix_rfl
      · exact List.prefix_append _ _
  | drain | end_ | error =>
    cases stepped
    exact List.prefix_rfl

theorem TestSession.Steady.step {s s' : TestSession} {op : ClientOp} (steady : s.Steady)
    (echoed : ∀ chunk, op = .data chunk → s.got ++ chunk <+: Link.encode s.sent)
    (stepped : s.step op = some s') : s'.Steady := by
  cases op with
  | data chunk =>
    cases stepped
    exact steady.data (echoed chunk rfl)
  | timeout d ret =>
    simp only [TestSession.step] at stepped
    split at stepped
    next => cases stepped
    next n pending =>
      cases stepped
      exact steady.send pending d ret
  | drain =>
    cases stepped
    exact { steady with }
  | end_ =>
    cases stepped
    exact { steady with }
  | error =>
    cases stepped
    exact { steady with open_ := by simp }

theorem start_steady (d : Draw) (ret : Bool) : (TestSession.start d ret).Steady := by
  have whole : Link.encode ([] ++ [d.payload]) = make_packet d := by
    rw [make_packet_packet,Link.encode_append]
    rfl
  refine ⟨rfl,fun _ member => absurd member List.not_mem_nil,rfl,rfl,rfl,?_,fun _ => ?_,?_,
    Nat.le_refl _,fun _ => rfl⟩
  · show [] ++ make_packet d <+: _
    rw [← whole]
    exact List.prefix_rfl
  · exact whole.symm
  · intro p member
    rw [List.mem_singleton.mp member]
    exact ⟨payload_fits d,bne_iff_ne.mpr (payload_opcode d)⟩

structure EchoLoop where
  t : Traffic
  c : TestSession

inductive LoopOp where
  | server (op : TrafficOp)
  | client (op : ClientOp)
  deriving DecidableEq

namespace EchoLoop

variable (key : Option Nat)

/-- What the server receives from the session is what the client has written, and what the client
receives is what the session has, while it is running. -/
def step (s : EchoLoop) : LoopOp → Option EchoLoop
  | .server op => (s.t.step op).bind fun t =>
    if (ofClient t.arrived key).flatten <+: s.c.written then some {s with t := t} else none
  | .client (.data chunk) =>
    if ∃ e ∈ s.t.server.clients, e.key = key ∧ e.status = .running ∧
        s.c.got ++ chunk <+: e.written then
      (s.c.step (.data chunk)).map fun c => {s with c := c}
    else none
  | .client op => (s.c.step op).map fun c => {s with c := c}

def start (interval : Nat) (d : Draw) (ret : Bool) : EchoLoop :=
  ⟨.start interval,.start d ret⟩

def Timely (s : EchoLoop) : LoopOp → Prop
  | .server op => s.t.Timely op
  | .client _ => True

instance (s : EchoLoop) (op : LoopOp) : Decidable (s.Timely op) := by
  unfold Timely
  split <;> infer_instance

/-- Nothing of the client is on its way: the server has received, handled and sent everything, and
the client has read it. -/
structure Still (s : EchoLoop) (e : Session) : Prop where
  own : e.key = key
  running : e.status = .running
  live : s.c.finished = false
  received : (ofClient s.t.arrived key).flatten = s.c.written
  handled : ofClient (s.t.pushed.drop s.t.server.dispatched.length) key = []
  sent : e.outgoing = []
  read : s.c.got = e.written

structure Inv (s : EchoLoop) : Prop where
  replying : s.t.Replying
  steady : s.c.Steady
  arrived : (ofClient s.t.arrived key).flatten <+: s.c.written

variable {key} {s : EchoLoop}

/-- The packets that the server has cut are the first that the client has written. -/
theorem Inv.packets (inv : s.Inv key) :
    (parse wire (ofClient s.t.arrived key).flatten).1 <+: s.c.sent := by
  have decoded := Link.parse_encode fun p member => (inv.steady.asks p member).1
  have part := parse_prefix (C := wire) (inv.arrived.trans inv.steady.wrote)
  rwa [decoded] at part

theorem Inv.asked (inv : s.Inv key) {ps : List Bytes} (part : ps <+: s.c.sent) :
    ps.filter Traffic.answered = ps :=
  List.filter_eq_self.mpr fun p member => (inv.steady.asks p (part.subset member)).2

/-- What the server has written to the client is a part of what the client has sent. -/
theorem Inv.written (inv : s.Inv key) {e : Session} (member : e ∈ s.t.server.clients)
    (own : e.key = key) (running : e.status = .running) :
    e.written <+: Link.encode s.c.sent := by
  have whole := Traffic.line_answers inv.replying member running
  have answers := Traffic.answers_prefix inv.replying member
  rw [own] at whole answers
  rw [inv.asked inv.packets] at answers
  obtain ⟨more,split⟩ := answers.trans inv.packets
  rw [← split,encode_concat,← whole,List.append_assoc]
  exact List.prefix_append _ _

theorem Inv.answered (inv : s.Inv key) {e : Session} (member : e ∈ s.t.server.clients)
    (still : s.Still key e) : s.c._packet = none := by
  obtain ⟨own,running,live,received,handled,sent,read⟩ := still
  have all := Traffic.answers_all inv.replying member (by rw [own,handled])
  have decoded := Link.parse_encode fun p member => (inv.steady.asks p member).1
  have whole := Traffic.line_answers inv.replying member running
  rw [sent,List.append_nil,all,own,received,inv.steady.open_ live,decoded,
    inv.asked List.prefix_rfl,← read,inv.steady.reads,← inv.steady.order,encode_concat,
    List.append_cancel_left_eq] at whole
  cases awaits : s.c._packet with
  | none => rfl
  | some p =>
    have one : Link.encode (some p).toList = Link.packet p := by simp [Link.encode]
    have fits : Link.Fits p := by
      refine (inv.steady.asks p ?_).1
      rw [← inv.steady.order,awaits]
      exact List.mem_append_right _ List.mem_cons_self
    have part := inv.steady.part
    rw [whole,awaits,one,stream_packet fits] at part
    cases part

theorem step_inv (s : EchoLoop) (op : LoopOp) (s' : EchoLoop) (inv : s.Inv key)
    (met : s.Timely op) (stepped : s.step key op = some s') : s'.Inv key := by
  cases op with
  | server op =>
    simp only [step] at stepped
    obtain ⟨t,went,stepped⟩ := Option.bind_eq_some_iff.mp stepped
    split at stepped
    next arrived =>
      cases stepped
      exact ⟨Traffic.step_replying s.t op t inv.replying met went,inv.steady,arrived⟩
    next => cases stepped
  | client op =>
    have echoed : ∃ c, s.c.step op = some c ∧ s' = {s with c := c} ∧
        ∀ chunk, op = .data chunk → s.c.got ++ chunk <+: Link.encode s.c.sent := by
      cases op with
      | data chunk =>
        simp only [step] at stepped
        split at stepped
        next there =>
          obtain ⟨c,went,rfl⟩ := Option.map_eq_some_iff.mp stepped
          obtain ⟨e,member,own,running,read⟩ := there
          refine ⟨c,went,rfl,fun _ same => ?_⟩
          cases same
          exact read.trans (inv.written member own running)
        next => cases stepped
      | timeout | drain | end_ | error =>
        simp only [step] at stepped
        obtain ⟨c,went,rfl⟩ := Option.map_eq_some_iff.mp stepped
        exact ⟨c,went,rfl,nofun⟩
    obtain ⟨c,went,rfl,echoed⟩ := echoed
    exact ⟨inv.replying,inv.steady.step echoed went,
      inv.arrived.trans (TestSession.step_written went)⟩

theorem start_inv (interval : Nat) (d : Draw) (ret : Bool) : (start interval d ret).Inv key :=
  ⟨Traffic.start_replying interval,start_steady d ret,List.nil_prefix⟩

end EchoLoop

end Pworld.Peer
