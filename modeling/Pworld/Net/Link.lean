import Pworld.Net.Receive
import Pworld.Net.Transmit
import Pworld.Support.Runs

/-! Two sessions and the byte stream between them. The sender's queue and partial
writes, the bytes in flight and the receiver's half-read packet are one stream,
and the packets pushed are its frames. -/
namespace Pworld.Net

open Framing

structure Link where
  a : Ctx
  b : Ctx
  received : Nat
  pushed : List Bytes  -- what `b` has pushed to its queue
  sent : List Bytes  -- what `Send` of `a` was called with

inductive LinkOp where
  | send (payload : Bytes)
  | postSend (rets : List SendRet)
  | writable  -- `Update` has seen EPOLLOUT
  | recv (n now : Nat)
  | others (ea eb : Env)  -- other sessions of the two processes use the queues
  deriving DecidableEq

def SendRet.hard : SendRet → Bool
  | .err _ => true
  | _ => false

namespace Link

/-- The bytes the kernel carries: written by `a` and not yet read by `b`. -/
def inFlight (s : Link) : Bytes := s.a.self.written.drop s.received

def step (s : Link) : LinkOp → Option Link
  | .send payload =>
    if 2 ≤ payload.length ∧ payload.length ≤ maxPacketSize then
      match s.a.send payload with
      | none => none
      | some a => some {s with a := a, sent := s.sent ++ [payload]}
    else none
  | .postSend rets =>
    if rets.any SendRet.hard then none
    else
      match s.a.postSend rets with
      | none => none
      | some a => some {s with a := a}
  | .writable => some {s with a := {s.a with self := {s.a.self with wrReady := true}}}
  | .recv n now =>
    if n = 0 ∨ n > maxBufferSize ∨ n > s.inFlight.length then none
    else
      match s.b.onRecv (s.inFlight.take n) now with
      | none => none
      | some b => some {s with
          b := b
          received := s.received + n
          pushed := s.pushed ++
            (b.env.recvQue.waiting.drop s.b.env.recvQue.waiting.length).map Message.bytes}
  | .others ea eb => some {s with a := {s.a with env := ea}, b := {s.b with env := eb}}

def payloads (ops : List LinkOp) : List Bytes :=
  ops.filterMap fun op => match op with
    | .send payload => some payload
    | _ => none

def packet (payload : Bytes) : Bytes := Bytes.le 4 payload.length ++ payload

def encode (payloads : List Bytes) : Bytes := (payloads.map packet).flatten

def Fits (payload : Bytes) : Prop := 2 ≤ payload.length ∧ payload.length ≤ maxPacketSize

theorem parse_encode {ps : List Bytes} (fit : ∀ p ∈ ps, Fits p) :
    parse wire (encode ps) = (ps,some []) := by
  induction ps with
  | nil => exact parse_more rfl
  | cons p ps ih =>
    have first : wire.cut (encode (p::ps)) = .frame p (encode ps) := by
      obtain ⟨low,high⟩ := fit p List.mem_cons_self
      have same : encode (p::ps) = Bytes.le 4 p.length ++ p ++ encode ps := by
        simp [encode,packet]
      rw [wire_cut,same,wireCut_packet low high]
    rw [parse_frame first,ih fun q member => fit q (List.mem_cons_of_mem _ member)]

/-- One stream through sender, kernel and receiver. -/
structure Inv (s : Link) : Prop where
  running : s.a.self.status = .running
  fit : ∀ p ∈ s.sent, Fits p
  conserved : s.a.self.written ++ s.a.self.outgoing = encode s.sent
  within : s.received ≤ s.a.self.written.length
  left : s.b.self.Left (parse wire (s.a.self.written.take s.received)).2
  pushed : s.pushed = (parse wire (s.a.self.written.take s.received)).1

theorem encode_append (ps : List Bytes) (p : Bytes) :
    encode (ps ++ [p]) = encode ps ++ (Bytes.le 4 p.length ++ p) := by
  simp [encode,packet]

theorem inv_send {s s' : Link} {payload : Bytes} (inv : s.Inv)
    (stepped : s.step (.send payload) = some s') : s'.Inv := by
  simp only [step] at stepped
  split_ifs at stepped with fits
  obtain ⟨a,ran,self,outgoing,_⟩ := Ctx.send_spec s.a inv.running payload
  simp only [ran] at stepped
  cases Option.some.inj stepped
  have written : a.self.written = s.a.self.written := by rw [self]; rfl
  have status : a.self.status = s.a.self.status := by rw [self]
  constructor
  · exact status.trans inv.running
  · intro p member
    rcases List.mem_append.mp member with old | new
    · exact inv.fit p old
    · rw [List.mem_singleton.mp new]
      exact fits
  · simp only [written,outgoing,encode_append,← inv.conserved,List.append_assoc]
  · simp only [written,inv.within]
  · simp only [written]
    exact inv.left
  · simp only [written]
    exact inv.pushed

theorem inv_postSend {s s' : Link} {rets : List SendRet} (inv : s.Inv)
    (stepped : s.step (.postSend rets) = some s') : s'.Inv := by
  simp only [step] at stepped
  split_ifs at stepped with hard
  cases ran : s.a.postSend rets with
  | none => simp [ran] at stepped
  | some a =>
    simp only [ran] at stepped
    cases Option.some.inj stepped
    have mild : ∀ errno, SendRet.err errno ∉ rets := by
      intro errno member
      exact hard (List.any_eq_true.mpr ⟨_,member,rfl⟩)
    obtain ⟨more,longer⟩ := Ctx.written_prefix (Ctx.postSend_trace ran)
    have taken : a.self.written.take s.received = s.a.self.written.take s.received := by
      rw [← longer,List.take_append_of_le_length inv.within]
    constructor
    · simp only [Ctx.postSend_status mild ran,inv.running]
    · exact inv.fit
    · simp only [(Ctx.postSend_conserves ran).1,inv.conserved]
    · have within := inv.within
      simp only [← longer,List.length_append]
      omega
    · simp only [taken]
      exact inv.left
    · simp only [taken]
      exact inv.pushed

theorem inv_recv {s s' : Link} {n now : Nat} (inv : s.Inv)
    (stepped : s.step (.recv n now) = some s') : s'.Inv := by
  simp only [step] at stepped
  split_ifs at stepped with bad
  obtain ⟨b,ms,ran,left,waiting,bytes,_,_⟩ :=
    Ctx.onRecv_absorb inv.left (s.inFlight.take n) now
  simp only [ran] at stepped
  cases Option.some.inj stepped
  have taken : s.a.self.written.take (s.received+n) =
      s.a.self.written.take s.received ++ s.inFlight.take n := by
    rw [inFlight,List.take_add]
  have parsed := parse_append (C := wire) (s.a.self.written.take s.received) (s.inFlight.take n)
  constructor
  · exact inv.running
  · exact inv.fit
  · exact inv.conserved
  · have length : s.inFlight.length = s.a.self.written.length - s.received := by
      rw [inFlight,List.length_drop]
    have within := inv.within
    simp only
    omega
  · simp only [taken,parsed]
    exact left
  · simp only [taken,parsed,waiting,List.drop_left,bytes,← inv.pushed]

theorem inv_step (s : Link) (op : LinkOp) (s' : Link) (inv : s.Inv)
    (stepped : s.step op = some s') : s'.Inv := by
  cases op with
  | send payload => exact inv_send inv stepped
  | postSend rets => exact inv_postSend inv stepped
  | recv n now => exact inv_recv inv stepped
  | writable =>
    cases Option.some.inj stepped
    exact ⟨inv.running,inv.fit,inv.conserved,inv.within,inv.left,inv.pushed⟩
  | others ea eb =>
    cases Option.some.inj stepped
    exact ⟨inv.running,inv.fit,inv.conserved,inv.within,inv.left,inv.pushed⟩

/-- Two attached sessions and nothing sent yet. -/
def start (a b : Ctx) : Link := ⟨a,b,0,[],[]⟩

theorem start_inv (ia ha na ib hb nb : Nat) (sa sb : Int) (ka kb : Option Nat) (fa fb : Nat)
    (ea eb : Env) :
    (start (.attached ia ha na sa ka fa ea) (.attached ib hb nb sb kb fb eb)).Inv := by
  constructor
  · rfl
  · intro p member
    cases member
  · rfl
  · exact Nat.zero_le _
  · have empty : parse wire [] = ([],some []) := parse_more rfl
    simp only [start,List.take_zero,empty]
    exact Ctx.attached_left ib hb nb sb kb fb eb
  · have empty : parse wire [] = ([],some []) := parse_more rfl
    simp only [start,List.take_zero,empty]

end Link

end Pworld.Net
