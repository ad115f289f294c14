import Pworld.Net.Flush
import Pworld.Net.Intake

/-! Why a session disconnects. `_last_active_t` is the time of the last packet, however many bytes
came after it, and `_disconnect` is set for one of four reasons. -/
namespace Pworld.Net

open Framing

/-- The pieces that `_post_recv` takes in, each with the clock when it is handled. -/
def pieces : List RecvRet → List (Bytes × Nat)
  | .data chunk now::rets =>
    (chunk,now)::(if chunk.length = maxBufferSize then pieces rets else [])
  | .intr::rets => pieces rets
  | _ => []

/-- `_post_recv` comes to the end of the stream. -/
def atEnd : List RecvRet → Bool
  | .data chunk _::rets => chunk.length == maxBufferSize && atEnd rets
  | .intr::rets => atEnd rets
  | .eof::_ => true
  | _ => false

/-- What the wire format has left of the bytes so far, and when a packet was last complete. -/
structure Heard where
  rest : Option Bytes
  beat : Nat
  deriving DecidableEq

def Heard.hear (h : Heard) (piece : Bytes × Nat) : Heard :=
  let parsed := absorb wire h.rest piece.1
  ⟨parsed.2,if parsed.1 = [] then h.beat else piece.2⟩

namespace Ctx

/-- The results of recv that an `Update` comes to. -/
def reads (c : Ctx) (i : UpdateIn) : List RecvRet :=
  let s := (c.self.takeEvents i.sockErr).2
  if !i.locked || s.recvOver || s.status != .running || !s.rdReady then [] else i.recvs

/-- The `Update` from `c` to `c'` comes to the activity check: it has met no error. -/
def checks (c c' : Ctx) (i : UpdateIn) : Bool :=
  i.locked && c.self.status == .running &&
    !(c'.self.trace.drop c.self.trace.length).contains (.status .error)

end Ctx

structure Activity where
  life : Life
  heard : Heard
  asked : Bool  -- `Disconnect` was called from outside
  ended : Bool  -- recv has returned 0
  silent : Bool  -- the activity check has found the last packet too old
  deriving DecidableEq

namespace Activity

def self (s : Activity) : Session := s.life.ctx.self

def note (s : Activity) (life : Life) : LifeOp → Activity
  | .update i =>
    let rets := s.life.ctx.reads i
    let heard := (pieces rets).foldl Heard.hear s.heard
    {s with
      life := life
      heard := heard
      ended := s.ended || atEnd rets
      silent := s.silent || s.life.ctx.checks life.ctx i &&
        decide (60 < u64 (i.now + 2^64 - u64 heard.beat))}
  | .disconnect => {s with life := life, asked := true}
  | _ => {s with life := life}

def step (s : Activity) (op : LifeOp) : Option Activity :=
  (s.life.step op).map fun life => s.note life op

def start (id header now : Nat) (socket : Int) (key : Option Nat) (fresh : Nat) (env : Env) :
    Activity :=
  ⟨.start id header now socket key fresh env,⟨some [],now⟩,false,false,false⟩

/-- A session disconnects where it is told to, where the peer has ended the stream, where the
stream is not one of packets, or where no packet was completed for more than 60 seconds. -/
def Accounted (s : Activity) : Prop :=
  s.self.disconnect = (s.asked || s.ended || s.heard.rest.isNone || s.silent)

end Activity

theorem Session.disconnect_last (s : Session) : s.Disconnect.lastActiveT = s.lastActiveT := by
  unfold Session.Disconnect
  split <;> rfl

theorem Session.disconnect_set (s : Session) : s.Disconnect.disconnect = true := by
  unfold Session.Disconnect
  split
  · rfl
  next set => simpa using set

namespace Ctx

/-- `_last_active_t` is written, with `now`, where packets are pushed. -/
def Beats (now : Nat) (c d : Ctx) : Prop :=
  d.env.recvQue.waiting = c.env.recvQue.waiting ∧ d.self.lastActiveT = c.self.lastActiveT ∨
  c.env.recvQue.waiting.length < d.env.recvQue.waiting.length ∧ d.self.lastActiveT = now

theorem Beats.keep {now : Nat} {c d e : Ctx} (beats : Beats now c d)
    (waiting : e.env.recvQue.waiting = d.env.recvQue.waiting)
    (last : e.self.lastActiveT = d.self.lastActiveT) : Beats now c e := by
  unfold Beats
  rw [waiting,last]
  exact beats

theorem beginRecv_waiting {c d : Ctx} {m : Message} (began : c.beginRecv = some (m,d)) :
    d.env.recvQue.waiting = c.env.recvQue.waiting := by
  unfold beginRecv at began
  split at began
  · cases began
    rfl
  · split at began
    · cases began
    · cases began
      exact applyRecv_waiting c

theorem onRecvBody_beats {now : Nat} {c d : Ctx} {data : Bytes} {o : (Ctx × Bytes) ⊕ Ctx}
    (beats : Beats now c d) (ran : onRecvBody now (d,data) = some o) :
    Beats now c (o.elim Prod.fst id) := by
  unfold onRecvBody at ran
  simp only [Message.fillWhile_eq] at ran
  split at ran
  next =>
    cases ran
    exact beats.keep rfl rfl
  next =>
    split at ran
    next =>
      cases ran
      exact beats.keep rfl (Session.disconnect_last _)
    next m e began =>
      have waiting := beginRecv_waiting began
      have last : e.self.lastActiveT = d.self.lastActiveT := by rw [beginRecv_self began]
      have whole (m : Message) : Beats now c
          (if m.full then e.pushRecv m now else {e with self := {e.self with msgRecv := some m}}) := by
        split
        · refine .inr ⟨?_,rfl⟩
          show _ < (e.env.recvQue.waiting ++ [m.own e.self.id]).length
          rw [waiting,List.length_append]
          rcases beats with ⟨same,_⟩ | ⟨more,_⟩
          · rw [same]
            exact Nat.lt_succ_self _
          · exact Nat.lt_succ_of_lt more
        · exact beats.keep waiting last
      cases ran
      split
      · exact whole _
      · exact whole _

/-- A call of `_on_recv`, which the wire format says the packets of. -/
theorem onRecv_hear {c c' : Ctx} {h : Heard} {data : Bytes} {now : Nat}
    (left : c.self.Left h.rest) (ran : c.onRecv data now = some c') :
    c'.self.Left (h.hear (data,now)).rest ∧
    c'.self.disconnect = (c.self.disconnect || (h.hear (data,now)).rest.isNone) ∧
    (c.self.lastActiveT = h.beat → c'.self.lastActiveT = (h.hear (data,now)).beat) := by
  obtain ⟨d,ms,same,left',waiting,bytes,_,keep⟩ := onRecv_absorb left data now
  cases same.symm.trans ran
  have beats : Beats now c c' := by
    apply Loop.iterate_partial (fun s => Beats now c s.1) (Beats now c) _ _ _ ran
    · intro s s' before again
      exact onRecvBody_beats before again
    · intro s d before left
      exact onRecvBody_beats before left
    · exact .inl ⟨rfl,rfl⟩
  refine ⟨left',?_,fun last => ?_⟩
  · show _ = (c.self.disconnect || (absorb wire h.rest data).2.isNone)
    cases rest : (absorb wire h.rest data).2 with
    | none =>
      rw [rest] at left'
      rw [left'.disconnect]
      simp
    | some rest' =>
      rw [keep (by rw [rest]; simp)]
      simp
  · show _ = if (absorb wire h.rest data).1 = [] then h.beat else now
    rcases beats with ⟨none_,kept⟩ | ⟨more,written⟩
    · have empty : ms = [] := by
        rw [waiting] at none_
        exact List.append_right_eq_self.mp none_
      rw [empty,List.map_nil] at bytes
      rw [if_pos bytes.symm,kept,last]
    · have some_ : (absorb wire h.rest data).1 ≠ [] := by
        intro none_
        rw [none_,List.map_eq_nil_iff] at bytes
        rw [waiting,bytes,List.append_nil] at more
        exact Nat.lt_irrefl _ more
      rw [if_neg some_,written]

theorem hear_none {h : Heard} (rejected : h.rest.isNone = true) (pieces : List (Bytes × Nat)) :
    (pieces.foldl Heard.hear h).rest.isNone = true := by
  induction pieces generalizing h with
  | nil => exact rejected
  | cons piece pieces ih =>
    apply ih
    rw [Heard.hear,Option.isNone_iff_eq_none.mp rejected]
    rfl

/-- What `Update` knows of what it has read. -/
structure Follows (h : Heard) (c c' : Ctx) (rets : List RecvRet) : Prop where
  left : c'.self.Left ((pieces rets).foldl Heard.hear h).rest
  disconnect : c'.self.disconnect =
    (c.self.disconnect || atEnd rets || ((pieces rets).foldl Heard.hear h).rest.isNone)
  last : c.self.lastActiveT = h.beat →
    c'.self.lastActiveT = ((pieces rets).foldl Heard.hear h).beat

theorem left_none {s : Session} {before : Option Bytes} (left : s.Left before)
    (rejected : before.isNone = true) : s.disconnect = true := by
  rw [Option.isNone_iff_eq_none.mp rejected] at left
  exact left.disconnect

/-- Nothing arrives, and `_disconnect` is set or not. -/
theorem Follows.stay {h : Heard} {c d : Ctx} {rets : List RecvRet} (left : c.self.Left h.rest)
    (none_ : pieces rets = []) (header : d.self.msgHeader = c.self.msgHeader)
    (recv : d.self.msgRecv = c.self.msgRecv) (last : d.self.lastActiveT = c.self.lastActiveT)
    (disconnect : d.self.disconnect = (c.self.disconnect || atEnd rets)) : Follows h c d rets := by
  refine ⟨?_,?_,?_⟩
  · rw [none_]
    exact left.keep header recv fun set => by rw [disconnect,set,Bool.true_or]
  · rw [none_,disconnect]
    cases rest : h.rest.isNone with
    | true =>
      have set := left_none left rest
      simp [rest,set]
    | false => simp [rest]
  · rw [none_,last]
    exact fun same => same

/-- A whole buffer is taken in, and the loop goes on. -/
theorem Follows.whole {h : Heard} {c d c' : Ctx} {chunk : Bytes} {now : Nat} {rets : List RecvRet}
    (full : chunk.length = maxBufferSize) (left : c.self.Left h.rest)
    (ran : c.onRecv chunk now = some d) (rest : Follows (h.hear (chunk,now)) d c' rets) :
    Follows h c c' (.data chunk now::rets) := by
  obtain ⟨_,disconnect,last⟩ := onRecv_hear left ran
  have heard : (pieces (.data chunk now::rets)).foldl Heard.hear h =
      (pieces rets).foldl Heard.hear (h.hear (chunk,now)) := by
    rw [pieces,if_pos full]
    rfl
  have ends : atEnd (.data chunk now::rets) = atEnd rets := by simp [atEnd,full]
  refine ⟨?_,?_,fun same => ?_⟩
  · rw [heard]
    exact rest.left
  · rw [heard,ends,rest.disconnect,disconnect]
    cases rejected : (h.hear (chunk,now)).rest.isNone with
    | true =>
      rw [hear_none rejected]
      simp
    | false => simp
  · rw [heard]
    exact rest.last (last same)

theorem Follows.part {h : Heard} {c d : Ctx} {chunk : Bytes} {now : Nat} (rets : List RecvRet)
    (short : chunk.length ≠ maxBufferSize) (left : c.self.Left h.rest)
    (ran : c.onRecv chunk now = some d) : Follows h c d (.data chunk now::rets) := by
  obtain ⟨left',disconnect,last⟩ := onRecv_hear left ran
  have heard : (pieces (.data chunk now::rets)).foldl Heard.hear h = h.hear (chunk,now) := by
    rw [pieces,if_neg short]
    rfl
  have ends : atEnd (.data chunk now::rets) = false := by simp [atEnd,short]
  refine ⟨?_,?_,?_⟩
  · rw [heard]
    exact left'
  · rw [heard,ends,Bool.or_false]
    exact disconnect
  · rw [heard]
    exact last

theorem postRecvLoop_follows {h : Heard} {rets : List RecvRet} {c c' : Ctx}
    (left : c.self.Left h.rest) (ran : postRecvLoop rets c = some c') : Follows h c c' rets := by
  induction rets generalizing h c with
  | nil => cases ran
  | cons ret rets ih =>
    unfold postRecvLoop at ran
    cases ret with
    | data chunk now =>
      simp only [recvRound] at ran
      split at ran
      next => cases ran
      next d stepped =>
        split at stepped
        next => cases stepped
        next =>
          split at stepped
          next => cases stepped
          next e called =>
            split at stepped
            next full =>
              cases stepped
              exact .whole full left called (ih (onRecv_hear left called).1 ran)
            next => cases stepped
      next d stepped =>
        split at stepped
        next => cases stepped
        next =>
          split at stepped
          next => cases stepped
          next e called =>
            split at stepped
            next => cases stepped
            next short =>
              cases stepped
              cases ran
              exact .part rets short left called
    | intr =>
      have rest := ih left ran
      exact ⟨rest.left,rest.disconnect,rest.last⟩
    | eof =>
      cases ran
      refine .stay left rfl ?_ ?_ (Session.disconnect_last _) ?_
      · unfold Session.Disconnect
        split <;> rfl
      · unfold Session.Disconnect
        split <;> rfl
      · rw [Session.disconnect_set]
        exact (Bool.or_true _).symm
    | _ =>
      cases ran
      exact .stay left rfl rfl rfl rfl (Bool.or_false _).symm

/-- Neither `_disconnect` nor `_last_active_t` is written. -/
structure Calm (c c' : Ctx) : Prop where
  disconnect : c'.self.disconnect = c.self.disconnect
  last : c'.self.lastActiveT = c.self.lastActiveT

theorem Calm.refl (c : Ctx) : Calm c c := ⟨rfl,rfl⟩

theorem Calm.trans {c d e : Ctx} (first : Calm c d) (second : Calm d e) : Calm c e :=
  ⟨second.disconnect.trans first.disconnect,second.last.trans first.last⟩

theorem fetchSend_calm (c : Ctx) : Calm c c.fetchSend.2 := by
  unfold fetchSend
  split
  · exact .refl c
  · split
    · exact .refl c
    · split <;> exact ⟨rfl,rfl⟩

theorem sendRound_calm {c : Ctx} {m : Message} {ret : SendRet} {o : Ctx ⊕ Ctx}
    (stepped : c.sendRound m ret = some o) : Calm c (o.elim id id) := by
  cases ret with
  | sent n =>
    simp only [sendRound] at stepped
    split_ifs at stepped <;> cases stepped <;> exact ⟨rfl,rfl⟩
  | _ => cases stepped; exact ⟨rfl,rfl⟩

theorem postSendLoop_calm {rets : List SendRet} {c c' : Ctx}
    (ran : postSendLoop rets c = some c') : Calm c c' := by
  induction rets generalizing c with
  | nil =>
    have fetched := fetchSend_calm c
    unfold postSendLoop at ran
    split at ran
    next d same =>
      cases ran
      rwa [same] at fetched
    next => cases ran
  | cons ret rets ih =>
    have fetched := fetchSend_calm c
    unfold postSendLoop at ran
    split at ran
    next d same =>
      cases ran
      rwa [same] at fetched
    next m d same =>
      rw [same] at fetched
      split at ran
      next => cases ran
      next e stepped => exact (fetched.trans (sendRound_calm stepped)).trans (ih ran)
      next e stepped =>
        cases ran
        exact fetched.trans (sendRound_calm stepped)

theorem postSend_calm {rets : List SendRet} {c c' : Ctx} (ran : c.postSend rets = some c') :
    Calm c c' := by
  unfold postSend at ran
  split_ifs at ran
  · cases ran
    exact ⟨rfl,rfl⟩
  · cases ran
    exact .refl c
  · cases ran
    exact .refl c
  · exact postSendLoop_calm ran

/-- The activity check. -/
def stale (s : Session) (now : Nat) : Bool := decide (60 < u64 (now + 2^64 - u64 s.lastActiveT))

theorem checkActivity_stale (s : Session) (now again : Nat) :
    (s.checkActivity now again).disconnect = (s.disconnect || stale s now) ∧
    (stale s now = false → (s.checkActivity now again).lastActiveT = s.lastActiveT) := by
  unfold Session.checkActivity
  split
  next old =>
    have aged : stale s now = true := decide_eq_true old
    rw [aged]
    exact ⟨(Session.disconnect_set s).trans (Bool.or_true _).symm,fun fresh => by cases fresh⟩
  next fresh =>
    have aged : stale s now = false := decide_eq_false fresh
    rw [aged]
    exact ⟨(Bool.or_false _).symm,fun _ => rfl⟩

/-- The end of `Update` disconnects where it comes to the check and finds the session stale. -/
theorem finish_activity (s : Session) (hang : Bool) (now again : Nat) :
    (s.finish hang now again).disconnect =
      (s.disconnect || (!hang && s.status == .running && stale s now)) ∧
    ((!hang && s.status == .running && stale s now) = false →
      (s.finish hang now again).lastActiveT = s.lastActiveT) := by
  have registered (t : Session) : t.registerHandler.disconnect = t.disconnect ∧
      t.registerHandler.lastActiveT = t.lastActiveT := by
    unfold Session.registerHandler
    split <;> exact ⟨rfl,rfl⟩
  rw [Session.finish,(registered _).1,(registered _).2]
  cases hang with
  | true => simp [Session.switchStatus,Session.setSocketStatus]
  | false =>
    cases status : s.status with
    | running =>
      simp only [Session.switchStatus,status,Bool.not_false,Bool.true_and,beq_self_eq_true,
        Bool.false_eq_true,if_false]
      split
      · exact checkActivity_stale (s.setSocketStatus .preclosed) now again
      · exact checkActivity_stale s now again
    | preclosed =>
      simp [Session.switchStatus,status,Session.closeSocket_eq,Session.call,Session.setSocketStatus]
    | _ => simp [Session.switchStatus,status,Session.setSocketStatus]

/-- The parts of an `Update`. -/
theorem update_parts {c c' : Ctx} {i : UpdateIn} (locked : i.locked = true)
    (ran : c.update i = some c') : ∃ d e, c.beforeSend i = some d ∧ d.postSend i.sends = some e ∧
      c' = {e with self := e.self.finish (Session.hangs c.self.events) i.now i.again} := by
  unfold update at ran
  simp only [locked,Bool.not_true,Bool.false_eq_true,if_false] at ran
  split at ran
  next => cases ran
  next d received =>
    split at ran
    next => cases ran
    next e sent =>
      cases ran
      rw [Session.takeEvents_hangs]
      exact ⟨d,e,received,sent,rfl⟩

theorem endCalls_error (s : Session) (hang : Bool) :
    Call.status .error ∈ s.endCalls hang ↔ hang = true := by
  unfold Session.endCalls
  cases hang with
  | true => simp
  | false =>
    cases s.status with
    | running => cases s.sendOver && s.recvOver <;> cases s.inEpoll <;> simp
    | preclosed => by_cases valid : s.socket = -1 <;> simp [valid]
    | _ => simp

theorem statuses_mem {cs : List Call} {status : SockStatus} :
    Call.status status ∈ cs ↔ status ∈ statuses cs := by
  unfold statuses
  rw [List.mem_filterMap]
  constructor
  · exact fun member => ⟨_,member,rfl⟩
  · rintro ⟨call,member,same⟩
    cases call <;> cases same
    exact member

/-- `Update` comes to the check where nothing hangs and the session still runs after sending. -/
theorem checks_eq {c d e : Ctx} {i : UpdateIn} (locked : i.locked = true)
    (received : c.beforeSend i = some d) (sent : d.postSend i.sends = some e) :
    c.checks {e with self := e.self.finish (Session.hangs c.self.events) i.now i.again} i =
      (!Session.hangs c.self.events && e.self.status == .running) := by
  have first : (c.self.takeEvents i.sockErr).2.trace = c.self.trace ∧
      (c.self.takeEvents i.sockErr).2.status = c.self.status := by
    unfold Session.takeEvents
    split <;> exact ⟨rfl,rfl⟩
  obtain ⟨cs,trace,_,moved⟩ := ((postRecv_io received).trans (postSend_io sent)).calls
  simp only [first.1,first.2] at trace moved
  have whole := (Session.finish_spec e.self (Session.hangs c.self.events) i.now i.again).trace
  rw [trace,List.append_assoc] at whole
  have met : (cs ++ e.self.endCalls (Session.hangs c.self.events)).contains (.status .error) =
      (Session.hangs c.self.events || decide (.error ∈ statuses cs)) := by
    rw [Bool.eq_iff_iff,List.contains_iff_mem,List.mem_append,endCalls_error,statuses_mem,
      Bool.or_eq_true,decide_eq_true_iff,or_comm]
  unfold checks
  simp only [locked,Bool.true_and,whole,List.drop_left,met]
  rcases moved with ⟨same,none_⟩ | ⟨running,failed,error⟩
  · rw [same,none_]
    simp [Bool.and_comm]
  · rw [running,failed,error]
    simp

theorem beforeSend_follows {c d : Ctx} {h : Heard} {i : UpdateIn} (locked : i.locked = true)
    (left : c.self.Left h.rest) (received : c.beforeSend i = some d) :
    Follows h c d (c.reads i) := by
  have same : (c.self.takeEvents i.sockErr).2.msgHeader = c.self.msgHeader ∧
      (c.self.takeEvents i.sockErr).2.msgRecv = c.self.msgRecv ∧
      (c.self.takeEvents i.sockErr).2.disconnect = c.self.disconnect ∧
      (c.self.takeEvents i.sockErr).2.lastActiveT = c.self.lastActiveT := by
    unfold Session.takeEvents
    split <;> exact ⟨rfl,rfl,rfl,rfl⟩
  obtain ⟨header,recv,disconnect,last⟩ := same
  unfold beforeSend postRecv at received
  unfold reads
  simp only [locked,Bool.not_true,Bool.false_or]
  split at received
  next skip =>
    cases received
    rw [if_pos skip]
    exact .stay left rfl header recv last (by rw [disconnect]; exact (Bool.or_false _).symm)
  next go =>
    rw [if_neg go]
    have left' : (c.self.takeEvents i.sockErr).2.Left h.rest :=
      left.keep header recv fun set => by rw [disconnect,set]
    have follows := postRecvLoop_follows left' received
    exact ⟨follows.left,by rw [← disconnect]; exact follows.disconnect,
      fun same => follows.last (last.trans same)⟩

end Ctx

namespace Activity

structure Inv (s : Activity) : Prop where
  left : s.self.Left s.heard.rest
  accounted : s.Accounted
  last : s.silent = false → s.self.lastActiveT = s.heard.beat

theorem inv_update {s s' : Activity} {i : UpdateIn} (inv : s.Inv)
    (stepped : s.step (.update i) = some s') : s'.Inv := by
  obtain ⟨life,done,rfl⟩ := Option.map_eq_some_iff.mp stepped
  obtain ⟨c,ran,rfl⟩ := Option.map_eq_some_iff.mp done
  have accounted : s.self.disconnect = _ := inv.accounted
  cases locked : i.locked with
  | false =>
    rw [Ctx.update_skipped _ locked] at ran
    cases ran
    have reads : s.life.ctx.reads i = [] := by simp [Ctx.reads,locked]
    have checks : s.life.ctx.checks s.life.ctx i = false := by simp [Ctx.checks,locked]
    simp only [note,reads,checks,pieces,atEnd,List.foldl_nil,Bool.or_false,Bool.false_and]
    exact ⟨inv.left,inv.accounted,inv.last⟩
  | true =>
    obtain ⟨d,e,received,sent,rfl⟩ := Ctx.update_parts locked ran
    have follows := Ctx.beforeSend_follows locked inv.left received
    have quiet := Ctx.postSend_quiet sent
    have calm := Ctx.postSend_calm sent
    obtain ⟨disconnect,last⟩ := Ctx.finish_activity e.self (Session.hangs s.life.ctx.self.events)
      i.now i.again
    have checks := Ctx.checks_eq locked received sent
    rw [← checks] at disconnect last
    have held := Session.finish_held e.self (Session.hangs s.life.ctx.self.events) i.now i.again
    have sentLeft := follows.left.keep quiet.header quiet.recv quiet.disconnect
    refine ⟨?_,?_,fun awake => ?_⟩
    · refine sentLeft.keep (congrArg (·.1) held) (congrArg (·.2.1) held) fun set => ?_
      exact disconnect.trans (by rw [set,Bool.true_or])
    · show (e.self.finish _ i.now i.again).disconnect = _
      rw [disconnect,calm.disconnect,follows.disconnect]
      cases silent : s.silent with
      | true =>
        have set : s.life.ctx.self.disconnect = true := by
          rw [silent,Bool.or_true] at accounted
          exact accounted
        simp [note,silent,set]
      | false =>
        have aged : e.self.lastActiveT = _ := calm.last.trans (follows.last (inv.last silent))
        rw [Ctx.stale,aged]
        have before : s.life.ctx.self.disconnect =
            (s.asked || s.ended || s.heard.rest.isNone || s.silent) := accounted
        rw [before,silent]
        cases rejected : s.heard.rest.isNone with
        | true =>
          have still := Ctx.hear_none rejected (pieces (s.life.ctx.reads i))
          simp [note,silent,still]
        | false =>
          simp only [note,silent,Bool.or_false,Bool.false_or]
          rw [Bool.or_assoc s.asked]
    · obtain ⟨silent,fresh⟩ := Bool.or_eq_false_iff.mp awake
      have aged := calm.last.trans (follows.last (inv.last silent))
      refine (last ?_).trans aged
      rw [Ctx.stale,aged]
      exact fresh

/-- Nothing that the account is about changes. -/
theorem Inv.keep {s s' : Activity} (inv : s.Inv) (asked : s'.asked = s.asked)
    (ended : s'.ended = s.ended) (heard : s'.heard = s.heard) (silent : s'.silent = s.silent)
    (header : s'.self.msgHeader = s.self.msgHeader) (recv : s'.self.msgRecv = s.self.msgRecv)
    (disconnect : s'.self.disconnect = s.self.disconnect)
    (last : s'.self.lastActiveT = s.self.lastActiveT) : s'.Inv where
  left := by
    rw [heard]
    exact inv.left.keep header recv fun set => disconnect.trans set
  accounted := by
    rw [Accounted,disconnect,asked,ended,heard,silent]
    exact inv.accounted
  last := by
    rw [silent,last,heard]
    exact inv.last

theorem step_inv (s : Activity) (op : LifeOp) (s' : Activity) (inv : s.Inv)
    (stepped : s.step op = some s') : s'.Inv := by
  cases op with
  | update i => exact inv_update inv stepped
  | send data =>
    obtain ⟨life,done,rfl⟩ := Option.map_eq_some_iff.mp stepped
    obtain ⟨c,ran,rfl⟩ := Option.map_eq_some_iff.mp done
    have self := (Ctx.send_self ran).1
    refine inv.keep rfl rfl rfl rfl ?_ ?_ ?_ ?_
    · show c.self.msgHeader = _
      rw [self]
      rfl
    · show c.self.msgRecv = _
      rw [self]
      rfl
    · show c.self.disconnect = _
      rw [self]
      rfl
    · show c.self.lastActiveT = _
      rw [self]
      rfl
  | disconnect =>
    cases stepped
    refine ⟨inv.left.keep ?_ ?_ fun _ => Session.disconnect_set _,?_,fun awake => ?_⟩
    · show s.self.Disconnect.msgHeader = _
      unfold Session.Disconnect
      split <;> rfl
    · show s.self.Disconnect.msgRecv = _
      unfold Session.Disconnect
      split <;> rfl
    · show s.self.Disconnect.disconnect = _
      rw [Session.disconnect_set]
      simp [note]
    · exact (Session.disconnect_last s.self).trans (inv.last awake)
  | callback events =>
    obtain ⟨life,done,rfl⟩ := Option.map_eq_some_iff.mp stepped
    obtain ⟨_,called⟩ := Option.ite_none_right_eq_some.mp done
    cases called
    exact inv.keep rfl rfl rfl rfl rfl rfl rfl rfl
  | others env =>
    cases stepped
    exact inv.keep rfl rfl rfl rfl rfl rfl rfl rfl

theorem start_inv (id header now : Nat) (socket : Int) (key : Option Nat) (fresh : Nat)
    (env : Env) : (start id header now socket key fresh env).Inv :=
  ⟨Ctx.attached_left id header now socket key fresh env,rfl,fun _ => rfl⟩

/-- Whatever happens to an attached session. -/
theorem disconnects_accounted (id header now : Nat) (socket : Int) (key : Option Nat)
    (fresh : Nat) (env : Env) (ops : List LifeOp) :
    Runs.Always step Accounted (start id header now socket key fresh env) ops :=
  Runs.always_of_pres Inv (fun _ inv => inv.accounted) step_inv
    (start_inv id header now socket key fresh env)

-- the difference of the times is unsigned: one second back is old
example : (Runs.run step (start 1 0 1000 5 none 7 .initial)
    [.update ⟨true,0,[.again],[],999,999⟩]).map (fun s => (s.silent,s.self.disconnect)) =
    some (true,true) := by decide

end Activity

end Pworld.Net
