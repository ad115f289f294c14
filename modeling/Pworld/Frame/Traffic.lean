import Pworld.Frame.Lifetime
import Pworld.Net.Intake
import Pworld.Support.Ledger

/-! What goes through the frame loop, client by client. An address is free for a new
session once the one that had it is deleted; a session's key stays its own, so that the
logs name sessions by it. -/
namespace Pworld.Frame

open Net Framing

structure Traffic where
  server : Server
  pushed : List (Option Nat × Message)  -- by the session that received it
  arrived : List (Option Nat × Bytes)  -- by the session whose socket it came from
  sent : List (Option Nat × Bytes)  -- the frames given to `Send`, by the session
  stray : Bool  -- `Send` has been called where no session is
  deriving DecidableEq

inductive TrafficOp where
  | accept (id : Nat) (socket : Int) (now : Nat)  -- `new` gives the address
  | server (op : ServerOp)
  deriving DecidableEq

namespace Server

def acceptAt (s : Server) (id : Nat) (socket : Int) (now : Nat) : Server :=
  {s with
    clients := s.clients ++ [(Ctx.attached id s.next now socket none s.next s.env).self]
    next := s.next + 1}

theorem acceptAt_next (s : Server) (socket : Int) (now : Nat) :
    s.acceptAt s.next socket now = s.onAccepted socket now := rfl

/-- The client whose `Update` is next. -/
def visited (s : Server) : Option Session :=
  match s.phase with
  | .visiting n => s.clients[n]?
  | _ => none

/-- The receive buffers: those waiting, those in the pool and those being filled. -/
def buffers (s : Server) : List Nat :=
  (s.env.recvQue.waiting ++ s.env.recvQue.recycle).map (·.addr) ++
    s.clients.filterMap fun c => c.msgRecv.map (·.addr)

end Server

theorem Server.acceptAt_buffers (s : Server) (id : Nat) (socket : Int) (now : Nat) :
    (s.acceptAt id socket now).buffers = s.buffers := by
  unfold buffers acceptAt
  rw [List.filterMap_append]
  exact congrArg _ (List.append_nil _)

/-- The entries of one session in a log. -/
def ofClient {α : Type} (log : List (Option Nat × α)) (key : Option Nat) : List α :=
  (log.filter fun e => e.1 = key).map Prod.snd

section OfClient

variable {α : Type}

theorem ofClient_append (log more : List (Option Nat × α)) (key : Option Nat) :
    ofClient (log ++ more) key = ofClient log key ++ ofClient more key := by
  simp [ofClient]

theorem ofClient_single (k key : Option Nat) (a : α) :
    ofClient [(k,a)] key = if k = key then [a] else [] := by
  unfold ofClient
  split
  next same => simp [same]
  next other => simp [other]

theorem ofClient_own (key : Option Nat) (as : List α) :
    ofClient (as.map fun a => (key,a)) key = as := by
  simp [ofClient,List.filter_map,Function.comp_def]

theorem ofClient_other {log : List (Option Nat × α)} {key : Option Nat}
    (other : ∀ e ∈ log, e.1 ≠ key) : ofClient log key = [] := by
  rw [ofClient,List.filter_eq_nil_iff.mpr,List.map_nil]
  simpa using other

end OfClient

/-- What is not changed while a session is only called back or sent to. -/
structure Alike (c c' : Session) : Prop where
  id : c'.id = c.id
  key : c'.key = c.key
  header : c'.msgHeader = c.msgHeader
  recv : c'.msgRecv = c.msgRecv
  disconnect : c'.disconnect = c.disconnect
  status : c'.status = c.status

theorem Alike.refl (c : Session) : Alike c c := ⟨rfl,rfl,rfl,rfl,rfl,rfl⟩

theorem alike_refl (cs : List Session) : List.Forall₂ Alike cs cs :=
  List.forall₂_same.mpr fun c _ => .refl c

theorem alike_map {α : Type} {f : Session → α} (same : ∀ c c', Alike c c' → f c' = f c)
    {cs cs' : List Session} (alike : List.Forall₂ Alike cs cs') : cs'.map f = cs.map f := by
  induction alike with
  | nil => rfl
  | cons first _ ih => rw [List.map_cons,List.map_cons,ih,same _ _ first]

theorem alike_buffers {cs cs' : List Session} (alike : List.Forall₂ Alike cs cs') :
    (cs'.filterMap fun c => c.msgRecv.map (·.addr)) =
      cs.filterMap fun c => c.msgRecv.map (·.addr) := by
  induction alike with
  | nil => rfl
  | cons first _ ih => rw [List.filterMap_cons,List.filterMap_cons,first.recv,ih]

namespace Traffic

def start (interval : Nat) : Traffic := ⟨.start interval,[],[],[],false⟩

/-- The frames of a log of messages that `on_msg` gives to `Send`. -/
def frames (ms : List Message) : List Bytes := (ms.filter fun m => m.opcode ≠ 0).map Message.bytes

/-- `on_msg` -/
def handled (s : Traffic) (m : Message) : Traffic :=
  if m.opcode = 0 then s
  else
    match s.server.find m.ptr with
    | none => {s with stray := true}
    | some (_,c) => {s with sent := s.sent ++ [(c.key,m.bytes)]}

/-- After the `Update` of client `c`. -/
def received (s : Traffic) (c : Session) (i : UpdateIn) (t : Server) : Traffic :=
  {s with
    server := t
    pushed := s.pushed ++
      (t.env.recvQue.waiting.drop s.server.env.recvQue.waiting.length).map fun m => (c.key,m)
    arrived := s.arrived ++ [(c.key,(⟨c,s.server.env⟩ : Ctx).arrived i)]}

def step (s : Traffic) : TrafficOp → Option Traffic
  | .accept id socket now =>
    if 0 ≤ socket ∧ (s.server.phase = .idle ∨ s.server.phase = .dispatching) ∧
        ∀ c ∈ s.server.clients, c.id ≠ id then
      some {s with server := s.server.acceptAt id socket now}
    else none
  | .server (.accept _ _) => none
  | .server (.visit i) =>
    s.server.visited.bind fun c => (s.server.step (.visit i)).map (s.received c i)
  | .server (.dispatch tick) =>
    (s.server.step (.dispatch tick)).map fun t =>
      match s.server.env.recvQue.waiting with
      | [] => {s with server := t}
      | m::_ => {s.handled m with server := t}
  | .server op => (s.server.step op).map fun t => {s with server := t}

/-- What was given to `on_msg` is what was pushed first; a buffer in the pool is one that
was handled, and no buffer is in two places; the messages of a session are the packets of
its stream; and a running session has been sent the packets of its own that were handled. -/
structure Echoed (s : Traffic) : Prop where
  order : s.pushed.map Prod.snd =
    s.server.dispatched.map Dispatch.msg ++ s.server.env.recvQue.waiting
  pooled : ∀ m ∈ s.server.env.recvQue.recycle, m ∈ s.server.dispatched.map Dispatch.msg
  apart : s.server.buffers.Nodup
  packets : ∀ c ∈ s.server.clients, (ofClient s.pushed c.key).map Message.bytes =
    (parse wire (ofClient s.arrived c.key).flatten).1
  live : s.stray = false
  echoed : ∀ c ∈ s.server.clients, c.status = .running → ofClient s.sent c.key =
    frames (ofClient (s.pushed.take s.server.dispatched.length) c.key)

/-- A message that `on_msg` answers is handled before the session that received it is
deleted, or while a session that is not running has its address. -/
def Timely (s : Traffic) : TrafficOp → Prop
  | .server (.dispatch _) =>
    ∀ e ∈ s.pushed[s.server.dispatched.length]?, e.2.opcode ≠ 0 →
      ∃ c ∈ s.server.clients, some c.id = e.2.ptr ∧ (c.key = e.1 ∨ c.status ≠ .running)
  | _ => True

instance (s : Traffic) (op : TrafficOp) : Decidable (s.Timely op) := by
  unfold Timely
  split <;> infer_instance

/-- What holds of a client in every run. -/
structure Client (s : Traffic) (c : Session) : Prop where
  tagged : ∃ k < s.server.next, c.key = some k
  own : ∀ e ∈ s.pushed, e.1 = c.key → e.2.ptr = some c.id
  left : c.Left (parse wire (ofClient s.arrived c.key).flatten).2
  packets : (ofClient s.pushed c.key).map Message.bytes =
    (parse wire (ofClient s.arrived c.key).flatten).1

structure Base (s : Traffic) : Prop where
  order : s.pushed.map Prod.snd =
    s.server.dispatched.map Dispatch.msg ++ s.server.env.recvQue.waiting
  pooled : ∀ m ∈ s.server.env.recvQue.recycle, m ∈ s.server.dispatched.map Dispatch.msg
  apart : s.server.buffers.Nodup
  below : ∀ a ∈ s.server.buffers, a < s.server.env.next
  ids : (s.server.clients.map (·.id)).Nodup
  keys : (s.server.clients.map (·.key)).Nodup
  tags : ∀ t ∈ s.pushed.map Prod.fst ++ s.arrived.map Prod.fst ++ s.sent.map Prod.fst,
    ∃ k < s.server.next, t = some k
  clients : ∀ c ∈ s.server.clients, s.Client c

/-- What a message for the wrong session breaks. -/
structure Good (s : Traffic) : Prop where
  live : s.stray = false
  echoed : ∀ c ∈ s.server.clients, c.status = .running → ofClient s.sent c.key =
    frames (ofClient (s.pushed.take s.server.dispatched.length) c.key)

theorem Base.echoed_iff {s : Traffic} (base : s.Base) : s.Echoed ↔ s.Base ∧ s.Good :=
  ⟨fun echoed => ⟨base,echoed.live,echoed.echoed⟩,fun both =>
    ⟨base.order,base.pooled,base.apart,fun c member => (base.clients c member).packets,
      both.2.live,both.2.echoed⟩⟩

theorem Client.keep {s s' : Traffic} {c c' : Session} (client : s.Client c)
    (next : s.server.next ≤ s'.server.next) (pushed : s'.pushed = s.pushed)
    (arrived : s'.arrived = s.arrived) (alike : Alike c c') : s'.Client c' where
  tagged := by
    obtain ⟨k,below,key⟩ := client.tagged
    exact ⟨k,Nat.lt_of_lt_of_le below next,alike.key.trans key⟩
  own := by
    rw [pushed,alike.key,alike.id]
    exact client.own
  left := by
    rw [arrived,alike.key]
    exact client.left.keep alike.header alike.recv (by rw [alike.disconnect]; exact id)
  packets := by
    rw [pushed,arrived,alike.key]
    exact client.packets

/-- Nothing is received or handled, and no client comes or goes. -/
theorem Base.alike {s : Traffic} (base : s.Base) {t : Server}
    (alike : List.Forall₂ Alike s.server.clients t.clients) (env : t.env = s.server.env)
    (next : t.next = s.server.next) (dispatched : t.dispatched = s.server.dispatched) :
    Base {s with server := t} where
  order := by
    simp only [env,dispatched]
    exact base.order
  pooled := by
    simp only [env,dispatched]
    exact base.pooled
  apart := by
    simp only [Server.buffers,env,alike_buffers alike]
    exact base.apart
  below := by
    simp only [Server.buffers,env,alike_buffers alike]
    exact base.below
  ids := by
    simp only [alike_map (fun _ _ same => same.id) alike]
    exact base.ids
  keys := by
    simp only [alike_map (fun _ _ same => same.key) alike]
    exact base.keys
  tags := by
    simp only [next]
    exact base.tags
  clients := by
    intro c' member
    obtain ⟨c,there,same⟩ := (forall₂_mem alike).2 c' member
    have below : s.server.next ≤ ({s with server := t} : Traffic).server.next := next.ge
    exact (base.clients c there).keep below rfl rfl same

theorem Good.alike {s : Traffic} (good : s.Good) {t : Server}
    (alike : List.Forall₂ Alike s.server.clients t.clients)
    (dispatched : t.dispatched = s.server.dispatched) : Good {s with server := t} where
  live := good.live
  echoed := by
    intro c' member running
    obtain ⟨c,there,same⟩ := (forall₂_mem alike).2 c' member
    simp only [dispatched,same.key]
    exact good.echoed c there (same.status.symm.trans running)

theorem Base.fresh {s : Traffic} (base : s.Base) {α : Type} {log : List (Option Nat × α)}
    (logged : log.map Prod.fst ⊆ s.pushed.map Prod.fst ++ s.arrived.map Prod.fst ++
      s.sent.map Prod.fst) : ofClient log (some s.server.next) = [] := by
  apply ofClient_other
  intro e member same
  obtain ⟨k,below,tag⟩ := base.tags e.1 (logged (List.mem_map_of_mem member))
  cases tag.symm.trans same
  exact Nat.lt_irrefl _ below

theorem accept_base {s : Traffic} (base : s.Base) {id : Nat}
    (apart : ∀ c ∈ s.server.clients, c.id ≠ id) (socket : Int) (now : Nat) :
    Base {s with server := s.server.acceptAt id socket now} where
  order := base.order
  pooled := base.pooled
  apart := by
    simp only [Server.acceptAt_buffers]
    exact base.apart
  below := by
    simp only [Server.acceptAt_buffers]
    exact base.below
  ids := by
    simp only [Server.acceptAt,List.map_append,List.map_cons,List.map_nil]
    refine List.nodup_append.mpr ⟨base.ids,List.pairwise_singleton _ _,?_⟩
    intro a here b there same
    obtain ⟨c,member,rfl⟩ := List.mem_map.mp here
    rw [List.mem_singleton.mp there] at same
    exact apart c member same
  keys := by
    simp only [Server.acceptAt,List.map_append,List.map_cons,List.map_nil]
    refine List.nodup_append.mpr ⟨base.keys,List.pairwise_singleton _ _,?_⟩
    intro a here b there same
    obtain ⟨c,member,rfl⟩ := List.mem_map.mp here
    obtain ⟨k,below,key⟩ := (base.clients c member).tagged
    rw [List.mem_singleton.mp there,key] at same
    cases same
    exact Nat.lt_irrefl _ below
  tags := by
    intro t member
    obtain ⟨k,below,same⟩ := base.tags t member
    exact ⟨k,Nat.lt_succ_of_lt below,same⟩
  clients := by
    intro c member
    rcases List.mem_append.mp member with old | new
    · refine (base.clients c old).keep ?_ rfl rfl (.refl c)
      exact Nat.le_succ _
    · rw [List.mem_singleton.mp new]
      have pushed : ofClient s.pushed (some s.server.next) = [] :=
        base.fresh fun t there => List.mem_append_left _ (List.mem_append_left _ there)
      have arrived : ofClient s.arrived (some s.server.next) = [] :=
        base.fresh fun t there => List.mem_append_left _ (List.mem_append_right _ there)
      have nothing : parse wire [] = ([],some []) := parse_more rfl
      refine ⟨⟨s.server.next,Nat.lt_succ_self _,rfl⟩,?_,?_,?_⟩
      · intro e there same
        have named : e.2 ∈ ofClient s.pushed (some s.server.next) :=
          List.mem_map_of_mem (List.mem_filter.mpr ⟨there,decide_eq_true same⟩)
        rw [pushed] at named
        cases named
      · show Session.Left _ (parse wire (ofClient s.arrived (some s.server.next)).flatten).2
        rw [arrived,List.flatten_nil,nothing]
        exact Ctx.attached_left id s.server.next now socket none s.server.next s.server.env
      · show (ofClient s.pushed (some s.server.next)).map Message.bytes =
          (parse wire (ofClient s.arrived (some s.server.next)).flatten).1
        rw [pushed,arrived,List.flatten_nil,nothing]
        rfl

theorem accept_good {s : Traffic} (base : s.Base) (good : s.Good) (id : Nat) (socket : Int)
    (now : Nat) : Good {s with server := s.server.acceptAt id socket now} where
  live := good.live
  echoed := by
    intro c member running
    rcases List.mem_append.mp member with old | new
    · exact good.echoed c old running
    · rw [List.mem_singleton.mp new]
      have sent : ofClient s.sent (some s.server.next) = [] :=
        base.fresh fun t there => List.mem_append_right _ there
      have pushed : ofClient (s.pushed.take s.server.dispatched.length)
          (some s.server.next) = [] := by
        refine base.fresh fun t there => List.mem_append_left _ (List.mem_append_left _ ?_)
        rw [List.map_take] at there
        exact List.mem_of_mem_take there
      show ofClient s.sent (some s.server.next) =
        frames (ofClient (s.pushed.take s.server.dispatched.length) (some s.server.next))
      rw [sent,pushed]
      rfl

theorem visit_cases {s t : Server} {i : UpdateIn} {c : Session} (visited : s.visited = some c)
    (stepped : s.step (.visit i) = some t) :
    ∃ n d, s.phase = .visiting n ∧ s.clients[n]? = some c ∧
      (⟨c,s.env⟩ : Ctx).update i = some d ∧ t.clients = s.clients.set n d.self ∧
      t.env = d.env ∧ t.next = s.next ∧ t.dispatched = s.dispatched := by
  unfold Server.visited at visited
  simp only [Server.step] at stepped
  split at visited
  next n phase =>
    simp only [phase,visited] at stepped
    split at stepped
    · contradiction
    next d ran =>
      cases stepped
      exact ⟨n,d,phase,visited,ran,rfl,rfl,rfl,rfl⟩
  next => contradiction

/-- One client taken apart from the rest, whose addresses and keys are others. -/
theorem Base.one {s : Traffic} (base : s.Base) {n : Nat} {c : Session}
    (at_ : s.server.clients[n]? = some c) :
    ∃ rest, s.server.clients.Perm (c::rest) ∧
      (∀ b, (s.server.clients.set n b).Perm (b::rest)) ∧
      (s.server.clients.eraseIdx n).Perm rest ∧
      ∀ e ∈ rest, e ∈ s.server.clients ∧ e.key ≠ c.key ∧ e.id ≠ c.id := by
  obtain ⟨rest,perm,set,erase⟩ := set_perm at_
  refine ⟨rest,perm,set,erase,fun e member => ?_⟩
  have keys := (perm.map fun c => c.key).nodup_iff.mp base.keys
  have ids := (perm.map fun c => c.id).nodup_iff.mp base.ids
  refine ⟨perm.mem_iff.mpr (List.mem_cons_of_mem _ member),fun same => ?_,fun same => ?_⟩
  · exact (List.nodup_cons.mp keys).1 (List.mem_map.mpr ⟨e,member,same⟩)
  · exact (List.nodup_cons.mp ids).1 (List.mem_map.mpr ⟨e,member,same⟩)

section Visit

variable {s : Traffic} {c : Session} {n : Nat} {i : UpdateIn} {d : Ctx} {t : Server}
  (base : s.Base) (at_ : s.server.clients[n]? = some c)
  (ran : (⟨c,s.server.env⟩ : Ctx).update i = some d)
include base at_ ran

theorem visit_pushed : ∃ ms,
    d.env.recvQue.waiting = s.server.env.recvQue.waiting ++ ms ∧
    d.env.recvQue.waiting.drop s.server.env.recvQue.waiting.length = ms ∧
    (∀ m ∈ ms, m.ptr = some c.id) ∧
    (d.self.Left (parse wire (ofClient (s.arrived ++ [(c.key,(⟨c,s.server.env⟩ : Ctx).arrived i)])
      c.key).flatten).2) ∧
    (ofClient s.pushed c.key ++ ms).map Message.bytes = (parse wire
      (ofClient (s.arrived ++ [(c.key,(⟨c,s.server.env⟩ : Ctx).arrived i)]) c.key).flatten).1 := by
  obtain ⟨_,_,ms,waiting,owned⟩ := Ctx.update_owns ran
  have client := base.clients c (List.mem_of_getElem? at_)
  have settled : Settled wire (parse wire (ofClient s.arrived c.key).flatten).2 := by
    cases left : (parse wire (ofClient s.arrived c.key).flatten).2 with
    | none => trivial
    | some rest => exact parse_rest left
  obtain ⟨left,ms',waiting',bytes⟩ := (Ctx.update_intake ran).absorbs _ settled client.left
  have dropped : d.env.recvQue.waiting.drop s.server.env.recvQue.waiting.length = ms := by
    rw [waiting,List.drop_left]
  have same : ms' = ms := by
    rw [← dropped,waiting',List.drop_left]
  subst same
  have stream : (ofClient (s.arrived ++ [(c.key,(⟨c,s.server.env⟩ : Ctx).arrived i)])
      c.key).flatten = (ofClient s.arrived c.key).flatten ++
        (⟨c,s.server.env⟩ : Ctx).arrived i := by
    rw [ofClient_append,ofClient_single,if_pos rfl,List.flatten_append,List.flatten_singleton]
  refine ⟨ms',waiting,dropped,owned,?_,?_⟩
  · rw [stream,parse_append]
    exact left
  · rw [stream,parse_append,List.map_append,bytes,client.packets]

/-- The buffers after an `Update`: those before and new ones. -/
theorem visit_buffers (clients : t.clients = s.server.clients.set n d.self) (env : t.env = d.env) :
    t.buffers.Nodup ∧ ∀ a ∈ t.buffers, a < t.env.next := by
  obtain ⟨next,⟨made,nodup,range,perm⟩,_⟩ := (Ctx.update_intake ran).toShuffle
  obtain ⟨rest,before,after⟩ := filterMap_set_perm (f := fun c => c.msgRecv.map (·.addr)) at_
  have old : s.server.buffers.Perm ((⟨c,s.server.env⟩ : Ctx).buffers ++ rest) := by
    rw [Server.buffers,Ctx.buffers,List.append_assoc]
    exact before.append_left _
  have new : t.buffers.Perm ((⟨c,s.server.env⟩ : Ctx).buffers ++ rest ++ made) := by
    rw [Server.buffers,clients,env]
    apply ((after d.self).append_left _).trans
    rw [← List.append_assoc]
    apply (perm.append_right rest).trans
    rw [List.append_assoc,List.append_assoc]
    exact List.perm_append_comm.append_left _
  have apart := old.nodup_iff.mp base.apart
  rw [env]
  constructor
  · refine new.nodup_iff.mpr (List.nodup_append.mpr ⟨apart,nodup,?_⟩)
    rintro a here b there rfl
    have low := base.below a (old.mem_iff.mpr here)
    have high := (range a there).1
    exact absurd low (Nat.not_lt.mpr high)
  · intro a member
    rcases List.mem_append.mp (new.mem_iff.mp member) with here | there
    · exact Nat.lt_of_lt_of_le (base.below a (old.mem_iff.mpr here)) next
    · exact (range a there).2

end Visit

theorem map_set_same {α : Type} {f : Session → α} {cs : List Session} {n : Nat} {c c' : Session}
    (at_ : cs[n]? = some c) (same : f c' = f c) : (cs.set n c').map f = cs.map f := by
  obtain ⟨inside,here⟩ := List.getElem?_eq_some_iff.mp at_
  rw [List.map_set,same,← List.map_set,← here,List.set_getElem_self]

theorem visit_base {s : Traffic} (base : s.Base) {c : Session} {i : UpdateIn} {t : Server}
    (visited : s.server.visited = some c) (went : s.server.step (.visit i) = some t) :
    (s.received c i t).Base := by
  obtain ⟨n,d,_,at_,ran,clients,env,next,dispatched⟩ := visit_cases visited went
  obtain ⟨ms,waiting,dropped,owned,left,packets⟩ := visit_pushed base at_ ran
  obtain ⟨apart,below⟩ := visit_buffers base at_ ran clients env
  obtain ⟨id,key,_⟩ := Ctx.update_owns ran
  obtain ⟨rest,perm,set,_,others⟩ := base.one at_
  have client := base.clients c (List.mem_of_getElem? at_)
  have pushed : (s.received c i t).pushed = s.pushed ++ ms.map fun m => (c.key,m) := by
    rw [received,env,dropped]
  have own := ofClient_own c.key ms
  constructor
  case order =>
    rw [pushed]
    simp only [received,env,dispatched,waiting,List.map_append,List.map_map,Function.comp_def,
      List.map_id',base.order,List.append_assoc]
  case pooled =>
    intro m member
    simp only [received,env,dispatched] at member ⊢
    exact base.pooled m ((Ctx.update_intake ran).recycle.subset member)
  case apart => exact apart
  case below => exact below
  case ids =>
    simp only [received,clients,map_set_same (f := fun c => c.id) at_ id]
    exact base.ids
  case keys =>
    simp only [received,clients,map_set_same (f := fun c => c.key) at_ key]
    exact base.keys
  case tags =>
    intro tag member
    show ∃ k < t.next, tag = some k
    rw [next]
    rw [pushed] at member
    simp only [received,List.map_append,List.map_map,List.mem_append,List.mem_map,
      Function.comp_apply,List.mem_cons,List.not_mem_nil,or_false] at member
    have old (here : tag ∈ s.pushed.map Prod.fst ++ s.arrived.map Prod.fst ++
        s.sent.map Prod.fst) := base.tags tag here
    simp only [List.mem_append,List.mem_map] at old
    rcases member with ((before | ⟨m,_,rfl⟩) | before | ⟨e,rfl,rfl⟩) | before
    · exact old (.inl (.inl before))
    · exact client.tagged
    · exact old (.inl (.inr before))
    · exact client.tagged
    · exact old (.inr before)
  case clients =>
    intro e member
    have member : e ∈ s.server.clients.set n d.self := clients ▸ member
    rcases List.mem_cons.mp ((set d.self).mem_iff.mp member) with rfl | there
    · refine ⟨?_,?_,?_,?_⟩
      · obtain ⟨k,low,tag⟩ := client.tagged
        exact ⟨k,next.symm ▸ low,key.trans tag⟩
      · rw [pushed,key,id]
        intro e there same
        rcases List.mem_append.mp there with old | new
        · exact client.own e old same
        · obtain ⟨m,isNew,rfl⟩ := List.mem_map.mp new
          exact owned m isNew
      · rw [key]
        exact left
      · rw [pushed,key,ofClient_append,own]
        exact packets
    · obtain ⟨before,otherKey,_⟩ := others e there
      have kept := base.clients e before
      have noneArrived : ofClient (s.received c i t).arrived e.key = ofClient s.arrived e.key := by
        rw [received,ofClient_append,ofClient_single,if_neg otherKey.symm,List.append_nil]
      have nonePushed : ofClient (s.received c i t).pushed e.key = ofClient s.pushed e.key := by
        have none_ : ofClient (ms.map fun m => (c.key,m)) e.key = [] := by
          apply ofClient_other
          intro e' new same
          obtain ⟨m,_,rfl⟩ := List.mem_map.mp new
          exact otherKey same.symm
        rw [pushed,ofClient_append,none_,List.append_nil]
      refine ⟨?_,?_,?_,?_⟩
      · obtain ⟨k,low,tag⟩ := kept.tagged
        exact ⟨k,next.symm ▸ low,tag⟩
      · rw [pushed]
        intro e' there same
        rcases List.mem_append.mp there with old | new
        · exact kept.own e' old same
        · obtain ⟨m,_,rfl⟩ := List.mem_map.mp new
          exact absurd same.symm otherKey
      · rw [noneArrived]
        exact kept.left
      · rw [noneArrived,nonePushed]
        exact kept.packets

theorem update_running {c c' : Ctx} {i : UpdateIn} (ran : c.update i = some c')
    (running : c'.self.status = .running) : c.self.status = .running := by
  cases locked : i.locked with
  | false =>
    rw [Ctx.update_skipped _ locked] at ran
    cases ran
    exact running
  | true =>
    obtain ⟨d,io,_,finished⟩ := Ctx.update_cases locked ran
    rw [finished.status] at running
    obtain ⟨before,_⟩ := Session.endStatus_running running
    obtain ⟨_,_,_,⟨kept,_⟩ | ⟨was,_⟩⟩ := io.calls
    · exact kept.symm.trans before
    · exact was

theorem Base.handled {s : Traffic} (base : s.Base) :
    s.server.dispatched.length ≤ s.pushed.length := by
  have length := congrArg List.length base.order
  simp only [List.length_map,List.length_append] at length
  omega

theorem visit_good {s : Traffic} (base : s.Base) (good : s.Good) {c : Session} {i : UpdateIn}
    {t : Server} (visited : s.server.visited = some c)
    (went : s.server.step (.visit i) = some t) : (s.received c i t).Good where
  live := good.live
  echoed := by
    obtain ⟨n,d,_,at_,ran,clients,env,next,dispatched⟩ := visit_cases visited went
    obtain ⟨rest,perm,set,_,others⟩ := base.one at_
    intro e member running
    show ofClient s.sent e.key =
      frames (ofClient ((s.received c i t).pushed.take t.dispatched.length) e.key)
    rw [dispatched]
    simp only [received,List.take_append_of_le_length base.handled]
    have member : e ∈ s.server.clients.set n d.self := clients ▸ member
    rcases List.mem_cons.mp ((set d.self).mem_iff.mp member) with rfl | there
    · rw [(Ctx.update_owns ran).2.1]
      exact good.echoed c (List.mem_of_getElem? at_) (update_running ran running)
    · exact good.echoed e (others e there).1 running

theorem dispose_cases {s t : Server} (stepped : s.step .dispose = some t) :
    t.clients.Sublist s.clients ∧ t.env.recvQue = s.env.recvQue ∧ t.env.next = s.env.next ∧
      t.next = s.next ∧ t.dispatched = s.dispatched := by
  simp only [Server.step] at stepped
  split at stepped
  · obtain ⟨c,_,rfl⟩ := Option.map_eq_some_iff.mp stepped
    unfold Server.dispose
    split
    · refine ⟨List.eraseIdx_sublist _ _,Ctx.destroy_recvQue _,?_,rfl,rfl⟩
      simp only [Ctx.destroy]
      split <;> split <;> rfl
    · exact ⟨List.Sublist.refl _,rfl,rfl,rfl,rfl⟩
  · contradiction

theorem dispose_base {s : Traffic} (base : s.Base) {t : Server}
    (stepped : s.server.step .dispose = some t) : Base {s with server := t} := by
  obtain ⟨clients,recvQue,fresh,next,dispatched⟩ := dispose_cases stepped
  have buffers : t.buffers.Sublist s.server.buffers := by
    rw [Server.buffers,Server.buffers,recvQue]
    exact (clients.filterMap _).append_left _
  constructor
  case order =>
    simp only [recvQue,dispatched]
    exact base.order
  case pooled =>
    simp only [recvQue,dispatched]
    exact base.pooled
  case apart => exact base.apart.sublist buffers
  case below =>
    intro a member
    simp only [fresh]
    exact base.below a (buffers.subset member)
  case ids => exact base.ids.sublist (clients.map _)
  case keys => exact base.keys.sublist (clients.map _)
  case tags =>
    simp only [next]
    exact base.tags
  case clients =>
    intro c member
    have below : s.server.next ≤ ({s with server := t} : Traffic).server.next := next.ge
    exact (base.clients c (clients.subset member)).keep below rfl rfl (.refl c)

theorem dispose_good {s : Traffic} (good : s.Good) {t : Server}
    (stepped : s.server.step .dispose = some t) : Good {s with server := t} where
  live := good.live
  echoed := by
    obtain ⟨clients,_,_,_,dispatched⟩ := dispose_cases stepped
    intro c member running
    simp only [dispatched]
    exact good.echoed c (clients.subset member) running

theorem start_base (interval : Nat) : (start interval).Base := by
  constructor <;> simp [start,Server.start,Env.initial,Server.buffers]

theorem start_good (interval : Nat) : (start interval).Good := by
  constructor <;> simp [start,Server.start]

end Traffic

end Pworld.Frame
