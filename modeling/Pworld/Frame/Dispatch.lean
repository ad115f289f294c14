import Pworld.Frame.Traffic

/-! Messages reach `on_msg` in the order they were pushed, whatever the interleaving
and the budget; and a session is sent its own packets and no others, in the runs in
which no message outlives its session at an address that is in use again. -/
namespace Pworld.Frame

open Net Framing

namespace Traffic

theorem send_next {c d : Ctx} {data : Bytes} (ran : c.send data = some d) :
    c.env.next ≤ d.env.next := by
  have opened (e : Ctx) : e.env.next ≤ e.openBack.env.next := by
    unfold Ctx.openBack Ctx.applySend
    split
    · simp only
      split <;> omega
    · exact Nat.le_refl _
  have sends {e f : Ctx} {bytes : Bytes} (ran : e._send bytes = some f) :
      e.env.next ≤ f.env.next := by
    refine Loop.iterate_partial (fun s => e.env.next ≤ s.1.env.next)
      (fun f => e.env.next ≤ f.env.next) ?_ ?_ (Nat.le_refl _) ran
    · rintro ⟨g,bytes⟩ s' before again
      simp only [Ctx._sendBody] at again
      split at again
      · cases again
      · split at again
        · cases again
        · cases again
          exact Nat.le_trans before (opened g)
    · rintro ⟨g,bytes⟩ r before left
      simp only [Ctx._sendBody] at left
      split at left
      · cases left
        exact before
      · split at left <;> cases left
  unfold Ctx.send at ran
  split at ran
  · cases ran
    exact Nat.le_refl _
  · split at ran
    · contradiction
    next e first => exact (sends first).trans (sends ran)

theorem find_some {s : Server} {ptr : Option Nat} {n : Nat} {c : Session}
    (found : s.find ptr = some (n,c)) : s.clients[n]? = some c ∧ some c.id = ptr := by
  obtain ⟨i,first,at_⟩ := Option.bind_eq_some_iff.mp found
  obtain ⟨e,there,pair⟩ := Option.map_eq_some_iff.mp at_
  cases pair
  obtain ⟨inside,here,_⟩ := List.findIdx?_eq_some_iff_getElem.mp first
  obtain ⟨_,same⟩ := List.getElem?_eq_some_iff.mp there
  rw [same] at here
  exact ⟨there,by simpa using here⟩

theorem find_none {s : Server} {ptr : Option Nat} (missing : s.find ptr = none) :
    ∀ c ∈ s.clients, some c.id ≠ ptr := by
  intro c member same
  cases first : s.clients.findIdx? fun c => some c.id == ptr with
  | none =>
    have other := List.findIdx?_eq_none_iff.mp first c member
    simp [same] at other
  | some n =>
    obtain ⟨inside,_⟩ := List.findIdx?_eq_some_iff_getElem.mp first
    rw [Server.find,first,Option.bind_some,List.getElem?_eq_getElem inside] at missing
    cases missing

/-- `on_msg` changes the sending side of one session at most. -/
theorem onMsg_alike {s t : Server} {m : Message} (ran : s.onMsg m = some t) :
    List.Forall₂ Alike s.clients t.clients ∧ t.env.recvQue = s.env.recvQue ∧
      s.env.next ≤ t.env.next ∧ t.next = s.next ∧
      t.dispatched = s.dispatched ++ [⟨m,s.alive m.ptr⟩] := by
  unfold Server.onMsg at ran
  simp only at ran
  split at ran
  · cases ran
    exact ⟨alike_refl _,rfl,Nat.le_refl _,rfl,rfl⟩
  · split at ran
    · cases ran
      exact ⟨alike_refl _,rfl,Nat.le_refl _,rfl,rfl⟩
    next n c found =>
      split at ran
      · cases ran
      next d sent =>
        cases ran
        obtain ⟨self,recvQue⟩ := Ctx.send_self sent
        refine ⟨forall₂_set .refl (find_some found).1 ?_,recvQue,send_next sent,rfl,rfl⟩
        rw [self]
        exact ⟨rfl,rfl,rfl,rfl,rfl,rfl⟩

theorem dispatch_cases {s t : Server} {tick : Nat} {m : Message} {rest : List Message}
    (waiting : s.env.recvQue.waiting = m::rest) (stepped : s.step (.dispatch tick) = some t) :
    List.Forall₂ Alike s.clients t.clients ∧ t.env.recvQue.waiting = rest ∧
      t.env.recvQue.recycle = s.env.recvQue.recycle ++ [m] ∧ s.env.next ≤ t.env.next ∧
      t.next = s.next ∧ t.dispatched = s.dispatched ++ [⟨m,s.alive m.ptr⟩] := by
  simp only [Server.step,MessageQueue.popMessage,waiting] at stepped
  split at stepped
  · obtain ⟨u,ran,rfl⟩ := Option.map_eq_some_iff.mp stepped
    obtain ⟨alike,recvQue,fresh,next,dispatched⟩ := onMsg_alike ran
    refine ⟨alike,?_,?_,fresh,next,dispatched⟩
    · simp only [Server.freeMsg,MessageQueue.freeMessage,recvQue]
    · simp only [Server.freeMsg,MessageQueue.freeMessage,recvQue]
  · contradiction

theorem dispatch_idle {s t : Server} {tick : Nat} (waiting : s.env.recvQue.waiting = [])
    (stepped : s.step (.dispatch tick) = some t) :
    t.clients = s.clients ∧ t.env = s.env ∧ t.next = s.next ∧ t.dispatched = s.dispatched := by
  simp only [Server.step,MessageQueue.popMessage,waiting] at stepped
  split at stepped
  · cases stepped
    exact ⟨rfl,rfl,rfl,rfl⟩
  · contradiction

theorem Base.front {s : Traffic} (base : s.Base) {m : Message} {rest : List Message}
    (waiting : s.server.env.recvQue.waiting = m::rest) :
    ∃ key, s.pushed[s.server.dispatched.length]? = some (key,m) := by
  have at_ : (s.pushed.map Prod.snd)[s.server.dispatched.length]? = some m := by
    rw [base.order,List.getElem?_append_right (by simp),waiting]
    simp
  rw [List.getElem?_map] at at_
  obtain ⟨⟨key,_⟩,there,rfl⟩ := Option.map_eq_some_iff.mp at_
  exact ⟨key,there⟩

theorem frames_append (ms more : List Message) : frames (ms ++ more) = frames ms ++ frames more := by
  simp [frames]

section Dispatch

variable {s : Traffic} {t : Server} {m : Message} {rest : List Message} {tick : Nat}
  (base : s.Base) (waiting : s.server.env.recvQue.waiting = m::rest)
  (stepped : s.server.step (.dispatch tick) = some t)
include base waiting stepped

theorem dispatch_base : Base {s.handled m with server := t} := by
  obtain ⟨alike,after,pool,fresh,next,dispatched⟩ := dispatch_cases waiting stepped
  have pushed : (s.handled m).pushed = s.pushed := by
    unfold handled
    split
    · rfl
    · split <;> rfl
  have arrived : (s.handled m).arrived = s.arrived := by
    unfold handled
    split
    · rfl
    · split <;> rfl
  have buffers : t.buffers.Perm s.server.buffers := by
    rw [Server.buffers,Server.buffers,after,pool,waiting,alike_buffers alike]
    refine List.Perm.append_right _ (List.Perm.map _ ?_)
    rw [← List.append_assoc]
    exact List.perm_append_singleton m _
  constructor
  case order =>
    simp only [pushed,dispatched,after,base.order,waiting,List.map_append,List.map_cons,
      List.map_nil,List.append_assoc,List.singleton_append]
  case pooled =>
    intro n member
    simp only [pool,dispatched,List.map_append,List.map_cons,List.map_nil] at member ⊢
    rcases List.mem_append.mp member with old | new
    · exact List.mem_append_left _ (base.pooled n old)
    · exact List.mem_append_right _ new
  case apart => exact buffers.nodup_iff.mpr base.apart
  case below =>
    intro a member
    exact Nat.lt_of_lt_of_le (base.below a (buffers.mem_iff.mp member)) fresh
  case ids =>
    simp only [alike_map (fun _ _ same => same.id) alike]
    exact base.ids
  case keys =>
    simp only [alike_map (fun _ _ same => same.key) alike]
    exact base.keys
  case tags =>
    intro tag member
    simp only [next]
    rw [pushed,arrived] at member
    rcases List.mem_append.mp member with old | sent
    · exact base.tags tag (List.mem_append_left _ old)
    · have before (there : tag ∈ s.sent.map Prod.fst) :=
        base.tags tag (List.mem_append_right _ there)
      unfold handled at sent
      split at sent
      · exact before sent
      · split at sent
        · exact before sent
        next n c found =>
          rw [List.map_append] at sent
          rcases List.mem_append.mp sent with old | new
          · exact before old
          · rw [List.mem_singleton.mp new]
            exact (base.clients c (List.mem_of_getElem? (find_some found).1)).tagged
  case clients =>
    intro c' member
    obtain ⟨c,there,same⟩ := (forall₂_mem alike).2 c' member
    exact (base.clients c there).keep next.ge pushed arrived same

/-- A message reaches whom it is from, or nobody that is running: nothing is mixed. -/
theorem dispatch_good (good : s.Good) :
    Good {s.handled m with server := t} ↔ s.Timely (.server (.dispatch tick)) := by
  obtain ⟨alike,_,_,_,_,dispatched⟩ := dispatch_cases waiting stepped
  obtain ⟨tag,front⟩ := base.front waiting
  have took : s.pushed.take (s.server.dispatched.length + 1) =
      s.pushed.take s.server.dispatched.length ++ [(tag,m)] := by
    rw [List.take_add_one,front]
    rfl
  have timely : s.Timely (.server (.dispatch tick)) ↔ (m.opcode ≠ 0 →
      ∃ c ∈ s.server.clients, some c.id = m.ptr ∧ (c.key = tag ∨ c.status ≠ .running)) := by
    simp only [Timely,front,Option.mem_some_iff,forall_eq']
  have more (key : Option Nat) :
      frames (ofClient (s.pushed.take t.dispatched.length) key) =
        frames (ofClient (s.pushed.take s.server.dispatched.length) key) ++
          frames (if tag = key then [m] else []) := by
    rw [dispatched,List.length_append,List.length_singleton,took,ofClient_append,frames_append,
      ofClient_single]
  rw [timely]
  by_cases answered : m.opcode = 0
  · have none_ (key : Option Nat) : frames (if tag = key then [m] else []) = [] := by
      split <;> simp [frames,answered]
    have same : s.handled m = s := by rw [handled,if_pos answered]
    refine ⟨fun _ nonzero => absurd answered nonzero,fun _ => ?_⟩
    rw [same]
    refine ⟨good.live,fun c' member running => ?_⟩
    obtain ⟨c,there,like⟩ := (forall₂_mem alike).2 c' member
    show ofClient s.sent c'.key = frames (ofClient (s.pushed.take t.dispatched.length) c'.key)
    rw [more,none_,List.append_nil,like.key]
    exact good.echoed c there (like.status.symm.trans running)
  · cases found : s.server.find m.ptr with
    | none =>
      constructor
      · intro after
        have stray := after.live
        simp only [handled,if_neg answered,found] at stray
        cases stray
      · intro named
        obtain ⟨c,member,ptr,_⟩ := named answered
        exact absurd ptr (find_none found c member)
    | some hit =>
      obtain ⟨n,c⟩ := hit
      obtain ⟨at_,ptr⟩ := find_some found
      have there := List.mem_of_getElem? at_
      have same : s.handled m = {s with sent := s.sent ++ [(c.key,m.bytes)]} := by
        rw [handled,if_neg answered,found]
      have own : frames [m] = [m.bytes] := by simp [frames,answered]
      have only (e : Session) (member : e ∈ s.server.clients) (id : e.id = c.id) : e = c :=
        List.inj_on_of_nodup_map base.ids member there id
      rw [same]
      constructor
      · intro after _
        refine ⟨c,there,ptr,?_⟩
        by_contra wrong
        rw [not_or,not_not] at wrong
        obtain ⟨other,running⟩ := wrong
        obtain ⟨c',member,like⟩ := (forall₂_mem alike).1 c there
        have echoed : ofClient (s.sent ++ [(c.key,m.bytes)]) c'.key =
            frames (ofClient (s.pushed.take t.dispatched.length) c'.key) :=
          after.echoed c' member (like.status.trans running)
        rw [more,like.key,ofClient_append,ofClient_single,if_pos rfl,if_neg (Ne.symm other),
          good.echoed c there running] at echoed
        simp [frames] at echoed
      · intro named
        obtain ⟨e,member,ptr',right⟩ := named answered
        cases only e member (Option.some.inj (ptr'.trans ptr.symm))
        refine ⟨good.live,fun d' member running => ?_⟩
        obtain ⟨d,before,like⟩ := (forall₂_mem alike).2 d' member
        have running : d.status = .running := like.status.symm.trans running
        have appended : (if c.key = d.key then [m.bytes] else []) =
            frames (if tag = d.key then [m] else []) := by
          rcases right with mine | stopped
          · rw [mine]
            split
            · exact own.symm
            · rfl
          · have other : c.key ≠ d.key := fun key => by
              cases List.inj_on_of_nodup_map base.keys there before key
              exact stopped running
            have notMine : tag ≠ d.key := fun key => by
              have named := (base.clients d before).own _ (List.mem_of_getElem? front) key
              cases only d before (Option.some.inj (named.symm.trans ptr.symm))
              exact other rfl
            rw [if_neg other,if_neg notMine]
            rfl
        show ofClient (s.sent ++ [(c.key,m.bytes)]) d'.key =
          frames (ofClient (s.pushed.take t.dispatched.length) d'.key)
        rw [more,like.key,ofClient_append,ofClient_single,appended,good.echoed d before running]

end Dispatch

/-- The operations that touch no session's queues and no log. -/
def aside : ServerOp → Bool
  | .accept _ _ | .visit _ | .dispose | .dispatch _ => false
  | _ => true

theorem aside_alike {s t : Server} {op : ServerOp} (other : aside op = true)
    (stepped : s.step op = some t) :
    List.Forall₂ Alike s.clients t.clients ∧ t.env = s.env ∧ t.next = s.next ∧
      t.dispatched = s.dispatched := by
  cases op with
  | accept | visit | dispose | dispatch => cases other
  | collect ready =>
    simp only [Server.step] at stepped
    split_ifs at stepped
    cases stepped
    exact ⟨alike_refl _,rfl,rfl,rfl⟩
  | callback =>
    simp only [Server.step] at stepped
    split at stepped
    next key events rest _ _ =>
      cases stepped
      refine ⟨List.forall₂_map_right_iff.mpr (List.forall₂_same.mpr fun c _ => ?_),rfl,rfl,rfl⟩
      split
      · exact ⟨rfl,rfl,rfl,rfl,rfl,rfl⟩
      · exact .refl c
    next => cases stepped
  | complete =>
    simp only [Server.step] at stepped
    split at stepped
    · cases stepped
      exact ⟨alike_refl _,rfl,rfl,rfl⟩
    · cases stepped
  | frame t1 =>
    simp only [Server.step] at stepped
    split_ifs at stepped
    cases stepped
    exact ⟨alike_refl _,rfl,rfl,rfl⟩
  | leave =>
    simp only [Server.step] at stepped
    split at stepped
    next =>
      split_ifs at stepped
      cases stepped
      exact ⟨alike_refl _,rfl,rfl,rfl⟩
    next => cases stepped

/-- What each operation is, with what it leaves to show. -/
theorem step_cases {s s' : Traffic} {op : TrafficOp} (stepped : s.step op = some s') :
    (∃ id socket now, op = .accept id socket now ∧ (∀ c ∈ s.server.clients, c.id ≠ id) ∧
      s' = {s with server := s.server.acceptAt id socket now}) ∨
    (∃ i c t, op = .server (.visit i) ∧ s.server.visited = some c ∧
      s.server.step (.visit i) = some t ∧ s' = s.received c i t) ∨
    (∃ tick m rest t, op = .server (.dispatch tick) ∧ s.server.env.recvQue.waiting = m::rest ∧
      s.server.step (.dispatch tick) = some t ∧ s' = {s.handled m with server := t}) ∨
    (∃ tick t, op = .server (.dispatch tick) ∧ s.server.env.recvQue.waiting = [] ∧
      s.server.step (.dispatch tick) = some t ∧ s' = {s with server := t}) ∨
    (∃ t, op = .server .dispose ∧ s.server.step .dispose = some t ∧ s' = {s with server := t}) ∨
    ∃ o t, op = .server o ∧ aside o = true ∧ s.server.step o = some t ∧
      s' = {s with server := t} := by
  cases op with
  | accept id socket now =>
    simp only [step] at stepped
    split_ifs at stepped with free
    exact .inl ⟨id,socket,now,rfl,free.2.2,(Option.some.inj stepped).symm⟩
  | server o =>
    have rest (same : s.step (.server o) = (s.server.step o).map fun t => {s with server := t})
        (other : aside o = true) : ∃ o' t, TrafficOp.server o = .server o' ∧ aside o' = true ∧
          s.server.step o' = some t ∧ s' = {s with server := t} := by
      obtain ⟨t,went,rfl⟩ := Option.map_eq_some_iff.mp (same.symm.trans stepped)
      exact ⟨o,t,rfl,other,went,rfl⟩
    cases o with
    | accept => cases stepped
    | visit i =>
      obtain ⟨c,visited,mapped⟩ := Option.bind_eq_some_iff.mp stepped
      obtain ⟨t,went,rfl⟩ := Option.map_eq_some_iff.mp mapped
      exact .inr (.inl ⟨i,c,t,rfl,visited,went,rfl⟩)
    | dispatch tick =>
      obtain ⟨t,went,same⟩ := Option.map_eq_some_iff.mp stepped
      cases waiting : s.server.env.recvQue.waiting with
      | nil =>
        rw [waiting] at same
        exact .inr (.inr (.inr (.inl ⟨tick,t,rfl,rfl,went,same.symm⟩)))
      | cons m rest =>
        rw [waiting] at same
        exact .inr (.inr (.inl ⟨tick,m,rest,t,rfl,rfl,went,same.symm⟩))
    | dispose =>
      obtain ⟨t,went,rfl⟩ := Option.map_eq_some_iff.mp stepped
      exact .inr (.inr (.inr (.inr (.inl ⟨t,rfl,went,rfl⟩))))
    | collect | callback | complete | frame | leave =>
      exact .inr (.inr (.inr (.inr (.inr (rest rfl rfl)))))

theorem step_base {s s' : Traffic} {op : TrafficOp} (base : s.Base)
    (stepped : s.step op = some s') : s'.Base := by
  rcases step_cases stepped with ⟨id,socket,now,-,apart,rfl⟩ | ⟨i,c,t,-,visited,went,rfl⟩ |
    ⟨tick,m,rest,t,-,waiting,went,rfl⟩ | ⟨tick,t,-,waiting,went,rfl⟩ | ⟨t,-,went,rfl⟩ |
    ⟨o,t,-,other,went,rfl⟩
  · exact accept_base base apart socket now
  · exact visit_base base visited went
  · exact dispatch_base base waiting went
  · obtain ⟨clients,env,next,dispatched⟩ := dispatch_idle waiting went
    exact base.alike (clients ▸ alike_refl _) env next dispatched
  · exact dispose_base base went
  · obtain ⟨alike,env,next,dispatched⟩ := aside_alike other went
    exact base.alike alike env next dispatched

theorem step_good {s s' : Traffic} {op : TrafficOp} (base : s.Base) (good : s.Good)
    (stepped : s.step op = some s') : s'.Good ↔ s.Timely op := by
  rcases step_cases stepped with ⟨id,socket,now,rfl,apart,rfl⟩ | ⟨i,c,t,rfl,visited,went,rfl⟩ |
    ⟨tick,m,rest,t,rfl,waiting,went,rfl⟩ | ⟨tick,t,rfl,waiting,went,rfl⟩ | ⟨t,rfl,went,rfl⟩ |
    ⟨o,t,rfl,other,went,rfl⟩
  · exact iff_of_true (accept_good base good id socket now) trivial
  · exact iff_of_true (visit_good base good visited went) trivial
  · exact dispatch_good base waiting went good
  · obtain ⟨clients,_,_,dispatched⟩ := dispatch_idle waiting went
    apply iff_of_true (good.alike (clients ▸ alike_refl _) dispatched)
    intro e front
    have length := congrArg List.length base.order
    rw [waiting,List.append_nil,List.length_map,List.length_map] at length
    rw [List.getElem?_eq_none length.le] at front
    cases front
  · exact iff_of_true (dispose_good good went) trivial
  · obtain ⟨alike,_,_,dispatched⟩ := aside_alike other went
    apply iff_of_true (good.alike alike dispatched)
    cases o <;> trivial

/-- Whatever the interleaving and the budget, messages are handled in the order they were
pushed, and every session has the packets of its own stream. -/
theorem run_base (interval : Nat) (ops : List TrafficOp) (s : Traffic)
    (ran : Runs.run step (start interval) ops = some s) : s.Base :=
  Runs.run_pres Base (fun _ _ _ base stepped => step_base base stepped) (start_base interval) ran

theorem echoed_iff_timely (interval : Nat) (ops : List TrafficOp) (s : Traffic)
    (ran : Runs.run step (start interval) ops = some s) :
    Runs.Always step Echoed (start interval) ops ↔
      Runs.Meets step Timely (start interval) ops := by
  have exact_step (s : Traffic) (op : TrafficOp) (s' : Traffic) (inv : s.Base ∧ s.Good)
      (stepped : s.step op = some s') : (s'.Base ∧ s'.Good) ↔ s.Timely op :=
    (and_iff_right (step_base inv.1 stepped)).trans (step_good inv.1 inv.2 stepped)
  refine Iff.trans ?_ (Runs.always_iff_meets _ exact_step
    ⟨start_base interval,start_good interval⟩ ran)
  exact Runs.always_congr Base (fun _ _ _ base stepped => step_base base stepped)
    (fun _ base => base.echoed_iff) (start_base interval)

def echoPacket : Bytes := [2,0,0,0,7,8]

/-- Two clients, a packet in two parts and a budget that one message spends. -/
def crowded : List TrafficOp :=
  [.accept 7 5 1,.accept 9 6 1,.server (.frame 0),
    .server (.visit ⟨true,0,[.data (echoPacket ++ [2,0,0]) 1],[],1,1⟩),.server .dispose,
    .server (.visit ⟨true,0,[.data [2,0,0,0,9,9] 1],[],1,1⟩),.server .dispose,.server .leave,
    .server (.dispatch 40),.server (.frame 50),
    .server (.visit ⟨true,0,[.data ([0,9,9] ++ echoPacket) 2],[.sent 6],2,2⟩),.server .dispose,
    .server (.visit ⟨true,0,[.again],[],2,2⟩),.server .dispose,.server .leave,
    .server (.dispatch 60),.server (.dispatch 61),.server (.dispatch 95)]

theorem crowded_echoed : ∃ s, Runs.run step (start 40) crowded = some s ∧
    s.sent = [(some 0,[7,8]),(some 1,[9,9]),(some 0,[9,9]),(some 0,[7,8])] ∧
    Runs.Always step Echoed (start 40) crowded := by
  have done : (Runs.run step (start 40) crowded).map sent =
      some [(some 0,[7,8]),(some 1,[9,9]),(some 0,[9,9]),(some 0,[7,8])] := by decide +kernel
  have timely : Runs.Meets step Timely (start 40) crowded := by decide +kernel
  obtain ⟨s,ran,sent⟩ := Option.map_eq_some_iff.mp done
  exact ⟨s,ran,sent,(echoed_iff_timely 40 crowded s ran).mpr timely⟩

/-- Three packets, a frame budget spent on each, a reset after the first, and a new
connection at the address of the one that is gone. -/
def reused : List TrafficOp :=
  [.accept 7 5 1,.server (.frame 0),
    .server (.visit ⟨true,0,[.data (echoPacket ++ echoPacket ++ echoPacket) 1],[],1,1⟩),
    .server .dispose,.server .leave,.server (.dispatch 40),
    .server (.frame 50),.server (.visit ⟨true,0,[.err 104],[],2,2⟩),.server .dispose,
    .server .leave,.server (.dispatch 90),
    .server (.frame 100),.server (.visit ⟨true,0,[],[],3,3⟩),.server .dispose,.server .leave,
    .accept 7 6 101,.server (.dispatch 141)]

/-- The new session is sent a packet that it never received. -/
theorem reused_mixed : ∃ s, Runs.run step (start 40) reused = some s ∧ s.stray = false ∧
    ofClient s.pushed (some 1) = [] ∧ ofClient s.sent (some 1) = [[7,8]] ∧ ¬ s.Echoed := by
  have done : (Runs.run step (start 40) reused).map (fun s =>
      (!s.stray && (ofClient s.pushed (some 1)).isEmpty,ofClient s.sent (some 1),
        s.server.clients.map fun c => (c.key,c.status))) =
      some (true,[[7,8]],[(some 1,.running)]) := by decide +kernel
  obtain ⟨s,ran,same⟩ := Option.map_eq_some_iff.mp done
  simp only [Prod.mk.injEq,Bool.and_eq_true,Bool.not_eq_true',List.isEmpty_iff] at same
  obtain ⟨⟨live,pushed⟩,sent,clients⟩ := same
  refine ⟨s,ran,live,pushed,sent,fun echoed => ?_⟩
  obtain ⟨c,only,fields⟩ := List.map_eq_singleton_iff.mp clients
  simp only [Prod.mk.injEq] at fields
  have frames_ := echoed.echoed c (by rw [only]; exact List.mem_cons_self) fields.2
  have none_ : ofClient (s.pushed.take s.server.dispatched.length) (some 1) = [] := by
    refine List.eq_nil_of_sublist_nil (pushed ▸ ?_)
    exact ((List.take_sublist _ _).filter _).map _
  rw [fields.1,sent,none_] at frames_
  cases frames_

end Traffic

end Pworld.Frame
