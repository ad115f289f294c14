import Pworld.Frame.Server
import Pworld.Net.Update
import Pworld.Support.Ledger

/-! What outlives a deleted session: its waiting messages and the events already
collected for its key. Both are safe in the runs in which no session is deleted
while they name it. -/
namespace Pworld.Frame

open Net

namespace Server

/-- The client that `delete` is about to be called on. -/
def doomed (s : Server) : Option Session :=
  match s.phase with
  | .disposing n => (s.clients[n]?).filter Session.Disposable
  | _ => none

/-- No message of a session is waiting when it is deleted. -/
def Drained (s : Server) : ServerOp → Prop
  | .dispose => ∀ c ∈ s.doomed, ∀ m ∈ s.env.recvQue.waiting, m.ptr ≠ some c.id
  | _ => True

/-- No event of a session is in the batch, and none half handled, when it is deleted. -/
def Recalled (s : Server) : ServerOp → Prop
  | .dispose => ∀ c ∈ s.doomed, ∀ key ∈ c.key,
      key ∉ s.batch.map Prod.fst ∧ s.current ≠ some key
  | _ => True

instance (s : Server) (op : ServerOp) : Decidable (s.Drained op) := by
  cases op <;> unfold Drained <;> infer_instance

instance (s : Server) (op : ServerOp) : Decidable (s.Recalled op) := by
  cases op <;> unfold Recalled <;> infer_instance

theorem doomed_mem {s : Server} {n : Nat} {c : Session} (phase : s.phase = .disposing n)
    (at_ : s.clients[n]? = some c) (disposable : c.Disposable = true) : c ∈ s.doomed := by
  simp [doomed,phase,at_,disposable]

end Server

/-- What does not change while a session is only called back or sent to. -/
structure Like (c c' : Session) : Prop where
  id : c'.id = c.id
  key : c'.key = c.key
  socket : c'.socket = c.socket
  status : c'.status = c.status

theorem Like.refl (c : Session) : Like c c := ⟨rfl,rfl,rfl,rfl⟩

instance : Std.Refl Like := ⟨.refl⟩

/-- Every client of the one list is still in the other. -/
def Kept (before after : List Session) : Prop :=
  ∀ c ∈ before, ∃ c' ∈ after, c'.id = c.id ∧ c'.key = c.key

theorem Kept.refl (cs : List Session) : Kept cs cs := fun c member => ⟨c,member,rfl,rfl⟩

theorem Kept.like {cs cs' : List Session} (like : List.Forall₂ Like cs cs') : Kept cs cs' := by
  intro c member
  obtain ⟨c',member',same⟩ := (forall₂_mem like).1 c member
  exact ⟨c',member',same.id,same.key⟩

theorem Kept.set {cs : List Session} {n : Nat} {c c' : Session} (at_ : cs[n]? = some c)
    (id : c'.id = c.id) (key : c'.key = c.key) : Kept cs (cs.set n c') := by
  intro e member
  obtain ⟨i,bound,same⟩ := List.mem_iff_getElem.mp member
  by_cases here : n = i
  · subst here
    rw [List.getElem?_eq_getElem bound,same] at at_
    cases Option.some.inj at_
    exact ⟨c',List.mem_set bound c',id,key⟩
  · refine ⟨e,?_,rfl,rfl⟩
    rw [← same]
    exact List.mem_iff_getElem.mpr ⟨i,by simpa using bound,List.getElem_set_ne here _⟩

theorem mem_eraseIdx_ne {cs : List Session} {n : Nat} {c e : Session} (at_ : cs[n]? = some c)
    (member : e ∈ cs) (other : e ≠ c) : e ∈ cs.eraseIdx n := by
  obtain ⟨i,bound,same⟩ := List.mem_iff_getElem.mp member
  refine List.mem_eraseIdx_iff_getElem.mpr ⟨i,bound,?_,same⟩
  rintro rfl
  rw [List.getElem?_eq_getElem bound,same] at at_
  exact other (Option.some.inj at_)

namespace Server

theorem alive_iff (s : Server) (ptr : Option Nat) :
    s.alive ptr = true ↔ ∃ c ∈ s.clients, some c.id = ptr := by
  simp [alive]

theorem keyAlive_iff (s : Server) (key : Nat) :
    s.keyAlive key = true ↔ ∃ c ∈ s.clients, c.key = some key := by
  simp [keyAlive]

theorem alive_kept {s s' : Server} (kept : Kept s.clients s'.clients) {ptr : Option Nat}
    (before : s.alive ptr = true) : s'.alive ptr = true := by
  obtain ⟨c,member,id⟩ := (alive_iff s ptr).mp before
  obtain ⟨c',member',id',_⟩ := kept c member
  exact (alive_iff s' ptr).mpr ⟨c',member',by rw [id',id]⟩

theorem keyAlive_kept {s s' : Server} (kept : Kept s.clients s'.clients) {key : Nat}
    (before : s.keyAlive key = true) : s'.keyAlive key = true := by
  obtain ⟨c,member,same⟩ := (keyAlive_iff s key).mp before
  obtain ⟨c',member',_,same'⟩ := kept c member
  exact (keyAlive_iff s' key).mpr ⟨c',member',by rw [same',same]⟩

/-- Handling a message touches the queues of one session and nothing else. -/
theorem onMsg_spec {s s' : Server} {m : Message} (ran : s.onMsg m = some s') :
    ∃ clients env, List.Forall₂ Like s.clients clients ∧ env.recvQue = s.env.recvQue ∧
      s' = {s with
        clients := clients, env := env, dispatched := s.dispatched ++ [⟨m,s.alive m.ptr⟩]} := by
  have same : List.Forall₂ Like s.clients s.clients := List.forall₂_refl _
  unfold onMsg at ran
  simp only at ran
  split at ran
  · cases Option.some.inj ran
    exact ⟨s.clients,s.env,same,rfl,rfl⟩
  · split at ran
    · cases Option.some.inj ran
      exact ⟨s.clients,s.env,same,rfl,rfl⟩
    next n c found =>
      split at ran
      · cases ran
      next d sent =>
        cases Option.some.inj ran
        obtain ⟨self,recvQue⟩ := Ctx.send_self sent
        refine ⟨s.clients.set n d.self,d.env,?_,recvQue,rfl⟩
        obtain ⟨i,_,at_⟩ := Option.bind_eq_some_iff.mp found
        obtain ⟨e,at_,pair⟩ := Option.map_eq_some_iff.mp at_
        cases pair
        apply forall₂_set .refl at_
        rw [self]
        exact ⟨rfl,rfl,rfl,rfl⟩

/-- Every waiting message names a client. -/
structure Owned (s : Server) : Prop where
  waiting : ∀ m ∈ s.env.recvQue.waiting, s.alive m.ptr = true
  dispatched : ∀ d ∈ s.dispatched, d.alive = true

theorem Owned.kept {s s' : Server} (owned : s.Owned) (kept : Kept s.clients s'.clients)
    (waiting : s'.env.recvQue.waiting = s.env.recvQue.waiting)
    (dispatched : s'.dispatched = s.dispatched) : s'.Owned := by
  constructor
  · intro m member
    rw [waiting] at member
    exact alive_kept kept (owned.waiting m member)
  · rw [dispatched]
    exact owned.dispatched

theorem owned_visit {s s' : Server} {i : UpdateIn} (owned : s.Owned)
    (stepped : s.step (.visit i) = some s') : s'.Owned := by
  simp only [step] at stepped
  split at stepped
  · split at stepped
    · cases stepped
    next c at_ =>
      split at stepped
      · cases stepped
      next d ran =>
        cases Option.some.inj stepped
        obtain ⟨id,key,ms,waiting,own⟩ := Ctx.update_owns ran
        have kept := Kept.set at_ id key
        constructor
        · intro m member
          simp only [waiting] at member
          rcases List.mem_append.mp member with old | new
          · exact alive_kept kept (owned.waiting m old)
          · refine alive_kept kept ((alive_iff s _).mpr ⟨c,List.mem_of_getElem? at_,?_⟩)
            exact (own m new).symm
        · exact owned.dispatched
  · cases stepped

theorem owned_dispose {s s' : Server} (owned : s.Owned) (drained : s.Drained .dispose)
    (stepped : s.step .dispose = some s') : s'.Owned := by
  simp only [step] at stepped
  split at stepped
  next n phase =>
    obtain ⟨c,at_,same⟩ := Option.map_eq_some_iff.mp stepped
    rw [← same]
    unfold dispose
    split
    next disposable =>
      constructor
      · intro m member
        simp only [Ctx.destroy_recvQue] at member
        obtain ⟨e,there,id⟩ := (alive_iff s _).mp (owned.waiting m member)
        have other : e ≠ c := by
          rintro rfl
          exact drained e (doomed_mem phase at_ disposable) m member id.symm
        exact (alive_iff _ _).mpr ⟨e,mem_eraseIdx_ne at_ there other,id⟩
      · exact owned.dispatched
    next => exact owned.kept (.refl _) rfl rfl
  · cases stepped

theorem owned_dispatch {s s' : Server} {tick : Nat} (owned : s.Owned)
    (stepped : s.step (.dispatch tick) = some s') : s'.Owned := by
  simp only [step] at stepped
  split at stepped
  · split at stepped
    next que popped =>
      cases Option.some.inj stepped
      exact owned.kept (.refl _) rfl rfl
    next m que popped =>
      obtain ⟨t,ran,same⟩ := Option.map_eq_some_iff.mp stepped
      obtain ⟨clients,env,like,recvQue,t_eq⟩ := onMsg_spec ran
      have front : s.env.recvQue.waiting = m :: que.waiting := by
        unfold MessageQueue.popMessage at popped
        split at popped
        · cases popped
        next first rest waiting =>
          cases popped
          exact waiting
      have kept := Kept.like like
      rw [← same,t_eq]
      constructor
      · intro n member
        have later : n ∈ que.waiting := by
          simp only [freeMsg,MessageQueue.freeMessage,recvQue] at member
          exact member
        refine alive_kept (s := s) kept (owned.waiting n ?_)
        rw [front]
        exact List.mem_cons_of_mem _ later
      · intro d member
        rcases List.mem_append.mp member with old | new
        · exact owned.dispatched d old
        · rw [List.mem_singleton.mp new]
          apply owned.waiting m
          rw [front]
          exact List.mem_cons_self
  · cases stepped

theorem owned_step {s s' : Server} {op : ServerOp} (owned : s.Owned) (drained : s.Drained op)
    (stepped : s.step op = some s') : s'.Owned := by
  cases op with
  | visit i => exact owned_visit owned stepped
  | dispose => exact owned_dispose owned drained stepped
  | dispatch tick => exact owned_dispatch owned stepped
  | accept socket now =>
    simp only [step] at stepped
    split_ifs at stepped
    cases Option.some.inj stepped
    exact owned.kept (fun c member => ⟨c,List.mem_append_left _ member,rfl,rfl⟩) rfl rfl
  | collect ready =>
    simp only [step] at stepped
    split_ifs at stepped
    cases Option.some.inj stepped
    exact owned.kept (.refl _) rfl rfl
  | callback =>
    simp only [step] at stepped
    split at stepped
    next key events rest =>
      cases Option.some.inj stepped
      refine owned.kept ?_ rfl rfl
      intro c member
      refine ⟨_,List.mem_map_of_mem member,?_⟩
      split <;> exact ⟨rfl,rfl⟩
    next => cases stepped
  | complete =>
    simp only [step] at stepped
    split at stepped
    next key current =>
      cases Option.some.inj stepped
      exact owned.kept (.refl _) rfl rfl
    next => cases stepped
  | frame t1 =>
    simp only [step] at stepped
    split_ifs at stepped
    cases Option.some.inj stepped
    exact owned.kept (.refl _) rfl rfl
  | leave =>
    simp only [step] at stepped
    split at stepped
    next n phase =>
      split_ifs at stepped
      cases Option.some.inj stepped
      exact owned.kept (.refl _) rfl rfl
    next => cases stepped

/-- Messages are only handled for sessions that exist, in every run in which no
session is deleted with messages of its own still waiting. -/
theorem dispatch_alive (interval : Nat) (ops : List ServerOp) (s : Server)
    (ran : Runs.run step (start interval) ops = some s)
    (drained : Runs.Meets step Drained (start interval) ops) :
    ∀ d ∈ s.dispatched, d.alive = true := by
  have owned : (start interval).Owned := ⟨by simp [start,Env.initial],by simp [start]⟩
  exact (Runs.run_inv Owned (fun _ _ _ inv ok stepped => owned_step inv ok stepped) owned drained
    ran).dispatched

/-- Three packets, a frame budget spent on each, and a reset after the first. -/
def backlog : List ServerOp :=
  let packet : Bytes := [2,0,0,0,7,8]
  [.accept 5 1,.frame 0,.visit ⟨true,0,[.data (packet ++ packet ++ packet) 1],[],1,1⟩,.dispose,
    .leave,.dispatch 40,
    .frame 50,.visit ⟨true,0,[.err 104],[],2,2⟩,.dispose,.leave,.dispatch 90,
    .frame 100,.visit ⟨true,0,[],[],3,3⟩,.dispose,.leave,.dispatch 101]

theorem backlog_dead_session : ∃ s, Runs.run step (start 40) backlog = some s ∧
    s.dispatched.map Dispatch.alive = [true,true,false] := by
  have ran : (Runs.run step (start 40) backlog).map (fun s => s.dispatched.map Dispatch.alive) =
      some [true,true,false] := by decide +kernel
  exact Option.map_eq_some_iff.mp ran

/-- The same packets with a budget that lasts. -/
def inBudget : List ServerOp :=
  backlog.take 5 ++ [.dispatch 1,.dispatch 2,.dispatch 3,.dispatch 4] ++
    (backlog.drop 6).take 4 ++ [.dispatch 51] ++ (backlog.drop 11).take 4

theorem dispatch_alive_in_budget : ∃ s, Runs.run step (start 40) inBudget = some s ∧
    s.clients = [] ∧ s.dispatched.length = 3 ∧ ∀ d ∈ s.dispatched, d.alive = true := by
  have done : (Runs.run step (start 40) inBudget).map (fun s => (s.clients,s.dispatched.length)) =
      some ([],3) := by decide +kernel
  have drained : Runs.Meets step Drained (start 40) inBudget := by decide +kernel
  obtain ⟨s,ran,same⟩ := Option.map_eq_some_iff.mp done
  simp only [Prod.mk.injEq] at same
  exact ⟨s,ran,same.1,same.2,dispatch_alive 40 inBudget s ran drained⟩

/-- Calls that register nothing only take the session's own key away. -/
theorem poll_unregistered {c : Session} {cs : List Call}
    (none_ : ∀ call ∈ cs, call.registers = false) {armed : List Nat} {key : Nat}
    (member : key ∈ cs.foldl (poll c) armed) :
    key ∈ armed ∧ (Call.close ∈ cs → c.key ≠ some key) := by
  induction cs generalizing armed with
  | nil => exact ⟨member,fun close => absurd close List.not_mem_nil⟩
  | cons call cs ih =>
    rw [List.foldl_cons] at member
    obtain ⟨there,closed⟩ := ih (fun c member => none_ c (List.mem_cons_of_mem _ member)) member
    have first := none_ call List.mem_cons_self
    cases call with
    | register => cases first
    | close =>
      simp only [poll,ne_eq,List.mem_filter,decide_eq_true_eq] at there
      exact ⟨there.1,fun _ => there.2⟩
    | _ =>
      refine ⟨there,fun close => ?_⟩
      rcases List.mem_cons.mp close with here | rest
      · cases here
      · exact closed rest

/-- After an `Update` a key is armed that was before, unless its descriptor is
closed, or that of the session, which then has a socket. -/
theorem poll_update {c : Session} {env : Env} {d : Ctx} {i : UpdateIn} {armed : List Nat}
    {key : Nat} (ran : (⟨c,env⟩ : Ctx).update i = some d)
    (member : key ∈ (d.self.trace.drop c.trace.length).foldl (poll c) armed) :
    key ∈ armed ∧ (c.key = some key → d.self.socket = c.socket) ∨
      c.key = some key ∧ d.self.status = .running := by
  cases locked : i.locked with
  | false =>
    rw [Ctx.update_skipped _ locked] at ran
    cases Option.some.inj ran
    rw [List.drop_length] at member
    exact .inl ⟨member,fun _ => rfl⟩
  | true =>
    obtain ⟨e,io,_,finished⟩ := Ctx.update_cases locked ran
    obtain ⟨cs,trace,quiet,_⟩ := io.calls
    obtain ⟨none_,open_⟩ := Call.io_keeps quiet
    generalize Session.hangs (⟨c,env⟩ : Ctx).self.events = hang at finished
    have whole : d.self.trace = c.trace ++ (cs ++ e.self.endCalls hang) := by
      rw [finished.trace,trace,List.append_assoc]
    have same : e.self.key = c.key := io.key
    rw [whole,List.drop_left,List.foldl_append] at member
    by_cases stays : e.self.endStatus hang = .running
    · obtain ⟨_,calls⟩ := Session.endStatus_running stays
      have socket : d.self.socket = c.socket := by
        have no_close : Call.close ∉ e.self.endCalls hang := by
          rw [calls]
          split <;> simp
        rw [finished.socket,if_neg no_close,io.socket]
      rw [calls] at member
      split at member
      · exact .inl ⟨(poll_unregistered none_ member).1,fun _ => socket⟩
      · rw [same] at member
        cases own : c.key with
        | none =>
          rw [own] at member
          exact .inl ⟨(poll_unregistered none_ member).1,fun _ => socket⟩
        | some k =>
          rw [own] at member
          have added : key ∈ cs.foldl (poll c) armed ∨ key = k := by
            simp only [List.foldl_cons,List.foldl_nil,poll] at member
            split at member
            · exact .inl member
            · simpa using member
          rcases added with old | new
          · exact .inl ⟨(poll_unregistered none_ old).1,fun _ => socket⟩
          · rw [new]
            exact .inr ⟨rfl,finished.status.trans stays⟩
    · obtain ⟨there,closed⟩ := poll_unregistered (Session.endCalls_registers stays) member
      refine .inl ⟨(poll_unregistered none_ there).1,fun own => ?_⟩
      have no_close : Call.close ∉ e.self.endCalls hang := fun close => closed close own
      rw [finished.socket,if_neg no_close,io.socket]

/-- Every key the poller can still reach belongs to a client. -/
structure Reached (s : Server) : Prop where
  armed : ∀ key ∈ s.armed, ∃ c ∈ s.clients, c.key = some key ∧ c.socket ≠ -1
  batch : ∀ key ∈ s.batch.map Prod.fst, s.keyAlive key = true
  current : ∀ key, s.current = some key → s.keyAlive key = true
  closed : ∀ c ∈ s.clients, c.status = .closed → c.socket = -1
  running : ∀ c ∈ s.clients, c.status = .running → c.socket ≠ -1
  accesses : ∀ a ∈ s.accesses, a.alive = true

theorem Reached.like {s s' : Server} (reached : s.Reached)
    (like : List.Forall₂ Like s.clients s'.clients) (armed : ∀ key ∈ s'.armed, key ∈ s.armed)
    (batch : ∀ key ∈ s'.batch.map Prod.fst, s.keyAlive key = true)
    (current : ∀ key, s'.current = some key → s.keyAlive key = true)
    (accesses : ∀ a ∈ s'.accesses, a.alive = true) : s'.Reached := by
  obtain ⟨forth,back⟩ := forall₂_mem like
  constructor
  · intro key member
    obtain ⟨c,there,own,socket⟩ := reached.armed key (armed key member)
    obtain ⟨c',there',same⟩ := forth c there
    exact ⟨c',there',by rw [same.key,own],by rwa [same.socket]⟩
  · exact fun key member => keyAlive_kept (.like like) (batch key member)
  · exact fun key called => keyAlive_kept (.like like) (current key called)
  · intro c' member closed
    obtain ⟨c,there,same⟩ := back c' member
    rw [same.socket]
    exact reached.closed c there (same.status.symm.trans closed)
  · intro c' member running
    obtain ⟨c,there,same⟩ := back c' member
    rw [same.socket]
    exact reached.running c there (same.status.symm.trans running)
  · exact accesses

theorem reached_visit {s s' : Server} {i : UpdateIn} (reached : s.Reached)
    (stepped : s.step (.visit i) = some s') : s'.Reached := by
  simp only [step] at stepped
  split at stepped
  next n phase =>
    split at stepped
    · cases stepped
    next c at_ =>
      have there := List.mem_of_getElem? at_
      split at stepped
      · cases stepped
      next d ran =>
        cases Option.some.inj stepped
        obtain ⟨id,key,-⟩ := Ctx.update_owns ran
        obtain ⟨closed,running⟩ := Ctx.update_socket ran (reached.closed c there)
          (reached.running c there)
        obtain ⟨bound,at_'⟩ := List.getElem?_eq_some_iff.mp at_
        have kept := Kept.set at_ id key
        have old (e : Session) (member : e ∈ s.clients.set n d.self) :
            e = d.self ∨ e ∈ s.clients := by
          rcases List.mem_or_eq_of_mem_set member with before | now_
          · exact .inr before
          · exact .inl now_
        constructor
        · intro k member
          rcases poll_update ran member with ⟨before,socket⟩ | ⟨own,ends⟩
          · obtain ⟨e,member_,own,open_⟩ := reached.armed k before
            by_cases here : e = c
            · subst here
              refine ⟨d.self,List.mem_set bound _,key.trans own,?_⟩
              rw [socket own]
              exact open_
            · obtain ⟨j,bound_,same⟩ := List.mem_iff_getElem.mp member_
              have apart : n ≠ j := by
                rintro rfl
                exact here (same.symm.trans at_')
              refine ⟨e,List.mem_iff_getElem.mpr ⟨j,by simpa using bound_,?_⟩,own,open_⟩
              rw [List.getElem_set_ne apart,same]
          · exact ⟨d.self,List.mem_set bound _,key.trans own,running ends⟩
        · exact fun k member => keyAlive_kept kept (reached.batch k member)
        · exact fun k called => keyAlive_kept kept (reached.current k called)
        · intro e member
          rcases old e member with rfl | before
          · exact closed
          · exact reached.closed e before
        · intro e member
          rcases old e member with rfl | before
          · exact running
          · exact reached.running e before
        · exact reached.accesses
  · cases stepped

theorem reached_dispose {s s' : Server} (reached : s.Reached) (recalled : s.Recalled .dispose)
    (stepped : s.step .dispose = some s') : s'.Reached := by
  simp only [step] at stepped
  split at stepped
  next n phase =>
    obtain ⟨c,at_,same⟩ := Option.map_eq_some_iff.mp stepped
    rw [← same]
    unfold dispose
    split
    next disposable =>
      have closed : c.status = .closed := by simpa [Session.Disposable] using disposable
      have calls := recalled c (doomed_mem phase at_ disposable)
      have gone := reached.closed c (List.mem_of_getElem? at_) closed
      have survives {k : Nat} (alive : s.keyAlive k = true) (other : c.key ≠ some k) :
          ∃ e ∈ s.clients.eraseIdx n, e.key = some k := by
        obtain ⟨e,there,own⟩ := (keyAlive_iff s k).mp alive
        refine ⟨e,mem_eraseIdx_ne at_ there ?_,own⟩
        rintro rfl
        exact other own
      constructor
      · intro k member
        obtain ⟨e,there,own,open_⟩ := reached.armed k member
        refine ⟨e,mem_eraseIdx_ne at_ there ?_,own,open_⟩
        rintro rfl
        exact open_ gone
      · intro k member
        exact (keyAlive_iff _ k).mpr (survives (reached.batch k member)
          fun own => (calls k own).1 member)
      · intro k called
        exact (keyAlive_iff _ k).mpr (survives (reached.current k called)
          fun own => (calls k own).2 called)
      · exact fun e member => reached.closed e (List.mem_of_mem_eraseIdx member)
      · exact fun e member => reached.running e (List.mem_of_mem_eraseIdx member)
      · exact reached.accesses
    next =>
      exact reached.like (List.forall₂_refl _) (fun _ h => h) reached.batch reached.current
        reached.accesses
  · cases stepped

theorem reached_accept {s s' : Server} {socket : Int} {now : Nat} (reached : s.Reached)
    (stepped : s.step (.accept socket now) = some s') : s'.Reached := by
  simp only [step] at stepped
  split_ifs at stepped with accepted
  cases Option.some.inj stepped
  have kept : Kept s.clients (s.onAccepted socket now).clients :=
    fun c member => ⟨c,List.mem_append_left _ member,rfl,rfl⟩
  have valid : socket ≠ -1 := by omega
  constructor
  · intro k member
    obtain ⟨c,there,own⟩ := reached.armed k member
    exact ⟨c,List.mem_append_left _ there,own⟩
  · exact fun k member => keyAlive_kept kept (reached.batch k member)
  · exact fun k called => keyAlive_kept kept (reached.current k called)
  · intro c member closed
    rcases List.mem_append.mp member with old | new
    · exact reached.closed c old closed
    · rw [List.mem_singleton.mp new] at closed
      cases closed
  · intro c member running
    rcases List.mem_append.mp member with old | new
    · exact reached.running c old running
    · rw [List.mem_singleton.mp new]
      exact valid
  · exact reached.accesses

theorem reached_callback {s s' : Server} (reached : s.Reached)
    (stepped : s.step .callback = some s') : s'.Reached := by
  simp only [step] at stepped
  split at stepped
  next key events rest batch _ =>
    cases Option.some.inj stepped
    have here : s.keyAlive key = true := reached.batch key (by rw [batch]; exact List.mem_cons_self)
    have like : List.Forall₂ Like s.clients
        (s.clients.map fun c => if c.key = some key then c.sessionCb events else c) := by
      refine List.forall₂_map_right_iff.mpr (List.forall₂_same.mpr fun c _ => ?_)
      split
      · exact ⟨rfl,rfl,rfl,rfl⟩
      · exact .refl c
    refine reached.like like (fun _ h => h) ?_ ?_ ?_
    · intro k member
      apply reached.batch k
      rw [batch]
      exact List.mem_cons_of_mem _ member
    · intro k called
      cases Option.some.inj called
      exact here
    · intro a member
      rcases List.mem_append.mp member with old | new
      · exact reached.accesses a old
      · rw [List.mem_singleton.mp new]
        exact here
  next => cases stepped

theorem reached_step {s s' : Server} {op : ServerOp} (reached : s.Reached)
    (recalled : s.Recalled op) (stepped : s.step op = some s') : s'.Reached := by
  have same : List.Forall₂ Like s.clients s.clients := List.forall₂_refl _
  cases op with
  | accept socket now => exact reached_accept reached stepped
  | callback => exact reached_callback reached stepped
  | visit i => exact reached_visit reached stepped
  | dispose => exact reached_dispose reached recalled stepped
  | collect ready =>
    simp only [step] at stepped
    split_ifs at stepped with ok
    cases Option.some.inj stepped
    refine reached.like same (fun _ h => List.mem_of_mem_filter h) ?_ reached.current
      reached.accesses
    intro k member
    obtain ⟨e,there,fst⟩ := List.mem_map.mp member
    obtain ⟨c,client,own,_⟩ := reached.armed e.1 (ok.2.2.2.2 e there).1
    exact (keyAlive_iff s k).mpr ⟨c,client,by rw [own,fst]⟩
  | complete =>
    simp only [step] at stepped
    split at stepped
    next key current =>
      cases Option.some.inj stepped
      refine reached.like same (fun _ h => h) reached.batch (fun k none_ => by cases none_) ?_
      intro a member
      rcases List.mem_append.mp member with old | new
      · exact reached.accesses a old
      · rw [List.mem_singleton.mp new]
        exact reached.current key current
    next => cases stepped
  | frame t1 =>
    simp only [step] at stepped
    split_ifs at stepped
    cases Option.some.inj stepped
    exact reached.like same (fun _ h => h) reached.batch reached.current reached.accesses
  | leave =>
    simp only [step] at stepped
    split at stepped
    next n phase =>
      split_ifs at stepped
      cases Option.some.inj stepped
      exact reached.like same (fun _ h => h) reached.batch reached.current reached.accesses
    next => cases stepped
  | dispatch tick =>
    simp only [step] at stepped
    split at stepped
    · split at stepped
      next que popped =>
        cases Option.some.inj stepped
        exact reached.like same (fun _ h => h) reached.batch reached.current reached.accesses
      next m que popped =>
        obtain ⟨t,ran,same_⟩ := Option.map_eq_some_iff.mp stepped
        obtain ⟨clients,env,like,_,t_eq⟩ := onMsg_spec ran
        rw [← same_,t_eq]
        exact reached.like like (fun _ h => h) reached.batch reached.current reached.accesses
    · cases stepped

/-- The poller only uses keys and sessions that exist, in every run in which no
session is deleted with an event of its own still in the batch or half handled. -/
theorem callback_alive (interval : Nat) (ops : List ServerOp) (s : Server)
    (ran : Runs.run step (start interval) ops = some s)
    (recalled : Runs.Meets step Recalled (start interval) ops) :
    ∀ a ∈ s.accesses, a.alive = true := by
  have reached : (start interval).Reached := by
    constructor <;> simp [start]
  exact (Runs.run_inv Reached (fun _ _ _ inv ok stepped => reached_step inv ok stepped) reached
    recalled ran).accesses

/-- An event collected before the socket is closed, called back after the delete. -/
def staleEvent : List ServerOp :=
  [.accept 5 1,.frame 0,.visit ⟨true,0,[.data [2,0,0,0,0,0] 1],[],1,1⟩,.dispose,.leave,
    .dispatch 1,.dispatch 1,
    .frame 50,.visit ⟨true,0,[.err 104],[],2,2⟩,.dispose,.leave,.dispatch 51,
    .frame 100,.collect [(0,epollIn ||| epollErr ||| epollHup ||| epollRdHup)],
    .visit ⟨true,0,[],[],3,3⟩,.dispose,.callback,.complete]

theorem stale_event_dead_key : ∃ s, Runs.run step (start 40) staleEvent = some s ∧
    s.accesses = [⟨0,false⟩,⟨0,false⟩] := by
  have ran : (Runs.run step (start 40) staleEvent).map accesses = some [⟨0,false⟩,⟨0,false⟩] := by
    decide +kernel
  exact Option.map_eq_some_iff.mp ran

/-- The same connection, its event called back before the frame that closes it. -/
def timelyEvent : List ServerOp :=
  staleEvent.take 12 ++ [.collect [(0,epollIn ||| epollErr)],.callback,.complete,
    .frame 100,.visit ⟨true,0,[],[],3,3⟩,.dispose,.leave,.dispatch 101,
    .frame 150,.visit ⟨true,0,[],[],4,4⟩,.dispose,.leave]

theorem callback_alive_timely : ∃ s, Runs.run step (start 40) timelyEvent = some s ∧
    s.clients = [] ∧ s.accesses.length = 2 ∧ ∀ a ∈ s.accesses, a.alive = true := by
  have done : (Runs.run step (start 40) timelyEvent).map (fun s => (s.clients,s.accesses.length)) =
      some ([],2) := by decide +kernel
  have recalled : Runs.Meets step Recalled (start 40) timelyEvent := by decide +kernel
  obtain ⟨s,ran,same⟩ := Option.map_eq_some_iff.mp done
  simp only [Prod.mk.injEq] at same
  exact ⟨s,ran,same.1,same.2,callback_alive 40 timelyEvent s ran recalled⟩

end Server

end Pworld.Frame
