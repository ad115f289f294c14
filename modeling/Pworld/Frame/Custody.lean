import Pworld.Net.Circulation

/-! Whose a message is, in a process with any number of sessions: the operations of the
sessions and the frame loop hand messages on, and two holders never have the same one. -/
namespace Pworld.Frame

open Net

structure Custody where
  sessions : List Session
  env : Env
  msg : Option Message  -- popped by the frame loop and not yet freed
  deriving DecidableEq

inductive CustodyOp where
  | create (id header now : Nat)
  | attach (n : Nat) (socket : Int) (key : Option Nat) (fresh : Nat)
  | callback (n events : Nat)
  | disconnect (n : Nat)
  | send (n : Nat) (data : Bytes)
  | postSend (n : Nat) (rets : List SendRet)
  | onRecv (n : Nat) (data : Bytes) (now : Nat)
  | update (n : Nat) (i : UpdateIn)
  | pop
  | free
  | delete (n : Nat)
  deriving DecidableEq

namespace Custody

def start : Custody := ⟨[],.initial,none⟩

def onSession (w : Custody) (n : Nat) (f : Ctx → Option Ctx) : Option Custody :=
  (w.sessions[n]?).bind fun s =>
    (f ⟨s,w.env⟩).map fun c => {w with sessions := w.sessions.set n c.self, env := c.env}

def step (w : Custody) : CustodyOp → Option Custody
  | .create id header now => some {w with sessions := w.sessions ++ [.new id header now]}
  | .attach n socket key fresh =>
    w.onSession n fun c => some {c with self := c.self.attach socket key fresh}
  | .callback n events => w.onSession n fun c => some {c with self := c.self.sessionCb events}
  | .disconnect n => w.onSession n fun c => some {c with self := c.self.Disconnect}
  | .send n data => w.onSession n fun c => c.send data
  | .postSend n rets => w.onSession n fun c => c.postSend rets
  | .onRecv n data now => w.onSession n fun c => c.onRecv data now
  | .update n i => w.onSession n fun c => c.update i
  -- the loop frees a message before it pops the next; `on_msg` runs between the two
  | .pop =>
    if w.msg = none then some {w with
      msg := w.env.recvQue.popMessage.1
      env := {w.env with recvQue := w.env.recvQue.popMessage.2}}
    else none
  | .free => w.msg.map fun m => {w with
      msg := none
      env := {w.env with recvQue := w.env.recvQue.freeMessage m}}
  | .delete n => (w.sessions[n]?).map fun s => {w with
      sessions := w.sessions.eraseIdx n
      env := (⟨s,w.env⟩ : Ctx).destroy.env}

/-- Every place of the process with the message that is in it. -/
def places (w : Custody) : List (Pool × Nat) :=
  w.env.places ++ w.sessions.flatMap Session.places ++ placed .recv w.msg.toList

def Moves (w w' : Custody) : Prop := Circulates w.env.next w'.env.next w.places w'.places

def Keeps (w w' : Custody) : Prop := Conserves w.env.next w'.env.next w.places w'.places

theorem onSession_keeps {w w' : Custody} {n : Nat} {f : Ctx → Option Ctx}
    (keeps : ∀ c c', f c = some c' → c.Keeps c') (ran : w.onSession n f = some w') :
    Keeps w w' := by
  obtain ⟨s,at_,ran⟩ := Option.bind_eq_some_iff.mp ran
  obtain ⟨c,done,rfl⟩ := Option.map_eq_some_iff.mp ran
  exact Conserves.set at_ _ (keeps _ _ done)

/-- The message that leaves the queue is the one in the loop's hands. -/
theorem pop_keeps (env : Env) (held : List (Pool × Nat)) : Conserves env.next env.next
    (env.places ++ held) (Env.places {env with recvQue := env.recvQue.popMessage.2} ++ held ++
      placed .recv env.recvQue.popMessage.1.toList) := by
  apply Conserves.of_count
  intro x
  unfold MessageQueue.popMessage
  cases waiting : env.recvQue.waiting with
  | nil =>
    simp only [Env.places,waiting,Option.toList_none,placed_nil,List.count_append,List.count_nil]
    omega
  | cons m rest =>
    simp only [Env.places,waiting,Option.toList_some,placed_append,placed_cons .recv m rest,
      List.count_append]
    omega

theorem free_keeps (env : Env) (held : List (Pool × Nat)) (m : Message) :
    Conserves env.next env.next (env.places ++ held ++ placed .recv [m])
      (Env.places {env with recvQue := env.recvQue.freeMessage m} ++ held) := by
  apply Conserves.of_count
  intro x
  simp only [Env.places,MessageQueue.freeMessage,placed_append,List.count_append]
  omega

/-- What a session destroyed leaves nowhere is what it had queued. -/
theorem delete_perm {w w' : Custody} {n : Nat} {s : Session} (at_ : w.sessions[n]? = some s)
    (stepped : w.step (.delete n) = some w') : w'.env.next = w.env.next ∧
      w'.env = (⟨s,w.env⟩ : Ctx).destroy.env ∧
      (w'.places ++ placed .send s.queSend).Perm w.places := by
  simp only [step,at_,Option.map_some,Option.some.injEq] at stepped
  subst stepped
  refine ⟨?_,rfl,?_⟩
  · simp only [Ctx.destroy]
    cases s.msgRecv <;> cases s.msgSend <;> rfl
  · obtain ⟨others,before,_,after⟩ := set_perm at_
    apply List.perm_iff_count.mpr
    intro x
    have gone := List.perm_iff_count.mp (Ctx.destroy_perm ⟨s,w.env⟩) x
    have held := List.perm_iff_count.mp (before.flatMap_right Session.places) x
    have left := List.perm_iff_count.mp (after.flatMap_right Session.places) x
    simp only [places,Ctx.places,List.flatMap_cons,List.count_append] at gone held left ⊢
    omega

/-- One operation hands messages on or makes them; only with a session can they go. -/
theorem step_keeps {w w' : Custody} {o : CustodyOp} (stepped : w.step o = some w')
    (stays : ∀ n, o ≠ .delete n) : Keeps w w' := by
  cases o with
  | create id header now =>
    cases stepped
    have same : (w.sessions ++ [Session.new id header now]).flatMap Session.places =
        w.sessions.flatMap Session.places := by
      rw [List.flatMap_append]
      exact List.append_nil _
    simp only [Keeps,places,same]
    exact .refl _ _
  | attach n socket key fresh =>
    apply onSession_keeps (f := fun c =>
      some {c with self := c.self.attach socket key fresh}) _ stepped
    intro c c' ran
    cases ran
    exact .of_places rfl rfl
  | callback n events =>
    apply onSession_keeps (f := fun c => some {c with self := c.self.sessionCb events}) _ stepped
    intro c c' ran
    cases ran
    exact .of_places rfl rfl
  | disconnect n =>
    apply onSession_keeps (f := fun c => some {c with self := c.self.Disconnect}) _ stepped
    intro c c' ran
    cases ran
    exact Ctx.disconnect_keeps c
  | send n data =>
    exact onSession_keeps (f := fun c => c.send data) (fun _ _ => Ctx.send_keeps) stepped
  | postSend n rets =>
    exact onSession_keeps (f := fun c => c.postSend rets) (fun _ _ => Ctx.postSend_keeps) stepped
  | onRecv n data now =>
    exact onSession_keeps (f := fun c => c.onRecv data now) (fun _ _ => Ctx.onRecv_keeps) stepped
  | update n i =>
    exact onSession_keeps (f := fun c => c.update i) (fun _ _ => Ctx.update_keeps) stepped
  | pop =>
    simp only [step] at stepped
    split at stepped
    next idle =>
      cases stepped
      have none_ : w.places = w.env.places ++ w.sessions.flatMap Session.places := by
        rw [places,idle]
        exact List.append_nil _
      rw [Keeps,none_]
      exact pop_keeps w.env _
    next => cases stepped
  | free =>
    obtain ⟨m,popped,rfl⟩ := Option.map_eq_some_iff.mp stepped
    have freed : w.places =
        w.env.places ++ w.sessions.flatMap Session.places ++ placed .recv [m] := by
      rw [places,popped]
      rfl
    have none_ (held : List (Pool × Nat)) :
        held ++ placed .recv (none : Option Message).toList = held := List.append_nil _
    simp only [Keeps,freed]
    rw [places,none_]
    exact free_keeps w.env _ m
  | delete n => exact absurd rfl (stays n)

theorem step_moves {w w' : Custody} {o : CustodyOp} (stepped : w.step o = some w') :
    Moves w w' := by
  by_cases delete : ∃ n, o = .delete n
  · obtain ⟨n,rfl⟩ := delete
    obtain ⟨s,at_,_⟩ := Option.map_eq_some_iff.mp stepped
    obtain ⟨next,_,perm⟩ := delete_perm at_ stepped
    rw [Moves,next]
    exact .of_gone _ perm
  · exact (step_keeps stepped fun n same => delete ⟨n,same⟩).circulates

/-- In every state of every run a message is in one place of the process, and none that
was on the receive side is ever on the send side, nor the reverse. -/
theorem messages_apart (os : List CustodyOp) : Runs.Always step (fun w =>
    (w.places.map Prod.snd).Nodup ∧ ∀ os', Runs.Always step (fun w' =>
      ∀ p q a, (p,a) ∈ w.places → (q,a) ∈ w'.places → p = q) w os') start os := by
  apply Runs.always_of_pres (fun w => Apart w.env.next w.places)
  · intro w apart
    refine ⟨apart.once,fun os' => ?_⟩
    apply Runs.always_of_pres (fun w' => Moves w w')
    · intro w' moves p q a before after
      exact moves.kind apart before after
    · intro w₁ o w₂ moves stepped
      exact moves.trans (step_moves stepped)
    · exact (Conserves.refl _ _).circulates
  · intro w o w' apart stepped
    exact (step_moves stepped).apart apart
  · exact Apart.empty _

/-- Every message a pool has given out is in some place: back in the pool, pushed, deleted, in
the loop's hands or with a session that is still there. -/
def AllHeld (w : Custody) : Prop :=
  ∀ a, Env.initial.next ≤ a → a < w.env.next → a ∈ w.places.map Prod.snd

/-- A session that is destroyed has nothing queued. -/
def Drained (w : Custody) (o : CustodyOp) : Prop :=
  ∀ n s, o = .delete n → w.sessions[n]? = some s → s.queSend = []

def Distinct (w : Custody) : Prop := Apart w.env.next w.places ∧ Moves start w

theorem distinct_start : start.Distinct := ⟨Apart.empty _,(Conserves.refl _ _).circulates⟩

theorem distinct_step {w w' : Custody} {o : CustodyOp} (distinct : w.Distinct)
    (stepped : w.step o = some w') : w'.Distinct :=
  ⟨(step_moves stepped).apart distinct.1,distinct.2.trans (step_moves stepped)⟩

/-- What was queued when its session was destroyed was given out, and is nowhere. -/
theorem queued_lost {w w' : Custody} {n : Nat} {s : Session} {m : Message} (distinct : w.Distinct)
    (at_ : w.sessions[n]? = some s) (stepped : w.step (.delete n) = some w')
    (queued : m ∈ s.queSend) : Env.initial.next ≤ m.addr ∧ m.addr < w'.env.next ∧
      m.addr ∉ w'.places.map Prod.snd := by
  obtain ⟨next,_,perm⟩ := delete_perm at_ stepped
  have member : (Pool.send,m.addr) ∈ placed .send s.queSend := List.mem_map_of_mem queued
  have before : (Pool.send,m.addr) ∈ w.places := perm.mem_iff.mp (List.mem_append_right _ member)
  refine ⟨?_,?_,?_⟩
  · rcases distinct.2.old before with here | new
    · cases here
    · exact new
  · rw [next]
    exact distinct.1.made _ before
  · have once := (perm.map Prod.snd).nodup_iff.mpr distinct.1.once
    rw [List.map_append] at once
    intro kept
    exact (List.nodup_append.mp once).2.2 _ kept _ (List.mem_map_of_mem member) rfl

theorem queSend_eq_nil {w w' : Custody} {n : Nat} {s : Session} (distinct : w.Distinct)
    (at_ : w.sessions[n]? = some s) (stepped : w.step (.delete n) = some w')
    (kept : ∀ m ∈ s.queSend, Env.initial.next ≤ m.addr → m.addr < w'.env.next →
      m.addr ∈ w'.places.map Prod.snd) : s.queSend = [] := by
  apply List.eq_nil_iff_forall_not_mem.mpr
  intro m queued
  obtain ⟨low,high,lost⟩ := queued_lost distinct at_ stepped queued
  exact lost (kept m queued low high)

theorem allHeld_step {w w' : Custody} {o : CustodyOp} (distinct : w.Distinct) (held : w.AllHeld)
    (stepped : w.step o = some w') : w'.AllHeld ↔ w.Drained o := by
  by_cases delete : ∃ n, o = .delete n
  · obtain ⟨n,rfl⟩ := delete
    obtain ⟨s,at_,_⟩ := Option.map_eq_some_iff.mp stepped
    constructor
    · intro held' n' s' same at'
      cases same
      cases Option.some.inj (at_.symm.trans at')
      exact queSend_eq_nil distinct at_ stepped fun m _ => held' m.addr
    · intro drained
      obtain ⟨next,_,perm⟩ := delete_perm at_ stepped
      rw [drained n s rfl at_,placed_nil,List.append_nil] at perm
      intro a low high
      rw [next] at high
      exact (perm.map Prod.snd).mem_iff.mpr (held a low high)
  · have stays (n : Nat) (same : o = .delete n) : False := delete ⟨n,same⟩
    constructor
    · intro _ n s same
      exact absurd same (stays n)
    · intro _
      exact (step_keeps stepped stays).all held

/-- Destroying a session brings all it holds to the queues or deletes it exactly when it has
nothing queued. -/
theorem delete_returns_iff {w w' : Custody} {n : Nat} {s : Session} (distinct : w.Distinct)
    (at_ : w.sessions[n]? = some s) (stepped : w.step (.delete n) = some w') :
    (∀ x ∈ s.places, x ∈ w'.env.places) ↔ s.queSend = [] := by
  constructor
  · intro returned
    apply queSend_eq_nil distinct at_ stepped
    intro m queued _ _
    have held : (Pool.send,m.addr) ∈ s.places :=
      List.mem_append_right _ (List.mem_map_of_mem (List.mem_append_left _ queued))
    have kept := returned _ held
    exact List.mem_map_of_mem (List.mem_append_left _ (List.mem_append_left _ kept))
  · intro empty x held
    have perm := Ctx.destroy_perm ⟨s,w.env⟩
    rw [empty,placed_nil,List.append_nil] at perm
    rw [(delete_perm at_ stepped).2.1]
    exact perm.mem_iff.mpr (List.mem_append_right _ held)

/-- No message is lost in a run exactly when no session is destroyed with messages still queued;
each session destroyed gives back what it holds exactly when it has none. -/
theorem destroyed_sessions_give_back (os : List CustodyOp) (w : Custody)
    (ran : Runs.run step start os = some w) :
    (Runs.Always step AllHeld start os ↔ Runs.Meets step Drained start os) ∧
      ∀ n s w', w.sessions[n]? = some s → w.step (.delete n) = some w' →
        ((∀ x ∈ s.places, x ∈ w'.env.places) ↔ s.queSend = []) := by
  constructor
  · have both : Runs.Always step AllHeld start os ↔
        Runs.Always step (fun w => w.Distinct ∧ w.AllHeld) start os :=
      Runs.always_congr Distinct (fun _ _ _ => distinct_step)
        (fun w distinct => (and_iff_right distinct).symm) distinct_start
    rw [both]
    apply Runs.always_iff_meets (fun w => w.Distinct ∧ w.AllHeld) _ _ ran
    · intro w o w' inv stepped
      rw [and_iff_right (distinct_step inv.1 stepped)]
      exact allHeld_step inv.1 inv.2 stepped
    · refine ⟨distinct_start,?_⟩
      intro a low high
      exact absurd high (Nat.not_lt.mpr low)
  · intro n s w' at_ stepped
    have distinct := Runs.run_pres Distinct (fun _ _ _ => distinct_step) distinct_start ran
    exact delete_returns_iff distinct at_ stepped

/-- Two bytes sent, and the peer ends the connection when they are written. -/
def orderly : List CustodyOp :=
  [.create 1 2 0,.attach 0 5 none 6,.send 0 [7,8],.update 0 ⟨true,0,[.again],[.sent 6],0,0⟩,
    .callback 0 epollHup,.update 0 ⟨true,0,[.eof],[],0,0⟩,.update 0 ⟨true,0,[],[],0,0⟩]

theorem destroyed_sessions_give_back_orderly :
    ∃ w s w', Runs.run step start orderly = some w ∧ w.sessions[0]? = some s ∧
      w.step (.delete 0) = some w' ∧ ∀ x ∈ s.places, x ∈ w'.env.places := by
  have drained : (Runs.run step start orderly).bind (fun w =>
      (w.sessions[0]?).bind fun s => (w.step (.delete 0)).map fun _ => s.queSend) = some [] := by
    decide +kernel
  obtain ⟨w,ran,drained⟩ := Option.bind_eq_some_iff.mp drained
  obtain ⟨s,at_,drained⟩ := Option.bind_eq_some_iff.mp drained
  obtain ⟨w',stepped,empty⟩ := Option.map_eq_some_iff.mp drained
  exact ⟨w,s,w',ran,at_,stepped,
    ((destroyed_sessions_give_back orderly w ran).2 0 s w' at_ stepped).mpr empty⟩

/-- The peer resets the connection before what was sent could be written. -/
def cutOff : List CustodyOp :=
  [.create 1 2 0,.attach 0 5 none 6,.send 0 [7,8],.callback 0 (epollErr ||| epollHup),
    .update 0 ⟨true,104,[.err 104],[],0,0⟩,.update 0 ⟨true,0,[],[],0,0⟩]

theorem cutOff_loses_buffer :
    ∃ w s w', Runs.run step start cutOff = some w ∧ w.sessions[0]? = some s ∧
      s.Disposable = true ∧ w.step (.delete 0) = some w' ∧ ¬ w'.AllHeld := by
  have lost : (Runs.run step start cutOff).bind (fun w =>
      (w.sessions[0]?).bind fun s => (w.step (.delete 0)).map fun w' =>
        (s.Disposable,w'.env.next,w'.places)) = some (true,101,[]) := by
    decide +kernel
  obtain ⟨w,ran,lost⟩ := Option.bind_eq_some_iff.mp lost
  obtain ⟨s,at_,lost⟩ := Option.bind_eq_some_iff.mp lost
  obtain ⟨w',stepped,same⟩ := Option.map_eq_some_iff.mp lost
  simp only [Prod.mk.injEq] at same
  obtain ⟨disposable,next,nowhere⟩ := same
  refine ⟨w,s,w',ran,at_,disposable,stepped,?_⟩
  intro held
  have there := held 100 (Nat.le_refl _) (by omega)
  rw [nowhere] at there
  cases there

end Custody

end Pworld.Frame
