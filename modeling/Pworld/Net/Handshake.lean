import Pworld.Net.Receive
import Pworld.Net.Update
import Pworld.Support.Runs

/-! The one-shot registration of a session between the kernel, the poller thread
and the logic thread. Callback and `Update` hold the mutex, so they are one step
each; the kernel fires between them. -/
namespace Pworld.Net

inductive ShakeOp where
  | fire (events : Nat)
  | callback
  | update (i : UpdateIn)
  | send (data : Bytes)
  | disconnect
  | others (env : Env)
  deriving DecidableEq

structure Shake where
  ctx : Ctx
  armed : Bool
  flight : List Nat  -- masks taken from the kernel, their callbacks not yet run
  updated : Bool
  overwritten : Bool  -- a callback has replaced a mask that `Update` had not seen
  deriving DecidableEq

/-- What a call does to the registration: `EPOLL_CTL_MOD` or `ADD` arms it, and the
kernel drops it with its descriptor. -/
def Call.arms (armed : Bool) : Call → Bool
  | .register _ _ => true
  | .close => false
  | _ => armed

namespace Shake

def step (s : Shake) : ShakeOp → Option Shake
  | .fire events =>
    if s.armed ∧ events ≠ 0 then some {s with armed := false, flight := s.flight ++ [events]}
    else none
  | .callback =>
    match s.flight with
    | [] => none
    | events::rest => some {s with
        ctx := {s.ctx with self := s.ctx.self.sessionCb events}
        flight := rest
        overwritten := s.overwritten || s.ctx.self.events != 0}
  | .update i =>
    match s.ctx.update i with
    | none => none
    | some c => some {s with
        ctx := c
        armed := (c.self.trace.drop s.ctx.self.trace.length).foldl Call.arms s.armed
        updated := s.updated || i.locked}
  | .send data =>
    match s.ctx.send data with
    | none => none
    | some c => some {s with ctx := c}
  | .disconnect => some {s with ctx := {s.ctx with self := s.ctx.self.Disconnect}}
  | .others env => some {s with ctx := {s.ctx with env := env}}

def Open (s : Shake) : Prop := Call.close ∉ s.ctx.self.trace

def InFlight (s : Shake) : Prop := s.flight ≠ []

/-- One registration, in one place at a time, and none while a mask is pending. -/
structure Inv (s : Shake) : Prop where
  inEpoll : s.Open → (s.ctx.self.inEpoll = true ↔ s.armed = true ∨ s.InFlight)
  apart : ¬ (s.armed = true ∧ s.InFlight)
  single : s.flight.length ≤ 1
  nonzero : ∀ events ∈ s.flight, events ≠ 0
  taken : s.armed = true ∨ s.InFlight → s.ctx.self.events = 0
  kept : s.overwritten = false
  waiting : s.updated = true → s.ctx.self.status = .running →
    s.ctx.self.inEpoll = true ∨ s.ctx.self.events ≠ 0
  running : s.ctx.self.status = .running → s.Open

theorem arms_unregistered {cs : List Call} (none_ : ∀ call ∈ cs, call.registers = false)
    (armed : Bool) : cs.foldl Call.arms armed = (armed && decide (Call.close ∉ cs)) := by
  induction cs generalizing armed with
  | nil => simp
  | cons call cs ih =>
    rw [List.foldl_cons,ih fun c member => none_ c (List.mem_cons_of_mem _ member)]
    have first := none_ call List.mem_cons_self
    cases call with
    | register => cases first
    | close => simp [Call.arms]
    | _ => simp [Call.arms]

theorem Inv.same {s s' : Shake} (inv : s.Inv) (trace : s'.ctx.self.trace = s.ctx.self.trace)
    (status : s'.ctx.self.status = s.ctx.self.status)
    (inEpoll : s'.ctx.self.inEpoll = s.ctx.self.inEpoll)
    (events : s'.ctx.self.events = s.ctx.self.events) (armed : s'.armed = s.armed)
    (flight : s'.flight = s.flight) (updated : s'.updated = s.updated)
    (overwritten : s'.overwritten = s.overwritten) : s'.Inv := by
  obtain ⟨in_,apart,single,nonzero,taken,kept,waiting,running⟩ := inv
  constructor
  · simpa only [Open,InFlight,trace,inEpoll,armed,flight] using in_
  · simpa only [InFlight,armed,flight] using apart
  · simpa only [flight] using single
  · simpa only [flight] using nonzero
  · simpa only [InFlight,armed,flight,events] using taken
  · simpa only [overwritten] using kept
  · simpa only [updated,status,inEpoll,events] using waiting
  · simpa only [status,Open,trace] using running

theorem inv_fire {s s' : Shake} {events : Nat} (inv : s.Inv)
    (stepped : s.step (.fire events) = some s') : s'.Inv := by
  simp only [step] at stepped
  split_ifs at stepped with fires
  obtain ⟨armed,nonzero⟩ := fires
  have empty : s.flight = [] := by
    by_contra some_
    exact inv.apart ⟨armed,some_⟩
  cases Option.some.inj stepped
  constructor
  · intro open_
    simp [InFlight,(inv.inEpoll open_).mpr (.inl armed)]
  · simp
  · simp [empty]
  · simpa [empty] using nonzero
  · exact fun _ => inv.taken (.inl armed)
  · exact inv.kept
  · exact inv.waiting
  · exact inv.running

theorem inv_callback {s s' : Shake} (inv : s.Inv) (stepped : s.step .callback = some s') :
    s'.Inv := by
  simp only [step] at stepped
  split at stepped
  · cases stepped
  next events rest flight =>
    have flying : s.InFlight := by
      intro none_
      rw [none_] at flight
      cases flight
    have alone : rest = [] := by
      have single := inv.single
      rw [flight] at single
      exact List.length_eq_zero_iff.mp (by simpa using single)
    have idle : s.armed = false := by
      cases armed : s.armed with
      | false => rfl
      | true => exact absurd ⟨armed,flying⟩ inv.apart
    have nonzero : events ≠ 0 := inv.nonzero events (by rw [flight]; exact List.mem_cons_self)
    cases Option.some.inj stepped
    constructor
    · simp [Session.sessionCb,idle,InFlight,alone]
    · simp [idle]
    · simp [alone]
    · simp [alone]
    · simp [idle,InFlight,alone]
    · simp [inv.kept,inv.taken (.inr flying)]
    · exact fun _ _ => .inr nonzero
    · exact inv.running

/-- What an `Update` that has the mutex does to the registration: a running session
keeps it or makes it, and one that no longer runs at most loses it with its socket. -/
inductive Registration (s s' : Shake) : Prop where
  | keeps (ran : s.ctx.self.status = .running) (before : s.ctx.self.inEpoll = true)
      (armed : s'.armed = s.armed) (open_ : s.Open → s'.Open)
      (after : s'.ctx.self.inEpoll = true)
  | arms (ran : s.ctx.self.status = .running) (before : s.ctx.self.inEpoll = false)
      (armed : s'.armed = true) (open_ : s.Open → s'.Open)
      (after : s'.ctx.self.inEpoll = true)
  | leaves (left : s'.ctx.self.status ≠ .running) (less : s'.armed = true → s.armed = true)
      (open_ : s'.Open → s.Open ∧ s'.armed = s.armed)
      (same : s'.ctx.self.inEpoll = s.ctx.self.inEpoll)

theorem update_registration {s s' : Shake} {i : UpdateIn} (locked : i.locked = true)
    (stepped : s.step (.update i) = some s') : Registration s s' ∧ s'.ctx.self.events = 0 ∧
      s'.flight = s.flight ∧ s'.overwritten = s.overwritten := by
  simp only [step] at stepped
  split at stepped
  next => cases stepped
  next c ran =>
    cases Option.some.inj stepped
    obtain ⟨d,io,-,finished⟩ := Ctx.update_cases locked ran
    obtain ⟨cs,trace,quiet,status⟩ := io.calls
    generalize Session.hangs s.ctx.self.events = hang at finished
    have whole : c.self.trace = s.ctx.self.trace ++ (cs ++ d.self.endCalls hang) := by
      rw [finished.trace,trace,List.append_assoc]
    have before : d.self.inEpoll = s.ctx.self.inEpoll := io.inEpoll
    have after := finished.inEpoll
    rw [before] at after
    have kept := Call.io_keeps quiet
    have armed : (c.self.trace.drop s.ctx.self.trace.length).foldl Call.arms s.armed =
        (d.self.endCalls hang).foldl Call.arms s.armed := by
      rw [whole,List.drop_left,List.foldl_append,arms_unregistered kept.1]
      simp [kept.2]
    refine ⟨?_,finished.events.trans io.events,rfl,rfl⟩
    by_cases stays : d.self.endStatus hang = .running
    · obtain ⟨running,calls⟩ := Session.endStatus_running stays
      have ran_ : s.ctx.self.status = .running := by
        rcases status with ⟨kept,-⟩ | ⟨-,error,-⟩
        · rw [← running,kept]
        · rw [running] at error
          cases error
      have open_ : s.Open → Call.close ∉ c.self.trace := by
        intro open_
        rw [whole,calls]
        simp only [List.mem_append,not_or]
        refine ⟨open_,kept.2,?_⟩
        split <;> simp
      rw [calls,before] at armed
      rw [stays] at after
      cases registered : s.ctx.self.inEpoll with
      | true =>
        rw [registered,if_pos rfl] at armed
        exact .keeps ran_ registered armed open_ (by simp [after])
      | false =>
        rw [registered,if_neg Bool.false_ne_true] at armed
        exact .arms ran_ registered armed open_ (by simp [after])
    · rw [arms_unregistered (Session.endCalls_registers stays)] at armed
      refine .leaves (by rw [finished.status]; exact stays) ?_ ?_ (by rw [after]; simp [stays])
      · simp only [armed,Bool.and_eq_true]
        exact And.left
      · intro open'
        simp only [Open,whole,List.mem_append,not_or] at open'
        obtain ⟨open_,-,end_⟩ := open'
        exact ⟨open_,by simp only [armed,end_,not_false_eq_true,decide_true,Bool.and_true]⟩

theorem inv_registration {s s' : Shake} (inv : s.Inv) (registration : Registration s s')
    (events : s'.ctx.self.events = 0) (flight : s'.flight = s.flight)
    (overwritten : s'.overwritten = s.overwritten) : s'.Inv := by
  have single : s'.flight.length ≤ 1 := by
    rw [flight]
    exact inv.single
  have nonzero : ∀ events ∈ s'.flight, events ≠ 0 := by
    rw [flight]
    exact inv.nonzero
  have kept := overwritten.trans inv.kept
  have flies : s'.InFlight ↔ s.InFlight := by rw [InFlight,flight,InFlight]
  cases registration with
  | keeps ran before armed open_ after =>
    have open' := inv.running ran
    have there := (inv.inEpoll open').mp before
    refine ⟨fun _ => ?_,?_,single,nonzero,fun _ => events,kept,fun _ _ => .inl after,
      fun _ => open_ open'⟩
    · rw [armed,flies]
      exact iff_of_true after there
    · rw [armed,flies]
      exact inv.apart
  | arms ran before armed open_ after =>
    have open' := inv.running ran
    have landed : ¬ s'.InFlight := fun flying => by
      rw [(inv.inEpoll open').mpr (.inr (flies.mp flying))] at before
      cases before
    exact ⟨fun _ => iff_of_true after (.inl armed),fun both => landed both.2,single,nonzero,
      fun _ => events,kept,fun _ _ => .inl after,fun _ => open_ open'⟩
  | leaves left less open_ same =>
    refine ⟨fun open' => ?_,?_,single,nonzero,fun _ => events,kept,
      fun _ running => absurd running left,fun running => absurd running left⟩
    · obtain ⟨before,armed⟩ := open_ open'
      rw [same,armed,flies]
      exact inv.inEpoll before
    · rw [flies]
      exact fun both => inv.apart ⟨less both.1,both.2⟩

theorem inv_update {s s' : Shake} {i : UpdateIn} (inv : s.Inv)
    (stepped : s.step (.update i) = some s') : s'.Inv := by
  cases locked : i.locked with
  | false =>
    simp only [step,Ctx.update_skipped _ locked] at stepped
    cases Option.some.inj stepped
    exact inv.same rfl rfl rfl rfl (by simp) rfl (by simp [locked]) rfl
  | true =>
    obtain ⟨registration,events,flight,overwritten⟩ := update_registration locked stepped
    exact inv_registration inv registration events flight overwritten

theorem inv_step {s s' : Shake} {op : ShakeOp} (inv : s.Inv) (stepped : s.step op = some s') :
    s'.Inv := by
  cases op with
  | fire events => exact inv_fire inv stepped
  | callback => exact inv_callback inv stepped
  | update i => exact inv_update inv stepped
  | send data =>
    simp only [step] at stepped
    split at stepped
    next => cases stepped
    next c ran =>
      cases Option.some.inj stepped
      have self := (Ctx.send_self ran).1
      exact inv.same (by rw [self]) (by rw [self]) (by rw [self]) (by rw [self]) rfl rfl rfl rfl
  | disconnect =>
    cases Option.some.inj stepped
    have still := Ctx.disconnect_still s.ctx
    exact inv.same (Session.disconnect_trace _) still.status still.inEpoll still.events rfl rfl rfl
      rfl
  | others env =>
    cases Option.some.inj stepped
    exact inv.same rfl rfl rfl rfl rfl rfl rfl rfl

/-- A session just attached: nothing registered, no update so far. -/
def start (id header now : Nat) (socket : Int) (key : Option Nat) (fresh : Nat) (env : Env) :
    Shake := ⟨Ctx.attached id header now socket key fresh env,false,[],false,false⟩

theorem inv_start (id header now : Nat) (socket : Int) (key : Option Nat) (fresh : Nat)
    (env : Env) : (start id header now socket key fresh env).Inv := by
  constructor <;> simp [start,Ctx.attached,Session.attach,Session.new,Session.resetHeader,
    Session.setSocketStatus,Session.call,InFlight,Open]

/-- No readiness event is lost: while the socket is open, the registration is armed
or its one event is on its way exactly when the session believes so, no mask is
replaced unseen, and a running session is never left without any of the three. -/
theorem handshake_keeps_events (id header now : Nat) (socket : Int) (key : Option Nat)
    (fresh : Nat) (env : Env) (ops : List ShakeOp) (s : Shake)
    (ran : Runs.run step (start id header now socket key fresh env) ops = some s)
    (open_ : s.Open) :
    (s.ctx.self.inEpoll = true ↔ s.armed = true ∨ s.InFlight) ∧
    ¬ (s.armed = true ∧ s.InFlight) ∧ s.flight.length ≤ 1 ∧
    (s.InFlight → s.ctx.self.events = 0) ∧ s.overwritten = false ∧
    (s.updated = true → s.ctx.self.status = .running →
      s.armed = true ∨ s.InFlight ∨ s.ctx.self.events ≠ 0) := by
  have inv : s.Inv := Runs.run_pres Inv (fun _ _ _ inv stepped => inv_step inv stepped)
    (inv_start id header now socket key fresh env) ran
  have in_ := inv.inEpoll open_
  refine ⟨in_,inv.apart,inv.single,fun flying => inv.taken (.inr flying),inv.kept,?_⟩
  intro updated running
  rcases inv.waiting updated running with registered | pending
  · rcases in_.mp registered with armed | flying
    · exact .inl armed
    · exact .inr (.inl flying)
  · exact .inr (.inr pending)

theorem handshake_keeps_events_pending :
    let ops := [.update ⟨true,0,[.again],[],1,1⟩,.fire epollIn,.update ⟨false,0,[],[],2,2⟩,.callback]
    ∃ s, Runs.run step (start 1 4 0 5 none 6 Env.initial) ops = some s ∧ s.Open ∧
      ¬ s.armed = true ∧ ¬ s.InFlight ∧ s.ctx.self.events ≠ 0 := by
  intro ops
  have done : (Runs.run step (start 1 4 0 5 none 6 Env.initial) ops).map (fun s =>
      (decide (Call.close ∉ s.ctx.self.trace),s.updated,s.ctx.self.status,s.ctx.self.inEpoll)) =
        some (true,true,.running,false) := by decide +kernel
  obtain ⟨s,ran,same⟩ := Option.map_eq_some_iff.mp done
  simp only [Prod.mk.injEq,decide_eq_true_eq] at same
  obtain ⟨open_,updated,running,out⟩ := same
  obtain ⟨in_,_,_,_,_,waiting⟩ :=
    handshake_keeps_events 1 4 0 5 none 6 Env.initial ops s ran open_
  have neither : ¬ (s.armed = true ∨ s.InFlight) := fun there => by
    rw [in_.mpr there] at out
    cases out
  obtain ⟨unarmed,landed⟩ := not_or.mp neither
  refine ⟨s,ran,open_,unarmed,landed,?_⟩
  rcases waiting updated running with armed | flying | pending
  · exact absurd armed unarmed
  · exact absurd flying landed
  · exact pending

end Shake

end Pworld.Net
