import Pworld.Net.Connector
import Pworld.Support.Runs

/-! A Linux connector with its poller. The constructor sets no `_events`, and `Update` handles a
mask whatever the status is. -/
namespace Pworld.Net

structure Dialing where
  c : Connector
  armed : Bool
  flight : Option Nat  -- the mask taken from the kernel, its callback not yet run
  opened : List Int  -- the sockets that `on_connect` was called with
  errors : List Nat  -- the errors that `on_connect_error` was called with
  asked : Bool  -- `Connect` was called
  aborted : Bool  -- `Abort` has closed the socket
  odd : Bool  -- a mask came without EPOLLOUT
  deriving DecidableEq

/-- The `on_connect` of these runs leaves the connector alone. -/
inductive DialOp where
  | connect (i : ConnectIn)
  | update (i : ConnectorIn)
  | fire (events : Nat)
  | callback
  | abort
  deriving DecidableEq

namespace Dialing

def start (_events : Nat) : Dialing := ⟨.new _events,false,none,[],[],false,false,false⟩

/-- `_post_connect` has stopped: it goes on after `on_connect`, and a registration goes with its
descriptor. -/
def settle (s : Dialing) : Posted × Connector → Dialing
  | (posted,d) =>
    let c := {d with registered := false}
    let armed := (s.armed || d.registered) && d._socket != -1
    match posted with
    | .connected => {s with c := c.connectDone, armed := armed, opened := s.opened ++ [d._socket]}
    | .returned _ => {s with c := c, armed := armed}

-- `_events = 0` and the switch
def finish (s : Dialing) : Dialing :=
  {s with
    c := s.c.finishUpdate
    errors := if s.c._status = .error then s.errors ++ [s.c._error] else s.errors}

def step (s : Dialing) : DialOp → Option Dialing
  | .connect i =>
    if s.asked then none else (s.c.Connect i).map fun r => {s.settle r with asked := true}
  | .update i => if i.free then (s.c.handleEvents i).map fun r => (s.settle r).finish else some s
  | .fire events =>
    if s.armed ∧ s.flight = none ∧ events ≠ 0 then
      some {s with
        armed := false
        flight := some events
        odd := s.odd || !has events epollOut}
    else none
  -- the registration has gone where the mask was taken
  | .callback => s.flight.map fun events =>
      {s with c := {s.c with _events := events}, flight := none}
  | .abort => some {s with
      c := s.c.Abort
      armed := s.armed && s.c.Abort._socket != -1
      aborted := s.aborted || s.c._status == .connecting}

def Heard (s : Dialing) : Prop := s.opened ≠ [] ∨ s.errors ≠ []

/-- A mask with EPOLLOUT is there, or can come. -/
def Awake (s : Dialing) : Prop :=
  s.armed = true ∨ (∃ events, s.flight = some events ∧ has events epollOut = true) ∨
  has s.c._events epollOut = true

/-- `on_connect` or `on_connect_error` is called once at most, and leaves the connector disposable;
`on_connect` never after `Abort`. One that is connecting can still hear of it exactly where it is
awake, which it is but for `Abort` and masks without EPOLLOUT. -/
structure Sound (s : Dialing) : Prop where
  once : s.opened.length + s.errors.length ≤ 1
  heard : s.Heard → s.c._status = .closed
  aborted : s.aborted = true → s.opened = []
  waits : s.c._status = .connecting →
    ((∃ ops t, Runs.run step s ops = some t ∧ t.Heard) ↔ s.Awake)
  deaf : s.c._status = .connecting → ¬ s.Awake → s.aborted = true ∨ s.odd = true

structure Inv (s : Dialing) : Prop where
  asked : s.asked = false → s.c._status = .uninit ∧ s.aborted = false
  early : s.c._status ≠ .closed → s.opened = [] ∧ s.errors = []
  once : s.opened.length + s.errors.length ≤ 1
  aborted : s.aborted = true → s.opened = [] ∧ (s.c._status = .connecting → s.c._socket = -1)
  open_ : s.aborted = false → s.c._status = .connecting → s.c._socket ≠ -1
  armed : s.armed = true → s.c._status = .connecting ∧ s.c._socket ≠ -1 ∧ s.flight = none ∧
    has s.c._events epollOut = false
  flight : ∀ events, s.flight = some events → s.c._status = .connecting ∧ s.armed = false ∧
    has s.c._events epollOut = false
  events : has s.c._events epollOut = true → s.c._status = .connecting
  registered : s.c.registered = false
  deaf : s.c._status = .connecting → ¬ s.Awake → s.aborted = true ∨ s.odd = true

end Dialing

/-- How `_post_connect` of a connector that is connecting ends. -/
theorem Connector.post_connect_ends {rets : List ConnectRet} {c d : Connector} {posted : Posted}
    (connecting : c._status = .connecting) (done : _post_connect rets c = some (posted,d)) :
    c._socket ≠ -1 ∧ posted = .connected ∧ d = c ∨
    c._socket ≠ -1 ∧ posted = .returned true ∧ d = {c with registered := true} ∨
    ∃ errno, posted = .returned false ∧ d = c._on_connect_error errno := by
  induction rets with
  | nil =>
    unfold _post_connect at done
    rw [if_neg (not_not.mpr connecting)] at done
    cases done
  | cons ret rets ih =>
    unfold _post_connect at done
    rw [if_neg (not_not.mpr connecting)] at done
    by_cases closed : c._socket = -1
    · simp only [connect,if_pos closed] at done
      cases done
      exact .inr (.inr ⟨ebadf,rfl,rfl⟩)
    · simp only [connect,if_neg closed] at done
      cases ret with
      | done =>
        cases done
        exact .inl ⟨closed,rfl,rfl⟩
      | inProgress =>
        cases done
        exact .inr (.inl ⟨closed,rfl,rfl⟩)
      | intr => exact ih done
      | err errno =>
        cases done
        exact .inr (.inr ⟨errno,rfl,rfl⟩)

/-- How `Update` handles EPOLLOUT for a connector that is connecting. -/
theorem Connector.handleEvents_ends {c d : Connector} {i : ConnectorIn} {posted : Posted}
    (connecting : c._status = .connecting) (ready : has c._events epollOut = true)
    (handled : c.handleEvents i = some (posted,d)) :
    c._socket ≠ -1 ∧ posted = .connected ∧ d = c ∨
    c._socket ≠ -1 ∧ posted = .returned true ∧ d = {c with registered := true} ∨
    ∃ ok errno, posted = .returned ok ∧ d = c._on_connect_error errno := by
  have some_ : c._events ≠ 0 := by
    intro none_
    rw [none_] at ready
    cases ready
  unfold handleEvents at handled
  rw [if_neg some_,if_pos ready] at handled
  simp only at handled
  split at handled
  · rcases post_connect_ends connecting handled with opened | waits | ⟨errno,fails,same⟩
    · exact .inl opened
    · exact .inr (.inl waits)
    · exact .inr (.inr ⟨false,errno,fails,same⟩)
  · cases handled
    exact .inr (.inr ⟨true,_,rfl,rfl⟩)

namespace Dialing

theorem has_zero (bit : Nat) : has 0 bit = false := by simp [has]

/-- A connector that is not connecting, with nothing on its way. -/
theorem Inv.over {s : Dialing} (asked : s.asked = true) (other : s.c._status ≠ .connecting)
    (early : s.c._status ≠ .closed → s.opened = [] ∧ s.errors = [])
    (once : s.opened.length + s.errors.length ≤ 1) (aborted : s.aborted = true → s.opened = [])
    (unarmed : s.armed = false) (landed : s.flight = none)
    (quiet : has s.c._events epollOut = false) (registered : s.c.registered = false) : s.Inv where
  asked := by simp [asked]
  early := early
  once := once
  aborted := fun there => ⟨aborted there,fun connecting => absurd connecting other⟩
  open_ := fun _ connecting => absurd connecting other
  armed := by simp [unarmed]
  flight := by simp [landed]
  events := by simp [quiet]
  registered := registered
  deaf := fun connecting => absurd connecting other

/-- A mask with EPOLLOUT has come for a connector that is connecting. -/
theorem inv_ready {s s' : Dialing} {i : ConnectorIn} (inv : s.Inv) (free : i.free = true)
    (ready : has s.c._events epollOut = true) (stepped : s.step (.update i) = some s') :
    s'.Inv ∧ (s'.Heard ∨ s'.Awake) := by
  have connecting := inv.events ready
  have unarmed : s.armed = false := by
    cases armed : s.armed with
    | false => rfl
    | true => cases ready.symm.trans (inv.armed armed).2.2.2
  have landed : s.flight = none := by
    cases flight : s.flight with
    | none => rfl
    | some events => cases ready.symm.trans (inv.flight events flight).2.2
  have asked : s.asked = true := by
    cases asked : s.asked with
    | true => rfl
    | false => cases connecting.symm.trans (inv.asked asked).1
  obtain ⟨opened,errors⟩ := inv.early (by simp [connecting])
  simp only [step,free,if_true] at stepped
  obtain ⟨⟨posted,d⟩,handled,rfl⟩ := Option.map_eq_some_iff.mp stepped
  rcases Connector.handleEvents_ends connecting ready handled with
    ⟨socket,rfl,rfl⟩ | ⟨socket,rfl,rfl⟩ | ⟨ok,errno,rfl,rfl⟩
  · have dead : s.aborted = false := by
      cases aborted : s.aborted with
      | false => rfl
      | true => exact absurd ((inv.aborted aborted).2 connecting) socket
    refine ⟨.over asked ?_ ?_ ?_ ?_ ?_ landed ?_ ?_,.inl (.inl ?_)⟩
    all_goals simp [settle,finish,Connector.connectDone,Connector.finishUpdate,opened,errors,dead,
      unarmed,inv.registered,has_zero]
  · have done : (settle s (.returned true,{s.c with registered := true})).finish =
        {s with c := {s.c with _events := 0}, armed := true} := by
      simp [settle,finish,Connector.finishUpdate,connecting,socket,← inv.registered]
    rw [done]
    refine ⟨⟨by simp [asked],fun _ => ⟨opened,errors⟩,inv.once,inv.aborted,inv.open_,
      fun _ => ⟨connecting,socket,landed,has_zero _⟩,by simp [landed],by simp [has_zero],
      inv.registered,fun _ asleep => absurd (.inl rfl) asleep⟩,.inr (.inl rfl)⟩
  · refine ⟨.over asked ?_ ?_ ?_ ?_ ?_ landed ?_ ?_,.inl (.inr ?_)⟩
    all_goals simp [settle,finish,Connector._on_connect_error,Connector.finishUpdate,opened,errors,
      unarmed,inv.registered,has_zero]

theorem handleEvents_unready {c : Connector} {i : ConnectorIn}
    (unready : has c._events epollOut = false) : c.handleEvents i = some (.returned true,c) := by
  unfold Connector.handleEvents
  split
  · rfl
  · rw [if_neg (by simp [unready])]

theorem settle_same {s : Dialing} (inv : s.Inv) : s.settle (.returned true,s.c) = s := by
  have kept : (s.armed && s.c._socket != -1) = s.armed := by
    cases armed : s.armed with
    | false => rfl
    | true => simp [(inv.armed armed).2.1]
  have same : {s.c with registered := false} = s.c := by rw [← inv.registered]
  unfold settle
  simp only [inv.registered,Bool.or_false,kept,same]

/-- An `Update` without EPOLLOUT: it only reports an error that `Connect` has met. -/
theorem update_unready {s s' : Dialing} {i : ConnectorIn} (inv : s.Inv) (free : i.free = true)
    (unready : has s.c._events epollOut = false) (stepped : s.step (.update i) = some s') :
    s' = s.finish := by
  simp only [step,free,if_true,handleEvents_unready unready,Option.map_some,
    settle_same inv] at stepped
  exact (Option.some.inj stepped).symm

theorem finish_waits {s : Dialing} (other : s.c._status ≠ .error) :
    s.finish = {s with c := {s.c with _events := 0}} := by
  unfold finish Connector.finishUpdate
  rw [if_neg other]
  split
  next error => exact absurd error other
  next => rfl

/-- Nothing is on its way to a connector that is not connecting. -/
theorem Inv.landed {s : Dialing} (inv : s.Inv) (other : s.c._status ≠ .connecting) :
    s.armed = false ∧ s.flight = none ∧ has s.c._events epollOut = false := by
  refine ⟨?_,?_,?_⟩
  · cases armed : s.armed with
    | false => rfl
    | true => exact absurd (inv.armed armed).1 other
  · cases flight : s.flight with
    | none => rfl
    | some events => exact absurd (inv.flight events flight).1 other
  · cases ready : has s.c._events epollOut with
    | false => rfl
    | true => exact absurd (inv.events ready) other

theorem inv_unready {s : Dialing} (inv : s.Inv) (unready : has s.c._events epollOut = false) :
    s.finish.Inv := by
  by_cases error : s.c._status = .error
  · have other : s.c._status ≠ .connecting := by simp [error]
    obtain ⟨opened,errors⟩ := inv.early (by simp [error])
    obtain ⟨unarmed,landed,_⟩ := inv.landed other
    have asked : s.asked = true := by
      cases asked : s.asked with
      | true => rfl
      | false => cases error.symm.trans (inv.asked asked).1
    refine .over asked ?_ ?_ ?_ (fun _ => opened) unarmed landed ?_ ?_
    all_goals simp [finish,Connector.finishUpdate,error,opened,errors,inv.registered,has_zero]
  · rw [finish_waits error]
    refine ⟨inv.asked,inv.early,inv.once,inv.aborted,inv.open_,fun armed => ?_,fun e flight => ?_,
      by simp [has_zero],inv.registered,fun connecting asleep => ?_⟩
    · obtain ⟨connecting,socket,landed,_⟩ := inv.armed armed
      exact ⟨connecting,socket,landed,has_zero _⟩
    · obtain ⟨connecting,unarmed,_⟩ := inv.flight e flight
      exact ⟨connecting,unarmed,has_zero _⟩
    · refine inv.deaf connecting fun awake => asleep ?_
      exact awake.imp_right (.imp_right fun ready => absurd (unready.symm.trans ready) (by simp))

theorem inv_connect {s s' : Dialing} {i : ConnectIn} (inv : s.Inv)
    (stepped : s.step (.connect i) = some s') : s'.Inv := by
  obtain ⟨unasked,stepped⟩ := Option.ite_none_left_eq_some.mp stepped
  obtain ⟨uninit,alive⟩ := inv.asked (Bool.eq_false_iff.mpr unasked)
  obtain ⟨opened,errors⟩ := inv.early (by simp [uninit])
  obtain ⟨unarmed,landed,quiet⟩ := inv.landed (by simp [uninit])
  obtain ⟨⟨posted,d⟩,asked,rfl⟩ := Option.map_eq_some_iff.mp stepped
  cases i with
  | connects fd rets =>
    rcases Connector.post_connect_ends rfl asked with
      ⟨socket,rfl,rfl⟩ | ⟨socket,rfl,rfl⟩ | ⟨errno,rfl,rfl⟩
    · refine .over rfl ?_ ?_ ?_ ?_ ?_ landed quiet ?_
      all_goals simp [settle,Connector.connectDone,opened,errors,alive,unarmed,inv.registered]
    · have done : settle s (.returned true,{s.c with
          _status := .connecting, _socket := fd, _key := true, registered := true}) =
          {s with
            c := {s.c with _status := .connecting, _socket := fd, _key := true}
            armed := true} := by
        have there : ((fd : Int) != -1) = true := by simp
        simp [settle,there,← inv.registered]
      rw [done]
      refine ⟨by simp,fun _ => ⟨opened,errors⟩,inv.once,by simp [alive],fun _ _ => socket,
        fun _ => ⟨rfl,socket,landed,quiet⟩,by simp [landed],fun _ => rfl,inv.registered,
        fun _ asleep => absurd (.inl rfl) asleep⟩
    · refine .over rfl ?_ ?_ ?_ ?_ ?_ landed quiet ?_
      all_goals simp [settle,Connector._on_connect_error,opened,errors,unarmed,inv.registered]
  | noSocket =>
    cases asked
    refine .over rfl ?_ ?_ ?_ ?_ ?_ landed quiet ?_
    all_goals simp [settle,opened,errors,unarmed,inv.registered]
  | noBind errno =>
    cases asked
    refine .over rfl ?_ ?_ ?_ ?_ ?_ landed quiet ?_
    all_goals simp [settle,opened,errors,unarmed,inv.registered]
  | badAddress errno =>
    cases asked
    refine .over rfl ?_ ?_ ?_ ?_ ?_ landed quiet ?_
    all_goals simp [settle,opened,errors,unarmed,inv.registered]

theorem inv_fire {s s' : Dialing} {events : Nat} (inv : s.Inv)
    (stepped : s.step (.fire events) = some s') : s'.Inv := by
  obtain ⟨⟨armed,landed,some_⟩,same⟩ := Option.ite_none_right_eq_some.mp stepped
  obtain ⟨connecting,socket,_,quiet⟩ := inv.armed armed
  cases same
  refine ⟨inv.asked,inv.early,inv.once,inv.aborted,inv.open_,by simp,fun e flight => ?_,inv.events,
    inv.registered,fun _ asleep => ?_⟩
  · exact ⟨connecting,rfl,quiet⟩
  · refine .inr ?_
    cases out : has events epollOut with
    | true => exact absurd (.inr (.inl ⟨events,rfl,out⟩)) asleep
    | false => simp

theorem inv_callback {s s' : Dialing} (inv : s.Inv) (stepped : s.step .callback = some s') :
    s'.Inv := by
  obtain ⟨events,flight,rfl⟩ := Option.map_eq_some_iff.mp stepped
  obtain ⟨connecting,unarmed,quiet⟩ := inv.flight events flight
  refine ⟨inv.asked,inv.early,inv.once,inv.aborted,inv.open_,by simp [unarmed],by simp,
    fun _ => connecting,inv.registered,fun _ asleep => inv.deaf connecting fun awake => asleep ?_⟩
  rcases awake with armed | ⟨e,same,out⟩ | ready
  · cases unarmed.symm.trans armed
  · cases flight.symm.trans same
    exact .inr (.inr out)
  · cases quiet.symm.trans ready

theorem inv_abort {s s' : Dialing} (inv : s.Inv) (stepped : s.step .abort = some s') : s'.Inv := by
  cases stepped
  by_cases connecting : s.c._status = .connecting
  · obtain ⟨opened,errors⟩ := inv.early (by simp [connecting])
    have abort : s.c.Abort = {s.c with _socket := -1} := if_pos connecting
    rw [abort]
    refine ⟨fun unasked => ?_,inv.early,inv.once,fun _ => ⟨opened,fun _ => rfl⟩,?_,by simp,
      fun e flight => ?_,inv.events,inv.registered,fun _ _ => .inl (by simp [connecting])⟩
    · cases connecting.symm.trans (inv.asked unasked).1
    · simp [connecting]
    · obtain ⟨_,_,quiet⟩ := inv.flight e flight
      exact ⟨connecting,by simp,quiet⟩
  · have abort : s.c.Abort = s.c := if_neg connecting
    obtain ⟨unarmed,_⟩ := inv.landed connecting
    have same : ({s with
        c := s.c.Abort
        armed := s.armed && s.c.Abort._socket != -1
        aborted := s.aborted || s.c._status == .connecting} : Dialing) = s := by
      have still : (s.aborted || s.c._status == .connecting) = s.aborted := by simp [connecting]
      have none_ : (s.armed && s.c._socket != -1) = s.armed := by rw [unarmed,Bool.false_and]
      rw [abort,still,none_]
    rw [same]
    exact inv

theorem step_inv (s : Dialing) (op : DialOp) (s' : Dialing) (inv : s.Inv)
    (stepped : s.step op = some s') : s'.Inv := by
  cases op with
  | connect i => exact inv_connect inv stepped
  | update i =>
    cases free : i.free with
    | false =>
      simp only [step,free,Bool.false_eq_true,if_false] at stepped
      cases stepped
      exact inv
    | true =>
      cases ready : has s.c._events epollOut with
      | true => exact (inv_ready inv free ready stepped).1
      | false =>
        rw [update_unready inv free ready stepped]
        exact inv_unready inv ready
  | fire events => exact inv_fire inv stepped
  | callback => exact inv_callback inv stepped
  | abort => exact inv_abort inv stepped

/-- It waits, and nothing comes any more. -/
structure Asleep (s : Dialing) : Prop where
  inv : s.Inv
  connecting : s.c._status = .connecting
  asleep : ¬ s.Awake

theorem Asleep.step {s s' : Dialing} {op : DialOp} (asleep : s.Asleep)
    (stepped : s.step op = some s') : s'.Asleep := by
  obtain ⟨inv,connecting,none_⟩ := asleep
  have inv' := step_inv s op s' inv stepped
  have unready : has s.c._events epollOut = false := by
    cases ready : has s.c._events epollOut with
    | false => rfl
    | true => exact absurd (.inr (.inr ready)) none_
  cases op with
  | connect i =>
    obtain ⟨unasked,_⟩ := Option.ite_none_left_eq_some.mp stepped
    cases connecting.symm.trans (inv.asked (Bool.eq_false_iff.mpr unasked)).1
  | update i =>
    cases free : i.free with
    | false =>
      simp only [Dialing.step,free,Bool.false_eq_true,if_false] at stepped
      cases stepped
      exact ⟨inv,connecting,none_⟩
    | true =>
      rw [update_unready inv free unready stepped,finish_waits (by simp [connecting])] at inv' ⊢
      refine ⟨inv',connecting,fun awake => none_ ?_⟩
      exact awake.imp_right (.imp_right fun ready => absurd ready (by simp [has_zero]))
  | fire events =>
    obtain ⟨fires,_⟩ := Option.ite_none_right_eq_some.mp stepped
    exact absurd (.inl fires.1) none_
  | callback =>
    obtain ⟨events,flight,rfl⟩ := Option.map_eq_some_iff.mp stepped
    refine ⟨inv',connecting,fun awake => none_ ?_⟩
    rcases awake with armed | ⟨e,there,_⟩ | ready
    · exact .inl armed
    · cases there
    · exact .inr (.inl ⟨events,flight,ready⟩)
  | abort =>
    cases stepped
    have abort : s.c.Abort = {s.c with _socket := -1} := if_pos connecting
    rw [abort] at inv' ⊢
    refine ⟨inv',connecting,fun awake => none_ ?_⟩
    exact awake.imp_left fun armed => ((Bool.and_eq_true _ _).mp armed).1

theorem Inv.silent {s : Dialing} (inv : s.Inv) (connecting : s.c._status = .connecting) :
    ¬ s.Heard := by
  obtain ⟨opened,errors⟩ := inv.early (by simp [connecting])
  simp [Heard,opened,errors]

/-- The free `Update` that finds EPOLLOUT reports. -/
theorem ready_heard {s : Dialing} (connecting : s.c._status = .connecting)
    (ready : has s.c._events epollOut = true) :
    ∃ t, s.step (.update ⟨true,0,[.done]⟩) = some t ∧ t.Heard := by
  have some_ : s.c._events ≠ 0 := by
    intro none_
    rw [none_,has_zero] at ready
    cases ready
  by_cases closed : s.c._socket = -1
  · refine ⟨_,by simp [step,Connector.handleEvents,some_,ready,Connector.socketError,closed,
      Connector._post_connect,connecting,Connector.connect]; rfl,.inr ?_⟩
    simp [settle,finish,Connector._on_connect_error]
  · refine ⟨_,by simp [step,Connector.handleEvents,some_,ready,Connector.socketError,closed,
      Connector._post_connect,connecting,Connector.connect]; rfl,.inl ?_⟩
    simp [settle,finish]

theorem flight_heard {s : Dialing} {events : Nat} (connecting : s.c._status = .connecting)
    (flight : s.flight = some events) (out : has events epollOut = true) :
    ∃ ops t, Runs.run step s ops = some t ∧ t.Heard := by
  let called : Dialing := {s with c := {s.c with _events := events}, flight := none}
  have calls : s.step .callback = some called := by simp [step,flight,called]
  obtain ⟨t,reported,heard⟩ := ready_heard (s := called) connecting out
  refine ⟨[.callback,.update ⟨true,0,[.done]⟩],t,?_,heard⟩
  rw [Runs.run_cons,calls]
  show Runs.run step called _ = _
  rw [Runs.run_cons,reported]
  rfl

theorem Inv.awake {s : Dialing} (inv : s.Inv) (connecting : s.c._status = .connecting)
    (awake : s.Awake) : ∃ ops t, Runs.run step s ops = some t ∧ t.Heard := by
  rcases awake with armed | ⟨events,flight,out⟩ | ready
  · obtain ⟨_,_,landed,_⟩ := inv.armed armed
    let fired : Dialing := {s with armed := false, flight := some epollOut}
    have fires : s.step (.fire epollOut) = some fired := by
      simp [step,armed,landed,fired,epollOut,has]
    obtain ⟨ops,t,ran,heard⟩ := flight_heard (s := fired) connecting rfl (by decide)
    refine ⟨.fire epollOut::ops,t,?_,heard⟩
    rw [Runs.run_cons,fires]
    exact ran
  · exact flight_heard connecting flight out
  · obtain ⟨t,reported,heard⟩ := ready_heard connecting ready
    refine ⟨[.update ⟨true,0,[.done]⟩],t,?_,heard⟩
    rw [Runs.run_cons,reported]
    rfl

theorem Inv.sound {s : Dialing} (inv : s.Inv) : s.Sound where
  once := inv.once
  heard := fun heard => by
    by_contra other
    obtain ⟨opened,errors⟩ := inv.early other
    simp [Heard,opened,errors] at heard
  aborted := fun aborted => (inv.aborted aborted).1
  waits := fun connecting => by
    refine ⟨fun hears => ?_,inv.awake connecting⟩
    by_contra none_
    obtain ⟨ops,t,ran,heard⟩ := hears
    have asleep := Runs.run_pres Asleep (fun _ _ _ asleep stepped => asleep.step stepped)
      ⟨inv,connecting,none_⟩ ran
    exact asleep.inv.silent asleep.connecting heard
  deaf := inv.deaf

theorem start_inv {_events : Nat} (unset : has _events epollOut = false) :
    (start _events).Inv := by
  refine ⟨?_,?_,?_,?_,?_,?_,?_,?_,?_,?_⟩
  all_goals simp [start,Connector.new,unset]

/-- A registration that `Update` has not waited for, and an error on the socket afterwards. -/
def twice : List DialOp :=
  [.connect (.connects 3 [.inProgress]),.update ⟨true,0,[.done]⟩,.fire epollOut,.callback,
    .update ⟨true,104,[]⟩]

end Dialing

end Pworld.Net
