import Pworld.Net.NetMgr
import Pworld.Net.ListenerLife

/-! The two waits of `CNetMgr::End`, with a poller that delivers nothing: the listener's
always ends, the connector's exactly where no pending connect has to be waited for. -/
namespace Pworld.Net

namespace Listener

theorem Close_status (l : Listener) :
    l.Close._status = if l._status = .running then .closing else l._status := by
  unfold Close
  split
  next => rfl
  next => rfl

/-- How many calls of `Update` it still takes. -/
def toClose : ListenerStatus → Nat
  | .error => 2
  | .closing => 2
  | .preclosed => 1
  | _ => 0

/-- After `Close` two calls of `Update` are enough, whatever the status was. -/
theorem waitListener_ends {l : Listener} (inited : l._status ≠ .uninit) {rounds : Nat}
    (enough : 3 ≤ rounds) :
    ∃ l', NetMgr.waitListener rounds l = some l' ∧ l'.Disposable = true := by
  refine Loop.iterate_total (fun l : Listener => l._status ≠ .uninit ∧ l._status ≠ .running)
    (fun l : Listener => l.Disposable = true) (fun l : Listener => toClose l._status) ?_ ?_ ?_
  · intro l inv
    by_cases closed : l.Disposable = true
    · exact .inr ⟨l,by simp [closed],closed⟩
    · refine .inl ⟨l.Update,by simp [closed],?_⟩
      cases status : l._status
      case uninit => exact absurd status inv.1
      case running => exact absurd status inv.2
      case closed => exact absurd (by simp [Disposable,status]) closed
      all_goals simp [Update,status,toClose]
  · rw [Close_status]
    split
    · exact ⟨by simp,by simp⟩
    · exact ⟨inited,‹_›⟩
  · refine Nat.lt_of_lt_of_le ?_ enough
    cases l.Close._status <;> decide

theorem post_accept_inited {rets : List AcceptRet} {l : Listener} {r : List Nat × Bool × Listener}
    (inited : l._status ≠ .uninit) (done : _post_accept rets l = some r) :
    r.2.2._status ≠ .uninit := by
  induction rets generalizing r with
  | nil =>
    unfold _post_accept at done
    split at done
    · cases done
      exact inited
    · contradiction
  | cons ret rets ih =>
    unfold _post_accept at done
    split at done
    · cases done
      exact inited
    · cases ret with
      | intr => exact ih done
      | connAborted => exact ih done
      | again =>
        cases done
        exact inited
      | err errno =>
        cases done
        simp [_on_accept_error]
      | socket fd =>
        obtain ⟨rest,went,rfl⟩ := Option.map_eq_some_iff.mp done
        have kept := ih went
        exact kept

theorem Init_inited {l : Listener} {fd : Nat} {init : InitRet} {r : List Nat × Bool × Listener}
    (done : l.Init fd init = some r) : r.2.2._status ≠ .uninit := by
  cases init with
  | listening accepts => exact post_accept_inited (by simp) done
  | _ => cases done; simp

theorem listenerCb_inited {l : Listener} {events sockErr : Nat} {accepts : List AcceptRet}
    {r : List Nat × Listener} (inited : l._status ≠ .uninit)
    (done : l.listenerCb events sockErr accepts = some r) : r.2._status ≠ .uninit := by
  simp only [listenerCb] at done
  split at done
  · cases done
    simp [_on_accept_error]
  · split at done
    · obtain ⟨r,went,rfl⟩ := Option.map_eq_some_iff.mp done
      exact post_accept_inited (l := {l with _accept_pending := false, registered := false})
        inited went
    · cases done
      exact inited

end Listener

namespace Connector

/-- Asked once more, a connector that has failed or whose socket is closed is disposable. -/
theorem silent_update {c : Connector} {i : ConnectorIn} (asked : i.rets ≠ [])
    (fails : c._status = .error ∨
      c._status = .connecting ∧ c._socket = -1 ∧ has c._events epollOut = true) :
    ∃ ok d, c.handleEvents i = some (.returned ok,d) ∧ d.finishUpdate.Disposable = true := by
  have failed (d : Connector) (status : d._status = .error) : d.finishUpdate.Disposable = true := by
    simp [finishUpdate,Disposable,status]
  unfold handleEvents
  rcases fails with error | ⟨connecting,shut,ready⟩
  · by_cases quiet : c._events = 0
    · exact ⟨true,c,by simp [quiet],failed c error⟩
    · by_cases ready : has c._events epollOut = true
      · by_cases none : c.socketError i.sockErr = 0
        · refine ⟨true,c,?_,failed c error⟩
          rw [if_neg quiet,if_pos ready]
          simp only [none,if_true]
          unfold _post_connect
          simp [error]
        · refine ⟨true,{c with _error := c.socketError i.sockErr, _status := .error},?_,failed _ rfl⟩
          simp only [quiet,ready,none,if_true,if_false]
      · exact ⟨true,c,by simp [quiet,ready],failed c error⟩
  · have some_events : c._events ≠ 0 := by
      intro none
      rw [none] at ready
      exact absurd ready (by decide)
    obtain ⟨ret,rets,same⟩ := List.exists_cons_of_ne_nil asked
    refine ⟨false,c._on_connect_error ebadf,?_,failed _ rfl⟩
    simp [some_events,ready,socketError,shut,same,_post_connect,connecting,connect]

/-- A connector that waits for an event is left as it is. -/
theorem silent_waits {c : Connector} (i : ConnectorIn) (waits : has c._events epollOut ≠ true) :
    c.handleEvents i = some (.returned true,c) := by
  unfold handleEvents
  rw [if_neg waits,ite_self]

end Connector

/-- Whatever the threads do, the status never goes back to LS_UNINIT. -/
theorem Listening.Stepped.inited {s s' : Listening} {op : ListenerOp}
    (inited : s.self._status ≠ .uninit) (stepped : Stepped s op s') :
    s'.self._status ≠ .uninit := by
  cases stepped with
  | close idle =>
    unfold Listening.close
    split <;> exact inited
  | update idle =>
    unfold Listening.update
    split <;> exact inited
  | goes _ goes =>
    cases next_cases goes with
    | shut logic l status _ _ _ =>
      rw [← status] at inited
      exact inited
    | writes status late _ _ =>
      rintro rfl
      exact absurd late (by decide)
    | closes => exact inited
  | accept ret => cases ret <;> exact inited
  | fail => exact nofun
  | _ => exact inited

namespace NetMgr

/-- The poller delivers nothing, and connect gives some result when it is called. -/
def Silent (w : ConnectorWait) : Prop :=
  w.events = none ∧ w.update.free = true ∧ w.update.rets ≠ []

/-- With `n` rounds for the listener and `m` for the connector `End` gets through both
waits and uses no deleted connector. -/
def EndsWithin (s : NetMgr) (n m : Nat) : Prop :=
  ∀ rounds waits, n ≤ rounds → (∀ w ∈ waits, Silent w) → m ≤ waits.length →
    ∃ t, ({s with stale := false} : NetMgr).End rounds waits = some t ∧ t.stale = false

/-- `m_connector` is null, or live and not connecting unless EPOLLOUT has come. -/
def Waitable (s : NetMgr) : Prop :=
  ∀ n ∈ s.m_connector, n ∉ s.gone ∧
    ((s.connector n)._status = .connecting → has (s.connector n)._events epollOut = true)

instance (s : NetMgr) : Decidable s.Waitable := by
  unfold Waitable
  infer_instance

/-- What every run keeps. -/
structure Sensible (s : NetMgr) : Prop where
  inited : ∀ l ∈ s.m_listener, l._status ≠ .uninit
  known : ∀ n ∈ s.m_connector, n < s.connectors.length

theorem endListener_ends {s : NetMgr} (inited : ∀ l ∈ s.m_listener, l._status ≠ .uninit)
    {rounds : Nat} (enough : 3 ≤ rounds) :
    s.endListener rounds = some {s with m_listener := none} := by
  unfold endListener
  split
  next null => rw [← null]
  next l here =>
    obtain ⟨l',waited,_⟩ := Listener.waitListener_ends (inited l here) enough
    rw [waited]
    rfl

theorem waitConnector_disposable {s : NetMgr} {n : Nat} (live : n ∉ s.gone)
    (disposable : (s.connector n).Disposable = true) (waits : List ConnectorWait) :
    waitConnector n waits s = some s := by
  unfold waitConnector
  rw [use_live live,if_pos disposable]

/-- One silent round. -/
theorem waitConnector_round {s : NetMgr} {n : Nat} (live : n ∉ s.gone) {w : ConnectorWait}
    (silent : Silent w) {ok : Bool} {d : Connector}
    (handled : (s.connector n).handleEvents w.update = some (.returned ok,d))
    (busy : (s.connector n).Disposable = false) (here : n < s.connectors.length)
    (waits : List ConnectorWait) :
    waitConnector n (w::waits) s = waitConnector n waits (s.put n d.finishUpdate) := by
  have updated : s.updateConnector n w.update = some (s.put n d.finishUpdate) := by
    unfold updateConnector
    rw [if_pos silent.2.1,use_live live,handled]
    show some ((s.put n d).put n ((s.put n d).connector n).finishUpdate) = _
    rw [connector_put here,put_put]
  have quiet : s.eventOf n w.events = s := by
    rw [silent.1]
    rfl
  rw [waitConnector,use_live live,busy,quiet,updated]
  rfl

theorem silent_ends {s : NetMgr} {n : Nat} (live : n ∉ s.gone) (here : n < s.connectors.length)
    (ready : (s.connector n)._status = .connecting →
      (s.connector n)._socket = -1 ∧ has (s.connector n)._events epollOut = true)
    {waits : List ConnectorWait} (silent : ∀ w ∈ waits, Silent w) (enough : 1 ≤ waits.length) :
    ∃ t, waitConnector n waits s = some t ∧ s.Kept t := by
  by_cases disposable : (s.connector n).Disposable = true
  · exact ⟨s,waitConnector_disposable live disposable waits,.refl s⟩
  · obtain ⟨w,rest,rfl⟩ := List.exists_cons_of_length_pos enough
    have quiet := silent w List.mem_cons_self
    have fails : (s.connector n)._status = .error ∨ (s.connector n)._status = .connecting ∧
        (s.connector n)._socket = -1 ∧ has (s.connector n)._events epollOut = true := by
      cases status : (s.connector n)._status with
      | error => exact .inl rfl
      | connecting => exact .inr ⟨rfl,ready status⟩
      | uninit => simp [Connector.Disposable,status] at disposable
      | closed => simp [Connector.Disposable,status] at disposable
    obtain ⟨ok,d,handled,closed⟩ := Connector.silent_update quiet.2.2 fails
    have kept := put_live live d.finishUpdate
    rw [waitConnector_round live quiet handled (by simpa using disposable) here]
    have done : ((s.put n d.finishUpdate).connector n).Disposable = true := by
      rw [connector_put here]
      exact closed
    have live' : n ∉ (s.put n d.finishUpdate).gone := live
    exact ⟨_,waitConnector_disposable live' done rest,kept⟩

/-- Nothing ends the wait for a connector that no event can reach. -/
theorem silent_hangs {s : NetMgr} {n : Nat} (live : n ∉ s.gone) (here : n < s.connectors.length)
    (connecting : (s.connector n)._status = .connecting)
    (waits : has (s.connector n)._events epollOut ≠ true) {rounds : List ConnectorWait}
    (silent : ∀ w ∈ rounds, Silent w) : waitConnector n rounds s = none := by
  have busy : (s.connector n).Disposable = false := by simp [Connector.Disposable,connecting]
  induction rounds generalizing s with
  | nil =>
    unfold waitConnector
    rw [use_live live,busy]
    rfl
  | cons w rest ih =>
    have handled := Connector.silent_waits w.update waits
    rw [waitConnector_round live (silent w List.mem_cons_self) handled busy here]
    have left : ((s.connector n).finishUpdate)._status = .connecting := by
      simp [Connector.finishUpdate,connecting]
    refine ih live (by simpa [put] using here) ?_ ?_
      (fun w member => silent w (List.mem_cons_of_mem _ member)) ?_
    · rw [connector_put here]
      exact left
    · rw [connector_put here]
      simp [Connector.finishUpdate,connecting,has]
    · rw [connector_put here]
      simp [Connector.Disposable,left]

theorem Sensible.ends {s : NetMgr} (sensible : s.Sensible) (waitable : s.Waitable) :
    s.EndsWithin 3 1 := by
  intro rounds waits enough silent some_
  have listener := endListener_ends (s := {s with stale := false}) sensible.inited enough
  unfold End
  rw [listener]
  show ∃ t, ((({s with stale := false, m_listener := none} : NetMgr).endConnector waits).map
    endSessions) = some t ∧ t.stale = false
  generalize same : ({s with stale := false, m_listener := none} : NetMgr) = u
  have fresh : u.stale = false := by rw [← same]
  have held : u.m_connector = s.m_connector := by rw [← same]
  unfold endConnector
  split
  next null => exact ⟨_,rfl,fresh⟩
  next n here =>
    have here : n ∈ s.m_connector := held.symm.trans here
    obtain ⟨live,ready⟩ := waitable n here
    have known := sensible.known n here
    have live : n ∉ u.gone := by
      rw [← same]
      exact live
    have known : n < u.connectors.length := by
      rw [← same]
      exact known
    have ready : (u.connector n)._status = .connecting →
        has (u.connector n)._events epollOut = true := by
      rw [← same]
      exact ready
    have aborted := put_live live (u.connector n).Abort
    have shut : ((u.abortConnector n).connector n)._status = .connecting →
        ((u.abortConnector n).connector n)._socket = -1 ∧
          has ((u.abortConnector n).connector n)._events epollOut = true := by
      rw [abortConnector,connector_put known]
      intro connecting
      refine ⟨Abort_shuts _ connecting,?_⟩
      unfold Connector.Abort at connecting ⊢
      split
      next before => exact ready before
      next other =>
        rw [if_neg other] at connecting
        exact absurd connecting other
    obtain ⟨t,waited,kept⟩ := silent_ends (s := u.abortConnector n) live
      (aborted.length ▸ known) shut silent some_
    rw [waited]
    refine ⟨_,rfl,?_⟩
    have still := aborted.trans kept
    have live' : n ∉ t.gone := by
      rw [still.same]
      exact live
    show (t.stale || decide (n ∈ t.gone)) = false
    rw [still.same]
    simp [fresh,live]

theorem silent_rounds (m : Nat) : ∃ waits : List ConnectorWait,
    (∀ w ∈ waits, Silent w) ∧ m ≤ waits.length := by
  refine ⟨List.replicate m ⟨none,⟨true,0,[.inProgress]⟩⟩,fun w member => ?_,by simp⟩
  rw [(List.mem_replicate.mp member).2]
  exact ⟨rfl,rfl,nofun⟩

theorem Sensible.waitable {s : NetMgr} (sensible : s.Sensible) {n m : Nat}
    (ends : s.EndsWithin n m) : s.Waitable := by
  intro k held
  obtain ⟨waits,silent,enough⟩ := silent_rounds m
  obtain ⟨t,ended,fresh⟩ := ends n waits (Nat.le_refl n) silent enough
  obtain ⟨v,went,rfl⟩ := End_cases ended
  generalize same : ({s with stale := false, m_listener := none} : NetMgr) = u at went
  have held' : u.m_connector = some k := by
    rw [← same]
    exact held
  unfold endConnector at went
  rw [held'] at went
  obtain ⟨w,waited,rfl⟩ := Option.map_eq_some_iff.mp went
  have fresh : (w.delete k).stale = false := fresh
  have live : k ∉ u.gone := by
    intro gone
    have used : (u.abortConnector k).stale = true := by simp [abortConnector,put,use,gone]
    have later := (waitConnector_within waited).grows.used used
    have deleted := (w.put_within k (w.connector k).destroy).grows.used later
    cases deleted.symm.trans fresh
  have here : k < u.connectors.length := by
    rw [← same]
    exact sensible.known k held
  have ready : (u.connector k)._status = .connecting →
      has (u.connector k)._events epollOut = true := by
    intro connecting
    by_contra quiet
    have aborted := put_live live (u.connector k).Abort
    have live' : k ∉ (u.abortConnector k).gone := live
    have hangs : waitConnector k waits (u.abortConnector k) = none := by
      refine silent_hangs live' (aborted.length ▸ here) ?_ ?_ silent
      · rw [abortConnector,connector_put here]
        simp [Connector.Abort,Connector.closeSocket,connecting]
      · rw [abortConnector,connector_put here]
        simpa [Connector.Abort,Connector.closeSocket,connecting] using quiet
    cases hangs.symm.trans waited
  rw [← same] at live ready
  exact ⟨live,ready⟩

theorem Sensible.grows {s t : NetMgr} (sensible : s.Sensible) (grows : s.Grows t)
    (inited : ∀ l ∈ t.m_listener, l._status ≠ .uninit) : t.Sensible where
  inited := inited
  known := by
    intro n held
    rcases grows.held n held with before | ⟨_,made⟩
    · exact Nat.lt_of_lt_of_le (sensible.known n before) grows.length
    · exact made

theorem accept_all_listener (s : NetMgr) (fds : List Nat) :
    (fds.foldl OnAccepted s).m_listener = s.m_listener :=
  accept_all (P := fun t => t.m_listener = s.m_listener) (fun _ _ same => same) fds rfl

theorem endConnector_listener {s t : NetMgr} {waits : List ConnectorWait}
    (done : s.endConnector waits = some t) : t.m_listener = s.m_listener := by
  unfold endConnector at done
  split at done
  · cases done
    rfl
  next n _ =>
    obtain ⟨u,waited,rfl⟩ := Option.map_eq_some_iff.mp done
    exact ((s.put_within n _).trans (waitConnector_within waited)).listener

theorem step_inited {s t : NetMgr} {op : NetOp} (inited : ∀ l ∈ s.m_listener, l._status ≠ .uninit)
    (stepped : step s op = some t) : ∀ l ∈ t.m_listener, l._status ≠ .uninit := by
  cases op with
  | begin fd init =>
    obtain ⟨r,opened,rfl⟩ := Option.map_eq_some_iff.mp stepped
    rw [accept_all_listener]
    intro l here
    cases here
    exact Listener.Init_inited opened
  | onAccepted fd =>
    cases stepped
    exact inited
  | connTest _events connect =>
    obtain ⟨r,_,went⟩ := Option.bind_eq_some_iff.mp stepped
    rw [(posted_within went).listener]
    exact inited
  | listenerCb events sockErr accepts =>
    simp only [step,onListener] at stepped
    split at stepped
    · contradiction
    next l here =>
      split at stepped
      · obtain ⟨r,called,rfl⟩ := Option.map_eq_some_iff.mp stepped
        rw [accept_all_listener]
        intro l' here
        cases here
        exact Listener.listenerCb_inited (inited l here) called
      · contradiction
  | connectorCb n events =>
    obtain ⟨_,went⟩ := Option.ite_none_left_eq_some.mp stepped
    cases went
    rw [(s.eventOf_within n (some events)).listener]
    exact inited
  | update i done =>
    have updated : ∀ l ∈ s.m_listener.map Listener.Update, l._status ≠ .uninit := by
      rintro _ member
      obtain ⟨l,here,rfl⟩ := Option.map_eq_some_iff.mp member
      have before := inited l here
      unfold Listener.Update
      split <;> first | exact before | simp
    obtain ⟨u,went,rfl⟩ := Option.map_eq_some_iff.mp stepped
    show ∀ l ∈ u.m_listener, l._status ≠ .uninit
    split at went
    · cases went
      exact updated
    · rw [(updateConnector_within went).listener]
      exact updated
  | onQuit =>
    cases stepped
    have closed : ∀ l ∈ s.m_listener.map Listener.Close, l._status ≠ .uninit := by
      rintro _ member
      obtain ⟨l,here,rfl⟩ := Option.map_eq_some_iff.mp member
      rw [Listener.Close_status]
      split
      · simp
      · exact inited l here
    simp only [OnQuit]
    split <;> exact closed
  | stop rounds waits =>
    obtain ⟨u,went,rfl⟩ := End_cases stepped
    have null := endConnector_listener went
    show ∀ l ∈ u.m_listener, l._status ≠ .uninit
    rw [null]
    exact fun l here => absurd here (by simp)

theorem step_sensible {s t : NetMgr} {op : NetOp} (sensible : s.Sensible)
    (stepped : step s op = some t) : t.Sensible :=
  sensible.grows (step_grows stepped) (step_inited sensible.inited stepped)

theorem new_sensible : new.Sensible := ⟨by simp [new],by simp [new]⟩

/-- The wait for the listener ends with two calls of `Update`, in whatever state its threads
have left it; both waits end, with one call for the connector, exactly where no connect is
pending whose event has not come, and no number of calls is enough elsewhere. -/
theorem end_waits (ops : List NetOp) (s : NetMgr) (ran : Runs.run step new ops = some s) :
    (∀ l ∈ s.m_listener, ∃ l', waitListener 3 l = some l' ∧ l'.Disposable = true) ∧
    (∀ fd steps r, Runs.run Listening.step (Listening.start fd) steps = some r →
      ∃ l', waitListener 3 r.self = some l' ∧ l'.Disposable = true) ∧
    (s.EndsWithin 3 1 ↔ s.Waitable) ∧ ∀ n m, s.EndsWithin n m → s.Waitable := by
  have sensible : s.Sensible :=
    Runs.run_pres Sensible (fun _ _ _ => step_sensible) new_sensible ran
  refine ⟨fun l here => ?_,fun fd steps r ran => ?_,⟨sensible.waitable,sensible.ends⟩,
    fun n m => sensible.waitable⟩
  · exact Listener.waitListener_ends (sensible.inited l here) (Nat.le_refl 3)
  · have inited := Runs.run_pres (fun s : Listening => s.self._status ≠ .uninit)
      (fun _ _ _ inited stepped => (Listening.step_cases stepped).inited inited)
      (by simp [Listening.start]) ran
    exact Listener.waitListener_ends inited (Nat.le_refl 3)

/-- A listener that waits, and a connect that is refused at once. -/
def refusedThen : List NetOp :=
  [.begin 3 (.listening [.again]),.connTest 0 (.connects 9 [.err 111])]

theorem end_waits_refused : ∃ s, Runs.run step new refusedThen = some s ∧ s.EndsWithin 3 1 := by
  have done : (Runs.run step new refusedThen).isSome = true := by decide
  obtain ⟨s,ran⟩ := Option.isSome_iff_exists.mp done
  have waitable : ((Runs.run step new refusedThen).map fun s => decide s.Waitable) = some true := by
    decide
  rw [ran] at waitable
  exact ⟨s,ran,(end_waits refusedThen s ran).2.2.1.mpr (by simpa using waitable)⟩

/-- A connect is pending when `End` is called: `Abort` closes the socket, which leaves
CS_CONNECTING for ever. -/
theorem end_hangs : ∃ s, Runs.run step new [.connTest 0 (.connects 9 [.inProgress])] = some s ∧
    ∀ n m, ¬ s.EndsWithin n m := by
  refine ⟨_,rfl,fun n m ends => ?_⟩
  have sensible : Sensible ⟨none,some 0,[],[],[⟨9,.connecting,true,0,0,true⟩],[],false,[],[]⟩ :=
    ⟨nofun,by simp⟩
  exact absurd (sensible.waitable ends) (by decide)

end NetMgr

end Pworld.Net
