import Pworld.Net.Connector
import Pworld.Net.Listener
import Pworld.Support.Ledger
import Pworld.Support.Runs

/-! `CNetMgr` with its listener, its connectors and its sessions. A connector is known by
its place in `connectors`, which stands for its address and keeps what a deleted one has
left there; a session by its place in `sessions`. -/
namespace Pworld.Net

/-- What `Attach` is given. -/
structure Attached where
  socket : Int
  key : Bool  -- handed over by the connector
  deriving DecidableEq,Repr

structure NetMgr where
  m_listener : Option Listener
  m_connector : Option Nat
  m_lstClients : List Nat
  m_lstServers : List Nat
  connectors : List Connector  -- all that have been made
  gone : List Nat  -- those that have been deleted
  stale : Bool  -- a deleted one has been used
  sessions : List Attached  -- all that have been made
  ended : List Nat  -- those that have been deleted
  deriving DecidableEq

/-- One round of the wait for the connector: an event that comes before it, and what
`Update` meets. -/
structure ConnectorWait where
  events : Option Nat
  update : ConnectorIn
  deriving DecidableEq,Repr

inductive NetOp where
  | begin (fd : Nat) (init : InitRet)
  | onAccepted (fd : Nat)
  | connTest (_events : Nat) (connect : ConnectIn)
  | listenerCb (events sockErr : Nat) (accepts : List AcceptRet)
  | connectorCb (n events : Nat)
  | update (connector : ConnectorIn) (done : List Nat)  -- the sessions that become disposable
  | onQuit
  | stop (rounds : Nat) (waits : List ConnectorWait)  -- `End`
  deriving DecidableEq

namespace NetMgr

def new : NetMgr := ⟨none,none,[],[],[],[],false,[],[]⟩

def connector (s : NetMgr) (n : Nat) : Connector := s.connectors.getD n (.new 0)

/-- A member function of connector `n` touches its fields. -/
def use (s : NetMgr) (n : Nat) : NetMgr := {s with stale := s.stale || decide (n ∈ s.gone)}

def put (s : NetMgr) (n : Nat) (c : Connector) : NetMgr :=
  {s.use n with connectors := s.connectors.set n c}

def delete (s : NetMgr) (n : Nat) : NetMgr :=
  {s.put n (s.connector n).destroy with gone := s.gone ++ [n]}

def OnAccepted (s : NetMgr) (fd : Nat) : NetMgr :=
  {s with
    sessions := s.sessions ++ [⟨fd,false⟩]
    m_lstClients := s.m_lstClients ++ [s.sessions.length]}

def Begin (s : NetMgr) (fd : Nat) (init : InitRet) : Option NetMgr :=
  (Listener.new.Init fd init).map fun r =>
    r.1.foldl OnAccepted {s with m_listener := some r.2.2}

/-- The new session goes to no list, and `m_connector` keeps its value. -/
def OnConnected (s : NetMgr) : Option NetMgr :=
  s.m_connector.map fun n =>
    let c := s.connector n
    let s : NetMgr := {s with sessions := s.sessions ++ [⟨c._socket,c._key⟩]}
    (s.put n c.DetachSocket).delete n

/-- `_post_connect` of connector `n` goes on, through `on_connect` where it calls it. -/
def posted (s : NetMgr) (n : Nat) : Posted × Connector → Option NetMgr
  | (.connected,c) =>
    (s.put n c).OnConnected.map fun s => s.put n (s.connector n).connectDone
  | (.returned _,c) => some (s.put n c)

def ConnTest (s : NetMgr) (_events : Nat) (connect : ConnectIn) : Option NetMgr :=
  let n := s.connectors.length
  let c := Connector.new _events
  let s := {s with connectors := s.connectors ++ [c], m_connector := some n}
  (c.Connect connect).bind (s.posted n)

def updateConnector (s : NetMgr) (n : Nat) (i : ConnectorIn) : Option NetMgr :=
  if i.free then
    (((s.use n).connector n).handleEvents i).bind fun r =>
      ((s.use n).posted n r).map fun s => s.put n (s.connector n).finishUpdate
  else some (s.use n)

def updateSessions (s : NetMgr) (done : List Nat) : NetMgr :=
  {s with
    m_lstClients := s.m_lstClients.filter (· ∉ done)
    m_lstServers := s.m_lstServers.filter (· ∉ done)
    ended := s.ended ++ (s.m_lstClients ++ s.m_lstServers).filter (· ∈ done)}

def Update (s : NetMgr) (i : ConnectorIn) (done : List Nat) : Option NetMgr :=
  let s : NetMgr := {s with m_listener := s.m_listener.map Listener.Update}
  let updated := match s.m_connector with
    | none => some s
    | some n => s.updateConnector n i
  updated.map (updateSessions · done)

def abortConnector (s : NetMgr) (n : Nat) : NetMgr := s.put n (s.connector n).Abort

def OnQuit (s : NetMgr) : NetMgr :=
  let s := {s with m_listener := s.m_listener.map Listener.Close}
  match s.m_connector with
  | none => s
  | some n => s.abortConnector n

/-- The wait for the listener in `End`. -/
def waitListener (rounds : Nat) (l : Listener) : Option Listener :=
  Loop.whileDo (fun l => !l.Disposable) Listener.Update rounds l.Close

def eventOf (s : NetMgr) (n : Nat) : Option Nat → NetMgr
  | some events =>
    if (s.connector n).registered then s.put n ((s.connector n).connectorCb events) else s
  | none => s

/-- The wait for the connector in `End`. -/
def waitConnector (n : Nat) : List ConnectorWait → NetMgr → Option NetMgr
  | waits,s =>
    if ((s.use n).connector n).Disposable then some (s.use n)
    else
      match waits with
      | [] => none
      | w::waits => (((s.use n).eventOf n w.events).updateConnector n w.update).bind
          (waitConnector n waits)

def endListener (s : NetMgr) (rounds : Nat) : Option NetMgr :=
  match s.m_listener with
  | none => some s
  | some l => (waitListener rounds l).map fun _ => {s with m_listener := none}

def endConnector (s : NetMgr) (waits : List ConnectorWait) : Option NetMgr :=
  match s.m_connector with
  | none => some s
  | some n => (waitConnector n waits (s.abortConnector n)).map fun s =>
      {s.delete n with m_connector := none}

/-- Each session is disconnected, waited for and deleted. -/
def endSessions (s : NetMgr) : NetMgr :=
  {s with
    m_lstClients := []
    m_lstServers := []
    ended := s.ended ++ (s.m_lstClients ++ s.m_lstServers)}

def End (s : NetMgr) (rounds : Nat) (waits : List ConnectorWait) : Option NetMgr :=
  ((s.endListener rounds).bind fun s => s.endConnector waits).map endSessions

def onListener (s : NetMgr) (events sockErr : Nat) (accepts : List AcceptRet) : Option NetMgr :=
  match s.m_listener with
  | none => none
  | some l =>
    if l.registered then
      (l.listenerCb events sockErr accepts).map fun r =>
        r.1.foldl OnAccepted {s with m_listener := some r.2}
    else none

def step (s : NetMgr) : NetOp → Option NetMgr
  | .begin fd init => s.Begin fd init
  | .onAccepted fd => some (s.OnAccepted fd)
  | .connTest _events connect => s.ConnTest _events connect
  | .listenerCb events sockErr accepts => s.onListener events sockErr accepts
  | .connectorCb n events => if n ∈ s.gone then none else some (s.eventOf n (some events))
  | .update i done => s.Update i done
  | .onQuit => some s.OnQuit
  | .stop rounds waits => s.End rounds waits

/-- After each operation: `m_connector` is null or live, no deleted connector has been used,
and a live session is in exactly one list. -/
structure Owned (s : NetMgr) : Prop where
  connector : ∀ n ∈ s.m_connector, n < s.connectors.length ∧ n ∉ s.gone
  used : s.stale = false
  session : ∀ n < s.sessions.length, n ∉ s.ended →
    s.m_lstClients.count n + s.m_lstServers.count n = 1

/-- No session and no connector is alive. -/
structure Cleared (s : NetMgr) : Prop where
  sessions : ∀ n < s.sessions.length, n ∈ s.ended
  connectors : ∀ n < s.connectors.length, n ∈ s.gone

/-- No connect succeeds, and `ConnTest` finds no connector. -/
def Apart (s : NetMgr) : NetOp → Prop
  | .connTest _ (.connects _ rets) => s.m_connector = none ∧ Connector.succeeds rets = false
  | .connTest _ _ => s.m_connector = none
  | .update i _ => i.free = true → ∀ n ∈ s.m_connector, (s.connector n).Asks i →
      Connector.succeeds i.rets = false
  | _ => True

instance (s : NetMgr) (op : NetOp) : Decidable (s.Apart op) := by
  unfold Apart
  split <;> infer_instance

structure Inv (s : NetMgr) : Prop where
  sessions : Account (s.m_lstClients ++ s.m_lstServers) s.ended s.sessions.length
  connectors : Account s.m_connector.toList s.gone s.connectors.length
  used : s.stale = false

theorem Inv.owned {s : NetMgr} (inv : s.Inv) : s.Owned where
  connector := by
    intro n member
    exact inv.connectors.held_only (Option.mem_toList.mpr member)
  used := inv.used
  session := by
    intro n made living
    have once := inv.sessions.once made
    rwa [List.count_eq_zero_of_not_mem living,List.count_append] at once

/-- Only the fields of connectors have changed. -/
structure Kept (s t : NetMgr) : Prop where
  same : t = {s with connectors := t.connectors}
  length : t.connectors.length = s.connectors.length

theorem Kept.refl (s : NetMgr) : s.Kept s := ⟨rfl,rfl⟩

theorem Kept.trans {s t u : NetMgr} (first : s.Kept t) (second : t.Kept u) : s.Kept u where
  same := by
    rw [second.same,first.same]
  length := second.length.trans first.length

theorem Inv.kept {s t : NetMgr} (inv : s.Inv) (kept : s.Kept t) : t.Inv := by
  obtain ⟨same,length⟩ := kept
  rw [same]
  exact ⟨inv.sessions,length ▸ inv.connectors,inv.used⟩

theorem Inv.listener {s : NetMgr} (inv : s.Inv) (l : Option Listener) :
    Inv {s with m_listener := l} := ⟨inv.sessions,inv.connectors,inv.used⟩

theorem use_live {s : NetMgr} {n : Nat} (live : n ∉ s.gone) : s.use n = s := by
  simp [use,live]

theorem put_live {s : NetMgr} {n : Nat} (live : n ∉ s.gone) (c : Connector) :
    s.Kept (s.put n c) := by
  rw [put,use_live live]
  exact ⟨rfl,List.length_set⟩

theorem connector_put {s : NetMgr} {n : Nat} (here : n < s.connectors.length) (c : Connector) :
    (s.put n c).connector n = c := by
  simp [connector,put,use,here]

theorem put_put (s : NetMgr) (n : Nat) (c d : Connector) : (s.put n c).put n d = s.put n d := by
  by_cases gone : n ∈ s.gone <;> simp [put,use,gone]

theorem posted_returned (s : NetMgr) (n : Nat) {posted : Posted} (c : Connector)
    (other : posted ≠ .connected) : s.posted n (posted,c) = some (s.put n c) := by
  cases posted with
  | connected => exact absurd rfl other
  | returned ok => rfl

/-- `Update` of a live connector, by whether it gets to `on_connect`. -/
theorem updateConnector_cases {s t : NetMgr} {n : Nat} {i : ConnectorIn} (live : n ∉ s.gone)
    (here : n < s.connectors.length) (done : s.updateConnector n i = some t) :
    (i.free = true ∧ (s.connector n).Asks i ∧ Connector.succeeds i.rets = true ∧
      ∃ u c, s.posted n (.connected,c) = some u ∧ t = u.put n (u.connector n).finishUpdate) ∨
    ((i.free = true → (s.connector n).Asks i → Connector.succeeds i.rets = false) ∧
      s.Kept t ∧ (s.connector n).Stays (t.connector n)) := by
  unfold updateConnector at done
  rw [use_live live] at done
  split at done
  next free =>
    obtain ⟨⟨posted,c⟩,handled,done⟩ := Option.bind_eq_some_iff.mp done
    obtain ⟨u,went,rfl⟩ := Option.map_eq_some_iff.mp done
    rcases Connector.handleEvents_cases handled with ⟨rfl,_,asks,success⟩ | ⟨other,stays,fails⟩
    · exact .inl ⟨free,asks,success,u,c,went,rfl⟩
    · rw [posted_returned s n c other] at went
      cases went
      have kept := put_live live c
      have live' : n ∉ (s.put n c).gone := live
      have here' : n < (s.put n c).connectors.length := kept.length ▸ here
      refine .inr ⟨fun _ => fails,kept.trans (put_live live' _),?_⟩
      rw [connector_put here',connector_put here]
      exact stays.trans c.finishUpdate_stays
  next busy =>
    cases done
    exact .inr ⟨fun free => absurd free busy,.refl s,.refl _⟩

/-- What no operation takes back: a use of a deleted connector, and a connector that
`m_connector` has lost. -/
structure Grows (s t : NetMgr) : Prop where
  used : s.stale = true → t.stale = true
  length : s.connectors.length ≤ t.connectors.length
  gone : ∀ n ∈ t.gone, n ∈ s.gone ∨ n ∈ s.m_connector ∨ s.connectors.length ≤ n
  held : ∀ n ∈ t.m_connector,
    n ∈ s.m_connector ∨ s.connectors.length ≤ n ∧ n < t.connectors.length

theorem Grows.trans {s t u : NetMgr} (first : s.Grows t) (second : t.Grows u) : s.Grows u where
  used := second.used ∘ first.used
  length := first.length.trans second.length
  gone := by
    intro n member
    rcases second.gone n member with gone | held | new
    · exact first.gone n gone
    · exact .inr ((first.held n held).imp id And.left)
    · exact .inr (.inr (first.length.trans new))
  held := by
    intro n member
    rcases second.held n member with held | ⟨new,made⟩
    · rcases first.held n held with held | ⟨new,made⟩
      · exact .inl held
      · exact .inr ⟨new,Nat.lt_of_lt_of_le made second.length⟩
    · exact .inr ⟨first.length.trans new,made⟩

/-- Nothing happens to the connectors but that fields change. -/
theorem Grows.of_same {s t : NetMgr} (used : s.stale = true → t.stale = true)
    (length : t.connectors.length = s.connectors.length) (gone : t.gone = s.gone)
    (held : t.m_connector = s.m_connector) : s.Grows t where
  used := used
  length := length.ge
  gone := by
    rw [gone]
    exact fun n => .inl
  held := by
    rw [held]
    exact fun n => .inl

/-- An operation on the connector leaves both pointers as they are. -/
structure Within (s t : NetMgr) : Prop where
  grows : s.Grows t
  connector : t.m_connector = s.m_connector
  listener : t.m_listener = s.m_listener

theorem Within.refl (s : NetMgr) : s.Within s := ⟨.of_same id rfl rfl rfl,rfl,rfl⟩

theorem Within.trans {s t u : NetMgr} (first : s.Within t) (second : t.Within u) : s.Within u where
  grows := first.grows.trans second.grows
  connector := second.connector.trans first.connector
  listener := second.listener.trans first.listener

theorem use_within (s : NetMgr) (n : Nat) : s.Within (s.use n) :=
  ⟨.of_same (by simp +contextual [use]) rfl rfl rfl,rfl,rfl⟩

theorem put_within (s : NetMgr) (n : Nat) (c : Connector) : s.Within (s.put n c) :=
  ⟨.of_same (by simp +contextual [put,use]) List.length_set rfl rfl,rfl,rfl⟩

theorem delete_within {s : NetMgr} {n : Nat} (held : n ∈ s.m_connector) : s.Within (s.delete n) := by
  have put := (s.put_within n (s.connector n).destroy).grows
  refine ⟨⟨put.used,put.length,fun k member => ?_,fun k => .inl⟩,rfl,rfl⟩
  rcases List.mem_append.mp member with old | new
  · exact .inl old
  · rw [List.mem_singleton.mp new]
    exact .inr (.inl held)

theorem OnConnected_within {s t : NetMgr} (done : s.OnConnected = some t) : s.Within t := by
  obtain ⟨n,held,rfl⟩ := Option.map_eq_some_iff.mp done
  have opened : s.Within {s with
      sessions := s.sessions ++ [⟨(s.connector n)._socket,(s.connector n)._key⟩]} :=
    ⟨.of_same id rfl rfl rfl,rfl,rfl⟩
  exact (opened.trans (put_within _ n _)).trans (delete_within held)

theorem posted_within {s t : NetMgr} {n : Nat} {r : Posted × Connector}
    (done : s.posted n r = some t) : s.Within t := by
  obtain ⟨posted,c⟩ := r
  cases posted with
  | returned ok =>
    cases done
    exact s.put_within n c
  | connected =>
    obtain ⟨u,went,rfl⟩ := Option.map_eq_some_iff.mp done
    exact ((s.put_within n c).trans (OnConnected_within went)).trans (put_within _ n _)

theorem updateConnector_within {s t : NetMgr} {n : Nat} {i : ConnectorIn}
    (done : s.updateConnector n i = some t) : s.Within t := by
  unfold updateConnector at done
  split at done
  · obtain ⟨r,_,done⟩ := Option.bind_eq_some_iff.mp done
    obtain ⟨u,went,rfl⟩ := Option.map_eq_some_iff.mp done
    exact ((s.use_within n).trans (posted_within went)).trans (put_within _ n _)
  · cases done
    exact s.use_within n

theorem eventOf_within (s : NetMgr) (n : Nat) (events : Option Nat) :
    s.Within (s.eventOf n events) := by
  unfold eventOf
  split
  · split
    · exact s.put_within n _
    · exact .refl s
  · exact .refl s

theorem waitConnector_within {n : Nat} {waits : List ConnectorWait} {s t : NetMgr}
    (done : waitConnector n waits s = some t) : s.Within t := by
  induction waits generalizing s with
  | nil =>
    unfold waitConnector at done
    split at done
    · cases done
      exact s.use_within n
    · contradiction
  | cons w waits ih =>
    unfold waitConnector at done
    split at done
    · cases done
      exact s.use_within n
    · obtain ⟨u,updated,rest⟩ := Option.bind_eq_some_iff.mp done
      have come := (s.use_within n).trans ((s.use n).eventOf_within n w.events)
      exact (come.trans (updateConnector_within updated)).trans (ih rest)

theorem OnAccepted_inv {s : NetMgr} (inv : s.Inv) (fd : Nat) : (s.OnAccepted fd).Inv where
  sessions := by
    have made := inv.sessions.make
    rw [show s.sessions.length + 1 = (s.OnAccepted fd).sessions.length by simp [OnAccepted]] at made
    apply made.perm
    show List.Perm _ ((s.m_lstClients ++ [s.sessions.length]) ++ s.m_lstServers)
    rw [List.append_assoc]
    exact List.perm_middle.symm
  connectors := inv.connectors
  used := inv.used

theorem accept_all {P : NetMgr → Prop} (kept : ∀ s fd, P s → P (s.OnAccepted fd)) (fds : List Nat)
    {s : NetMgr} (before : P s) : P (fds.foldl OnAccepted s) := by
  induction fds generalizing s with
  | nil => exact before
  | cons fd fds ih => exact ih (kept s fd before)

theorem accept_all_grows (s : NetMgr) (fds : List Nat) : s.Grows (fds.foldl OnAccepted s) :=
  accept_all (P := s.Grows) (fun _ _ grows => grows.trans (.of_same id rfl rfl rfl)) fds
    (.of_same id rfl rfl rfl)

theorem listener_grows (s : NetMgr) (l : Option Listener) : s.Grows {s with m_listener := l} :=
  .of_same id rfl rfl rfl

theorem updateSessions_grows (s : NetMgr) (done : List Nat) : s.Grows (s.updateSessions done) :=
  .of_same id rfl rfl rfl

theorem ConnTest_grows {s t : NetMgr} {_events : Nat} {connect : ConnectIn}
    (done : s.ConnTest _events connect = some t) : s.Grows t := by
  obtain ⟨r,_,went⟩ := Option.bind_eq_some_iff.mp done
  have made : s.Grows {s with
      connectors := s.connectors ++ [Connector.new _events]
      m_connector := some s.connectors.length} := by
    refine ⟨id,by simp,fun n => .inl,fun n held => .inr ?_⟩
    cases held
    simp
  exact made.trans (posted_within went).grows

theorem Update_grows {s t : NetMgr} {i : ConnectorIn} {done : List Nat}
    (updated : s.Update i done = some t) : s.Grows t := by
  obtain ⟨u,went,rfl⟩ := Option.map_eq_some_iff.mp updated
  refine Grows.trans ?_ (u.updateSessions_grows done)
  split at went
  · cases went
    exact s.listener_grows _
  · exact (s.listener_grows _).trans (updateConnector_within went).grows

theorem endConnector_grows {s t : NetMgr} {waits : List ConnectorWait}
    (done : s.endConnector waits = some t) : s.Grows t ∧ t.m_connector = none := by
  unfold endConnector at done
  split at done
  next none =>
    cases done
    exact ⟨.of_same id rfl rfl rfl,none⟩
  next n held =>
    obtain ⟨u,waited,rfl⟩ := Option.map_eq_some_iff.mp done
    have wait := (s.put_within n _).trans (waitConnector_within waited)
    have ended := (wait.trans (delete_within (wait.connector.trans held))).grows
    exact ⟨⟨ended.used,ended.length,ended.gone,nofun⟩,rfl⟩

theorem endListener_eq {s t : NetMgr} {rounds : Nat} (done : s.endListener rounds = some t) :
    t = {s with m_listener := none} := by
  unfold endListener at done
  split at done
  next none =>
    cases done
    rw [← none]
  next =>
    obtain ⟨_,_,rfl⟩ := Option.map_eq_some_iff.mp done
    rfl

theorem End_cases {s t : NetMgr} {rounds : Nat} {waits : List ConnectorWait}
    (done : s.End rounds waits = some t) :
    ∃ u, ({s with m_listener := none} : NetMgr).endConnector waits = some u ∧ t = u.endSessions := by
  obtain ⟨u,went,rfl⟩ := Option.map_eq_some_iff.mp done
  obtain ⟨v,first,second⟩ := Option.bind_eq_some_iff.mp went
  rw [endListener_eq first] at second
  exact ⟨u,second,rfl⟩

theorem End_grows {s t : NetMgr} {rounds : Nat} {waits : List ConnectorWait}
    (done : s.End rounds waits = some t) : s.Grows t ∧ t.m_connector = none := by
  obtain ⟨u,went,rfl⟩ := End_cases done
  obtain ⟨grows,null⟩ := endConnector_grows went
  have closed : s.Grows u := (s.listener_grows none).trans grows
  exact ⟨closed.trans (.of_same id rfl rfl rfl),null⟩

theorem step_grows {s t : NetMgr} {op : NetOp} (stepped : step s op = some t) : s.Grows t := by
  cases op with
  | begin fd init =>
    obtain ⟨r,_,rfl⟩ := Option.map_eq_some_iff.mp stepped
    exact (s.listener_grows _).trans (accept_all_grows _ r.1)
  | onAccepted fd =>
    cases stepped
    exact .of_same id rfl rfl rfl
  | connTest _events connect => exact ConnTest_grows stepped
  | listenerCb events sockErr accepts =>
    simp only [step,onListener] at stepped
    split at stepped
    · contradiction
    · split at stepped
      · obtain ⟨r,_,rfl⟩ := Option.map_eq_some_iff.mp stepped
        exact (s.listener_grows _).trans (accept_all_grows _ r.1)
      · contradiction
  | connectorCb n events =>
    obtain ⟨_,went⟩ := Option.ite_none_left_eq_some.mp stepped
    cases went
    exact (s.eventOf_within n (some events)).grows
  | update i done => exact Update_grows stepped
  | onQuit =>
    cases stepped
    simp only [OnQuit]
    split
    · exact s.listener_grows _
    · exact (s.listener_grows _).trans (put_within _ _ _).grows
  | stop rounds waits => exact (End_grows stepped).1

theorem eventOf_kept {s : NetMgr} {n : Nat} (live : n ∉ s.gone) (here : n < s.connectors.length)
    (events : Option Nat) :
    s.Kept (s.eventOf n events) ∧ (s.connector n).Stays ((s.eventOf n events).connector n) := by
  unfold eventOf
  split
  · split
    · refine ⟨put_live live _,?_⟩
      rw [connector_put here]
      exact ⟨rfl,id⟩
    · exact ⟨.refl s,.refl _⟩
  · exact ⟨.refl s,.refl _⟩

/-- After `Abort` the wait reaches no `on_connect`: connect only fails on the closed socket. -/
theorem waitConnector_kept {n : Nat} {waits : List ConnectorWait} {s t : NetMgr}
    (live : n ∉ s.gone) (here : n < s.connectors.length)
    (aborted : (s.connector n)._status = .connecting → (s.connector n)._socket = -1)
    (done : waitConnector n waits s = some t) : s.Kept t := by
  induction waits generalizing s with
  | nil =>
    unfold waitConnector at done
    rw [use_live live] at done
    split at done
    · cases done
      exact .refl _
    · contradiction
  | cons w waits ih =>
    unfold waitConnector at done
    rw [use_live live] at done
    split at done
    · cases done
      exact .refl _
    · obtain ⟨u,updated,rest⟩ := Option.bind_eq_some_iff.mp done
      obtain ⟨come,stays⟩ := eventOf_kept live here w.events
      have live' : n ∉ (s.eventOf n w.events).gone := by
        rw [come.same]
        exact live
      have here' : n < (s.eventOf n w.events).connectors.length := come.length ▸ here
      have shut {c : Connector} (stays : (s.connector n).Stays c)
          (connecting : c._status = .connecting) : c._socket = -1 :=
        stays.socket.trans (aborted (stays.status connecting))
      rcases updateConnector_cases live' here' updated with
        ⟨_,asks,_⟩ | ⟨_,kept,stays'⟩
      · exact absurd (shut stays asks.2.1) asks.2.2.1
      · have both := come.trans kept
        have live'' : n ∉ u.gone := by
          rw [both.same]
          exact live
        exact both.trans (ih live'' (both.length ▸ here) (shut (stays.trans stays')) rest)

theorem Abort_shuts (c : Connector) : c.Abort._status = .connecting → c.Abort._socket = -1 := by
  unfold Connector.Abort
  split
  next => exact fun _ => rfl
  next other => exact fun same => absurd same other

theorem endConnector_inv {s t : NetMgr} (inv : s.Inv) {waits : List ConnectorWait}
    (done : s.endConnector waits = some t) : t.Inv ∧ t.m_connector = none := by
  unfold endConnector at done
  split at done
  next null =>
    cases done
    exact ⟨inv,null⟩
  next n held =>
    obtain ⟨u,waited,rfl⟩ := Option.map_eq_some_iff.mp done
    obtain ⟨here,live⟩ := inv.owned.connector n held
    have aborted := put_live live (s.connector n).Abort
    have live' : n ∉ (s.abortConnector n).gone := live
    have shut : ((s.abortConnector n).connector n)._status = .connecting →
        ((s.abortConnector n).connector n)._socket = -1 := by
      rw [abortConnector,connector_put here]
      exact Abort_shuts _
    have kept := aborted.trans
      (waitConnector_kept live' (aborted.length ▸ here) shut waited)
    have inv' := inv.kept kept
    have live'' : n ∉ u.gone := by
      rw [kept.same]
      exact live
    have held' : u.m_connector = some n := by
      rw [kept.same]
      exact held
    have deleted := inv'.kept (put_live live'' (u.connector n).destroy)
    have connectors := deleted.connectors
    rw [show (u.put n (u.connector n).destroy).m_connector = some n from held'] at connectors
    have freed : Account [] (u.gone ++ [n]) (u.put n (u.connector n).destroy).connectors.length :=
      Account.free_all connectors
    exact ⟨⟨deleted.sessions,freed,deleted.used⟩,rfl⟩

theorem End_inv {s t : NetMgr} (inv : s.Inv) {rounds : Nat} {waits : List ConnectorWait}
    (done : s.End rounds waits = some t) : t.Inv ∧ t.Cleared := by
  obtain ⟨u,went,rfl⟩ := End_cases done
  obtain ⟨inv',null⟩ := endConnector_inv (inv.listener none) went
  have sessions : Account [] (u.ended ++ (u.m_lstClients ++ u.m_lstServers)) u.sessions.length := by
    apply Account.free_all
    rw [List.append_nil]
    exact inv'.sessions
  have connectors := inv'.connectors
  refine ⟨⟨sessions,connectors,inv'.used⟩,fun n => sessions.all_gone,?_⟩
  rw [null] at connectors
  exact fun n => connectors.all_gone

theorem updateSessions_inv {s : NetMgr} (inv : s.Inv) (done : List Nat) :
    (s.updateSessions done).Inv where
  sessions := by
    refine Account.free_all (inv.sessions.perm ?_)
    show List.Perm _ (_ ++ (s.m_lstClients.filter (· ∉ done) ++ s.m_lstServers.filter (· ∉ done)))
    rw [← List.filter_append]
    simpa using (List.filter_append_perm (· ∈ done) (s.m_lstClients ++ s.m_lstServers)).symm
  connectors := inv.connectors
  used := inv.used

theorem ConnTest_inv {s t : NetMgr} (inv : s.Inv) (null : s.m_connector = none) {_events : Nat}
    {connect : ConnectIn} (done : s.ConnTest _events connect = some t)
    (fails : ∀ fd rets, connect = .connects fd rets → Connector.succeeds rets = false) : t.Inv := by
  obtain ⟨⟨posted,c⟩,connected,went⟩ := Option.bind_eq_some_iff.mp done
  have connectors := inv.connectors
  rw [null] at connectors
  have made : Inv {s with
      connectors := s.connectors ++ [Connector.new _events]
      m_connector := some s.connectors.length} := by
    refine ⟨inv.sessions,?_,inv.used⟩
    rw [List.length_append]
    exact connectors.make
  have live : s.connectors.length ∉ s.gone :=
    (made.owned.connector s.connectors.length rfl).2
  rcases Connector.connect_cases connected with ⟨_,fd,rets,same,success⟩ | ⟨other,_⟩
  · rw [fails fd rets same] at success
    cases success
  · rw [posted_returned _ _ c other] at went
    cases went
    refine made.kept (put_live ?_ c)
    exact live

theorem Update_inv {s t : NetMgr} (inv : s.Inv) {i : ConnectorIn} {done : List Nat}
    (updated : s.Update i done = some t)
    (fails : i.free = true → ∀ n ∈ s.m_connector, (s.connector n).Asks i →
      Connector.succeeds i.rets = false) : t.Inv := by
  obtain ⟨u,went,rfl⟩ := Option.map_eq_some_iff.mp updated
  refine updateSessions_inv ?_ done
  have looked := inv.listener (s.m_listener.map Listener.Update)
  split at went
  next =>
    cases went
    exact looked
  next n held =>
    obtain ⟨here,live⟩ := inv.owned.connector n held
    have live' : n ∉ ({s with m_listener := s.m_listener.map Listener.Update} : NetMgr).gone := live
    rcases updateConnector_cases live' here went with ⟨free,asks,success,_⟩ | ⟨_,kept,_⟩
    · rw [fails free n held asks] at success
      cases success
    · exact looked.kept kept

theorem step_inv {s t : NetMgr} {op : NetOp} (inv : s.Inv) (apart : s.Apart op)
    (stepped : step s op = some t) : t.Inv := by
  cases op with
  | begin fd init =>
    obtain ⟨r,_,rfl⟩ := Option.map_eq_some_iff.mp stepped
    exact accept_all (P := Inv) (fun _ fd inv => OnAccepted_inv inv fd) r.1 (inv.listener _)
  | onAccepted fd =>
    cases stepped
    exact OnAccepted_inv inv fd
  | connTest _events connect =>
    cases connect with
    | connects fd rets =>
      apply ConnTest_inv inv apart.1 stepped
      intro fd' rets' same
      cases same
      exact apart.2
    | noSocket =>
      have tested : s.ConnTest _events .noSocket = some t := stepped
      exact ConnTest_inv inv apart tested nofun
    | noBind errno =>
      have tested : s.ConnTest _events (.noBind errno) = some t := stepped
      exact ConnTest_inv inv apart tested nofun
    | badAddress errno =>
      have tested : s.ConnTest _events (.badAddress errno) = some t := stepped
      exact ConnTest_inv inv apart tested nofun
  | listenerCb events sockErr accepts =>
    simp only [step,onListener] at stepped
    split at stepped
    · contradiction
    · split at stepped
      · obtain ⟨r,_,rfl⟩ := Option.map_eq_some_iff.mp stepped
        exact accept_all (P := Inv) (fun _ fd inv => OnAccepted_inv inv fd) r.1 (inv.listener _)
      · contradiction
  | connectorCb n events =>
    obtain ⟨live,went⟩ := Option.ite_none_left_eq_some.mp stepped
    cases went
    simp only [eventOf]
    split
    · exact inv.kept (put_live live _)
    · exact inv
  | update i done => exact Update_inv inv stepped apart
  | onQuit =>
    cases stepped
    have looked := inv.listener (s.m_listener.map Listener.Close)
    simp only [OnQuit]
    split
    next => exact looked
    next n held =>
      refine looked.kept (put_live ?_ _)
      exact (inv.owned.connector n held).2
  | stop rounds waits => exact (End_inv inv stepped).1

/-- A deleted connector has been used, or a live one is where nobody deletes it. -/
def Lost (s : NetMgr) : Prop :=
  s.stale = true ∨ ∃ n < s.connectors.length, n ∉ s.gone ∧ n ∉ s.m_connector

theorem Grows.lost {s t : NetMgr} (grows : s.Grows t) (lost : s.Lost) : t.Lost := by
  rcases lost with used | ⟨n,here,live,nowhere⟩
  · exact .inl (grows.used used)
  · refine .inr ⟨n,Nat.lt_of_lt_of_le here grows.length,fun gone => ?_,fun held => ?_⟩
    · rcases grows.gone n gone with old | held | new
      · exact live old
      · exact nowhere held
      · omega
    · rcases grows.held n held with old | ⟨new,_⟩
      · exact nowhere old
      · omega

theorem posted_stale {s t : NetMgr} {n : Nat} {c : Connector} (held : s.m_connector = some n)
    (done : s.posted n (.connected,c) = some t) : t.stale = true := by
  obtain ⟨u,went,rfl⟩ := Option.map_eq_some_iff.mp done
  obtain ⟨k,held',rfl⟩ := Option.map_eq_some_iff.mp went
  cases held'.symm.trans held
  simp [put,use,delete]

theorem step_lost {s t : NetMgr} {op : NetOp} (inv : s.Inv) (met : ¬ s.Apart op)
    (stepped : step s op = some t) : t.Lost := by
  cases op with
  | connTest _events connect =>
    obtain ⟨⟨posted,c⟩,connected,went⟩ := Option.bind_eq_some_iff.mp stepped
    have grows := (posted_within went).grows
    by_cases null : s.m_connector = none
    · rcases Connector.connect_cases connected with ⟨rfl,_⟩ | ⟨_,fails⟩
      · exact .inl (posted_stale rfl went)
      · refine absurd ?_ met
        cases connect with
        | connects fd rets => exact ⟨null,fails fd rets rfl⟩
        | noSocket => exact null
        | noBind errno => exact null
        | badAddress errno => exact null
    · obtain ⟨n,held⟩ := Option.ne_none_iff_exists'.mp null
      obtain ⟨here,live⟩ := inv.owned.connector n held
      refine grows.lost (.inr ⟨n,?_,live,fun same => ?_⟩)
      · rw [List.length_append]
        exact Nat.lt_add_right 1 here
      · exact Nat.lt_irrefl n ((Option.some.inj same) ▸ here)
  | update i done =>
    obtain ⟨free,rest⟩ := Classical.not_imp.mp met
    obtain ⟨n,rest⟩ := Classical.not_forall.mp rest
    obtain ⟨held,rest⟩ := Classical.not_imp.mp rest
    obtain ⟨asks,success⟩ := Classical.not_imp.mp rest
    obtain ⟨u,went,rfl⟩ := Option.map_eq_some_iff.mp stepped
    obtain ⟨here,live⟩ := inv.owned.connector n held
    have live' : n ∉ ({s with m_listener := s.m_listener.map Listener.Update} : NetMgr).gone := live
    apply (u.updateSessions_grows done).lost
    split at went
    next null => cases null.symm.trans held
    next k same =>
      cases same.symm.trans held
      rcases updateConnector_cases live' here went with ⟨_,_,_,v,c,posted,rfl⟩ | ⟨fails,_⟩
      · refine (v.put_within n _).grows.lost (.inl (posted_stale ?_ posted))
        exact held
      · exact absurd (fails free asks) success
  | begin => exact absurd trivial met
  | onAccepted => exact absurd trivial met
  | listenerCb => exact absurd trivial met
  | connectorCb => exact absurd trivial met
  | onQuit => exact absurd trivial met
  | stop => exact absurd trivial met

theorem new_inv : new.Inv := ⟨.empty,.empty,rfl⟩

/-- Where no connect succeeds and `ConnTest` finds no connector, ownership holds after each
operation; and then only does `End` leave it so, with nothing alive. -/
theorem netmgr_ownership (ops : List NetOp) (t : NetMgr) (ran : Runs.run step new ops = some t) :
    (Runs.Meets step Apart new ops → Runs.Always step Owned new ops) ∧
    ∀ rounds waits e, step t (.stop rounds waits) = some e →
      (e.Owned ∧ e.Cleared ↔ Runs.Meets step Apart new ops) := by
  constructor
  · intro meets
    exact Runs.always_of_meets Inv Owned (fun _ inv => inv.owned) (fun _ _ _ => step_inv) new_inv meets
  · intro rounds waits e ended
    constructor
    · rintro ⟨owned,cleared⟩
      refine Runs.meets_of_not_lost Inv Lost (fun _ _ _ => step_inv) (fun _ _ _ => step_lost)
        (fun _ _ _ lost stepped => (step_grows stepped).lost lost) new_inv ran fun lost => ?_
      rcases (step_grows ended).lost lost with used | ⟨n,here,live,_⟩
      · cases used.symm.trans owned.used
      · exact live (cleared.connectors n here)
    · intro meets
      have inv := Runs.run_inv Inv (fun _ _ _ => step_inv) new_inv meets ran
      obtain ⟨inv',cleared⟩ := End_inv inv ended
      exact ⟨inv'.owned,cleared⟩

/-- Two clients, and a connect that is refused. -/
def refused : List NetOp :=
  [.begin 3 (.listening [.socket 7,.again]),.onAccepted 8,.connTest 0 (.connects 9 [.inProgress]),
    .connectorCb 0 epollOut,.update ⟨true,111,[]⟩ [0],.onQuit]

theorem netmgr_ownership_refused : ∃ t, Runs.run step new refused = some t ∧
    Runs.Always step Owned new refused ∧ ∃ e, step t (.stop 3 []) = some e ∧ e.Owned ∧ e.Cleared := by
  have done : ((Runs.run step new refused).bind (step · (.stop 3 []))).isSome = true := by decide
  obtain ⟨e,ended⟩ := Option.isSome_iff_exists.mp done
  obtain ⟨t,ran,ended⟩ := Option.bind_eq_some_iff.mp ended
  have apart : Runs.Meets step Apart new refused := by decide
  have ownership := netmgr_ownership refused t ran
  exact ⟨t,ran,ownership.1 apart,e,ended,(ownership.2 3 [] e ended).mpr apart⟩

/-- The connect succeeds: `m_connector` keeps the deleted connector, which `Update` goes on
using, and the new session is in no list. -/
theorem netmgr_disowned :
    ∃ t, Runs.run step new [.connTest 0 (.connects 9 [.inProgress]),.connectorCb 0 epollOut,
        .update ⟨true,0,[.done]⟩ []] = some t ∧
      t.m_connector = some 0 ∧ t.gone = [0] ∧ t.stale = true ∧ t.sessions = [⟨9,true⟩] ∧
      t.m_lstClients = [] ∧ t.m_lstServers = [] ∧ t.ended = [] ∧ ¬ t.Owned := by
  refine ⟨_,rfl,rfl,rfl,rfl,rfl,rfl,rfl,rfl,fun owned => ?_⟩
  exact absurd owned.used (by decide)

end NetMgr

end Pworld.Net
