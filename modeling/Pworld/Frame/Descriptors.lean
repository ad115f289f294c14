import Pworld.Frame.Lifetime
import Pworld.Net.ListenerLife
import Pworld.Support.Lending

/-! The descriptors of the listener and of the client sessions, from the start of the listener to
the end of `CNetMgr::End`. The kernel gives a descriptor out again as soon as it is closed, and
the poller thread goes on all the time, also in a callback of the listener that `End` deletes. -/
namespace Pworld.Net

/-- The descriptor in a variable. -/
def number (socket : Int) : Option Int := if socket = -1 then none else some socket

/-- What a session has closed since. -/
def Session.closing (before after : Session) : List Int :=
  ((after.trace.drop before.trace.length).filter (· = .close)).map fun _ => before.socket

namespace Listening

/-- Out of accept4 and not yet given to `on_accept`. -/
def hand (l : Listening) : List Int :=
  match l.poller with
  | .accepted fd => [(fd : Int)]
  | _ => []

def closing (l : Listening) : ListenerOp → List Int
  | .logic => if l.logic = .close ∨ l.logic = .shut then (number l.self._listener).toList else []
  | _ => []

def logical : ListenerOp → Bool
  | .close | .update | .logic => true
  | _ => false

end Listening

end Pworld.Net

namespace Pworld.Frame

open Net

/-- Where the logic thread is. -/
inductive Stage where
  | serving
  | stopping  -- `End` waits for the listener
  | stopped  -- which is deleted
  | clearing  -- `_mutex_clients` is held until the last client is deleted
  | ended
  deriving DecidableEq,Repr

/-- The listener is deleted. -/
def Stage.past : Stage → Bool
  | .serving => false
  | .stopping => false
  | _ => true

structure Descriptors where
  server : Server
  listening : Listening
  stage : Stage
  kernel : Lending Int
  deriving DecidableEq

inductive DescriptorsOp where
  | server (op : ServerOp)
  | listening (op : ListenerOp)
  | onAccept (now : Nat)
  | stop
  | disconnect
  | lock
  | wait (i : UpdateIn)
  | delete
  | unlock
  deriving DecidableEq

namespace Server

def numbers (s : Server) : List Int := s.clients.filterMap fun c => number c.socket

/-- What a step from `s` to `t` closes. -/
def closes (s t : Server) : ServerOp → List Int
  | .visit _ =>
    match s.phase with
    | .visiting n =>
      match s.clients[n]?,t.clients[n]? with
      | some c,some d => c.closing d
      | _,_ => []
    | _ => []
  | .dispose =>
    match s.doomed with
    | some c => c.closing (⟨c,s.env⟩ : Ctx).destroy.self
    | none => []
  | _ => []

/-- The steps of the logic thread. -/
def logical : ServerOp → Bool
  | .collect _ | .callback | .complete => false
  | _ => true

end Server

namespace Descriptors

def start (interval : Nat) (fd : Nat) : Descriptors where
  server := .start interval
  listening := .start fd
  stage := .serving
  kernel := Lending.none.lend (fd : Int)

def held (s : Descriptors) : List Int :=
  (number s.listening.self._listener).toList ++ s.listening.hand ++ s.server.numbers

def close (s : Descriptors) (fds : List Int) : Descriptors :=
  {s with kernel := fds.foldl Lending.back s.kernel}

/-- The client that the last loop of `End` has come to. -/
def first (s : Descriptors) : Option Session := s.server.clients.head?

def onListening (s : Descriptors) (op : ListenerOp) : Option Descriptors :=
  (s.listening.step op).map fun l => {s with listening := l}.close (s.listening.closing op)

def step (s : Descriptors) : DescriptorsOp → Option Descriptors
  | .server (.accept _ _) => none
  | .server op =>
    if s.stage = .serving ∨ Server.logical op = false then
      (s.server.step op).map fun t => {s with server := t}.close (s.server.closes t op)
    else none
  | .listening .deliver => none
  -- accept4 needs the listener's descriptor, and gives one that is not in use
  | .listening (.accept (.socket fd)) =>
    if s.listening.self._listener ∈ s.kernel.out ∧ (fd : Int) ∉ s.kernel.out then
      (s.onListening (.accept (.socket fd))).map fun s => {s with kernel := s.kernel.lend fd}
    else none
  | .listening op =>
    if s.stage.past = false ∨ Listening.logical op = false then s.onListening op else none
  | .onAccept now =>
    match s.listening.poller with
    | .accepted fd =>
      if s.stage = .clearing then none
      else
        (s.onListening .deliver).bind fun s =>
          (s.server.step (.accept fd now)).map fun t => {s with server := t}
    | _ => none
  | .stop =>
    if s.stage = .serving ∧ s.server.phase = .idle ∧ s.listening.logic = .idle then
      some {s with stage := .stopping, listening := s.listening.close}
    else none
  | .disconnect =>
    if s.stage = .stopping ∧ s.listening.logic = .idle ∧ s.listening.self.Disposable then
      some {s with
        stage := .stopped
        server := {s.server with
          clients := s.server.clients.map fun c => if c.Active then c.Disconnect else c}}
    else none
  | .lock => if s.stage = .stopped then some {s with stage := .clearing} else none
  | .wait i =>
    if s.stage = .clearing ∧ s.first.any (!·.Disposable) then
      let visiting := {s.server with phase := .visiting 0}
      (visiting.step (.visit i)).map fun t =>
        {s with server := {t with phase := .idle}}.close (visiting.closes t (.visit i))
    else none
  | .delete =>
    if s.stage = .clearing ∧ s.first.any (·.Disposable) then
      let disposing := {s.server with phase := .disposing 0}
      (disposing.step .dispose).map fun t =>
        {s with server := {t with phase := .idle}}.close (disposing.closes t .dispose)
    else none
  | .unlock =>
    if s.stage = .clearing ∧ s.server.clients = [] then some {s with stage := .ended} else none

/-- Each descriptor that is open is in one place, and only open ones are closed; a closed session
has none; and `End` leaves one at most, that of a connection which was in the hands of the poller
thread when the listener was closed. -/
structure Sound (s : Descriptors) : Prop where
  holds : s.kernel.Holds s.held
  closed : ∀ c ∈ s.server.clients, c.status = .closed → c.socket = -1
  ended : s.stage = .ended → s.listening.self._listener = -1 ∧ s.kernel.out.length ≤ 1

end Descriptors

theorem closing_append {before after : Session} {cs : List Call}
    (trace : after.trace = before.trace ++ cs) :
    before.closing after = (cs.filter (· = .close)).map fun _ => before.socket := by
  unfold Session.closing
  rw [trace,List.drop_left]

/-- `Update` closes what the session then no longer has. -/
theorem update_closing {c d : Ctx} {i : UpdateIn} (ran : c.update i = some d) :
    (number c.self.socket).toList =
      c.self.closing d.self ++ (number d.self.socket).toList := by
  cases locked : i.locked with
  | false =>
    rw [Ctx.update_skipped _ locked] at ran
    cases ran
    rw [closing_append (List.append_nil _).symm]
    rfl
  | true =>
    obtain ⟨e,io,_,finished⟩ := Ctx.update_cases locked ran
    obtain ⟨cs,trace,quiet,_⟩ := io.calls
    have open_ : cs.filter (· = .close) = [] := by
      refine List.filter_eq_nil_iff.mpr fun call member same => ?_
      rw [decide_eq_true_eq] at same
      rw [same] at member
      exact (Call.io_keeps quiet).2 member
    have socket : e.self.socket = c.self.socket := io.socket
    rw [closing_append (by rw [finished.trace,trace,List.append_assoc]),List.filter_append,open_,
      List.nil_append,finished.socket,socket]
    unfold Session.endCalls
    cases Session.hangs c.self.events with
    | true => simp
    | false =>
      cases e.self.status with
      | preclosed =>
        by_cases valid : c.self.socket = -1
        · simp [socket,valid,number]
        · simp [socket,valid,number]
      | running => cases e.self.sendOver <;> cases e.self.recvOver <;> cases e.self.inEpoll <;> simp
      | _ => simp

theorem destroy_closing (c : Ctx) :
    (number c.self.socket).toList = c.self.closing c.destroy.self := by
  have trace : c.destroy.self.trace =
      c.self.trace ++ if c.self.socket ≠ -1 then [.close] else [] := by
    unfold Ctx.destroy
    rw [Session.closeSocket_eq]
  rw [closing_append trace]
  by_cases valid : c.self.socket = -1
  · simp [valid,number]
  · simp [valid,number]

namespace Server

/-- What a step other than `accept` does to the clients. -/
inductive Served (s t : Server) : ServerOp → Prop where
  | like (op : ServerOp) : List.Forall₂ Like s.clients t.clients → s.closes t op = [] → Served s t op
  | visit (i : UpdateIn) (n : Nat) (c : Session) (d : Ctx) : s.phase = .visiting n →
    s.clients[n]? = some c → (⟨c,s.env⟩ : Ctx).update i = some d →
    t.clients = s.clients.set n d.self → Served s t (.visit i)
  | delete (n : Nat) (c : Session) : s.clients[n]? = some c → s.doomed = some c →
    t.clients = s.clients.eraseIdx n → Served s t .dispose

theorem step_served {s t : Server} {op : ServerOp} (stepped : s.step op = some t)
    (other : ∀ socket now, op ≠ .accept socket now) : Served s t op := by
  have same : List.Forall₂ Like s.clients s.clients := List.forall₂_refl _
  cases op with
  | accept socket now => exact absurd rfl (other socket now)
  | collect ready =>
    obtain ⟨_,stepped⟩ := Option.ite_none_right_eq_some.mp stepped
    cases stepped
    exact .like _ same rfl
  | callback =>
    simp only [step] at stepped
    split at stepped
    next key events rest _ _ =>
      cases stepped
      refine .like _ (List.forall₂_map_right_iff.mpr (List.forall₂_same.mpr fun c _ => ?_)) rfl
      split
      · exact ⟨rfl,rfl,rfl,rfl⟩
      · exact .refl c
    next => cases stepped
  | complete =>
    simp only [step] at stepped
    split at stepped
    · cases stepped
      exact .like _ same rfl
    · cases stepped
  | frame t1 =>
    obtain ⟨_,stepped⟩ := Option.ite_none_right_eq_some.mp stepped
    cases stepped
    exact .like _ same rfl
  | visit i =>
    simp only [step] at stepped
    split at stepped
    next n phase =>
      split at stepped
      next => cases stepped
      next c at_ =>
        split at stepped
        next => cases stepped
        next d ran =>
          cases stepped
          exact .visit i n c d phase at_ ran rfl
    next => cases stepped
  | dispose =>
    simp only [step] at stepped
    split at stepped
    next n phase =>
      obtain ⟨c,at_,rfl⟩ := Option.map_eq_some_iff.mp stepped
      unfold dispose
      split
      next disposable =>
        exact .delete n c at_ (Option.mem_def.mp (doomed_mem phase at_ disposable)) rfl
      next live =>
        refine .like _ same ?_
        have none_ : s.doomed = none := by simp [doomed,phase,at_,live]
        simp [closes,none_]
    next => cases stepped
  | leave =>
    simp only [step] at stepped
    split at stepped
    · obtain ⟨_,stepped⟩ := Option.ite_none_right_eq_some.mp stepped
      cases stepped
      exact .like _ same rfl
    · cases stepped
  | dispatch tick =>
    simp only [step] at stepped
    split at stepped
    · split at stepped
      next => cases stepped; exact .like _ same rfl
      next m que popped =>
        obtain ⟨u,ran,rfl⟩ := Option.map_eq_some_iff.mp stepped
        obtain ⟨clients,env,like,_,rfl⟩ := onMsg_spec ran
        exact .like _ like rfl
    · cases stepped

theorem like_numbers {cs cs' : List Session} (like : List.Forall₂ Like cs cs') :
    (cs'.filterMap fun c => number c.socket) = cs.filterMap fun c => number c.socket := by
  induction like with
  | nil => rfl
  | cons first _ ih =>
    rw [List.filterMap_cons,List.filterMap_cons,first.socket,ih]

/-- What the clients had is what is closed and what they have. -/
theorem Served.numbers {s t : Server} {op : ServerOp} (served : Served s t op) :
    s.numbers.Perm (s.closes t op ++ t.numbers) := by
  cases served with
  | like _ like none_ =>
    rw [none_,List.nil_append,Server.numbers,Server.numbers,like_numbers like]
  | visit i n c d phase at_ ran clients =>
    obtain ⟨rest,before,after⟩ := filterMap_set_perm (f := fun c : Session => number c.socket) at_
    have inside := (List.getElem?_eq_some_iff.mp at_).1
    have now_ : t.clients[n]? = some d.self := by
      rw [clients,List.getElem?_set_self inside]
    have closes : s.closes t (.visit i) = c.closing d.self := by
      simp only [Server.closes,phase,at_,now_]
    unfold Server.numbers
    rw [closes,clients]
    refine before.trans ?_
    have gives : (number c.socket).toList = c.closing d.self ++ (number d.self.socket).toList :=
      update_closing ran
    rw [gives,List.append_assoc]
    exact (after d.self).symm.append_left _
  | delete n c at_ doomed clients =>
    obtain ⟨rest,before,_,after⟩ := set_perm at_
    have closes : s.closes t .dispose = (number c.socket).toList := by
      simp only [Server.closes,doomed]
      exact (destroy_closing ⟨c,s.env⟩).symm
    unfold Server.numbers
    rw [closes,clients]
    refine (before.filterMap _).trans ?_
    rw [List.filterMap_cons]
    cases number c.socket with
    | none => exact (after.filterMap _).symm
    | some fd => exact ((after.filterMap _).symm).cons fd

/-- A session has a socket while it runs, and none once it is closed. -/
def Bound (c : Session) : Prop :=
  (c.status = .closed → c.socket = -1) ∧ (c.status = .running → c.socket ≠ -1)

theorem Served.length {s t : Server} {op : ServerOp} (served : Served s t op) :
    t.clients.length ≤ s.clients.length := by
  cases served with
  | like _ like none_ => exact Nat.le_of_eq like.length_eq.symm
  | visit i n c d phase at_ ran clients =>
    rw [clients,List.length_set]
  | delete n c at_ doomed clients =>
    rw [clients]
    exact (List.eraseIdx_sublist _ _).length_le

theorem Served.bound {s t : Server} {op : ServerOp} (served : Served s t op)
    (bound : ∀ c ∈ s.clients, Bound c) : ∀ c ∈ t.clients, Bound c := by
  cases served with
  | like _ like none_ =>
    intro c' member
    obtain ⟨c,there,same⟩ := (forall₂_mem like).2 c' member
    unfold Bound
    rw [same.status,same.socket]
    exact bound c there
  | visit i n c d phase at_ ran clients =>
    intro e member
    rw [clients] at member
    obtain ⟨closed,running⟩ := bound c (List.mem_of_getElem? at_)
    rcases List.mem_or_eq_of_mem_set member with old | rfl
    · exact bound e old
    · exact Ctx.update_socket ran closed running
  | delete n c at_ doomed clients =>
    intro e member
    rw [clients] at member
    exact bound e (List.mem_of_mem_eraseIdx member)

end Server

/-- The listener that has called `on_closed`, or is closed, has no descriptor. -/
def Shut (l : Listening) : Prop :=
  l.logic = .onClosed ∨ l.logic = .closed ∨ l.self._status = .closed → l.self._listener = -1

/-- What a step of the listener does to its descriptors, where it takes or gives none. -/
structure Handles (l m : Listening) (op : ListenerOp) : Prop where
  gives : (number l.self._listener).toList = l.closing op ++ (number m.self._listener).toList
  hand : m.hand = l.hand
  shut : Shut l → Shut m
  stays : l.self._listener = -1 → m.self._listener = -1

theorem Handles.poll {l m : Listening} {op : ListenerOp} (none_ : l.closing op = [])
    (listener : m.self._listener = l.self._listener) (hand : m.hand = l.hand)
    (logic : m.logic = l.logic) (status : m.self._status = .closed → l.self._status = .closed) :
    Handles l m op where
  gives := by rw [none_,listener,List.nil_append]
  hand := hand
  shut := by
    intro shut past
    rw [logic] at past
    rw [listener]
    exact shut (past.imp_right fun past => past.imp_right status)
  stays := fun gone => listener.trans gone

theorem next_handles {l m : Listening} (stepped : l.next l.logic = some m) : Handles l m .logic := by
  cases here : l.logic <;> rw [here] at stepped <;> cases stepped
  case close =>
    refine ⟨?_,rfl,fun _ _ => rfl,fun _ => rfl⟩
    simp [Listening.closing,here,Listener.closeSocket,number]
  case shut =>
    refine ⟨?_,rfl,fun _ _ => rfl,fun _ => rfl⟩
    simp [Listening.closing,here,Listener.closeSocket,number]
  case unregister =>
    refine ⟨?_,rfl,fun shut past => ?_,fun gone => gone⟩
    · simp [Listening.closing,here]
    · exact shut (.inr (.inr (by simpa using past)))
  case onClosed =>
    refine ⟨?_,rfl,fun shut _ => shut (.inl here),fun gone => gone⟩
    simp [Listening.closing,here]
  case closed =>
    refine ⟨?_,rfl,fun shut _ => shut (.inr (.inl here)),fun gone => gone⟩
    simp [Listening.closing,here,Listening.setStatus]
  case closing =>
    refine ⟨?_,rfl,fun _ past => ?_,fun gone => gone⟩
    · simp [Listening.closing,here,Listening.setStatus]
    · simp [Listening.setStatus] at past
  case preclose =>
    refine ⟨?_,rfl,fun _ past => ?_,fun gone => gone⟩
    · simp [Listening.closing,here,Listening.setStatus]
    · simp [Listening.setStatus] at past

theorem listening_handles {l m : Listening} {op : ListenerOp} (stepped : l.step op = some m)
    (keeps : op ≠ .deliver) (apart : ∀ fd, op ≠ .accept (.socket fd)) : Handles l m op := by
  cases Listening.step_cases stepped with
  | close idle =>
    unfold Listening.close
    split
    · refine ⟨rfl,rfl,fun shut past => ?_,fun gone => gone⟩
      exact shut (.inr (.inr (by simpa using past)))
    · exact .poll rfl rfl rfl rfl fun closed => closed
  | update idle =>
    unfold Listening.update
    split
    · refine ⟨rfl,rfl,fun shut past => ?_,fun gone => gone⟩
      exact shut (.inr (.inr (by simpa using past)))
    · refine ⟨rfl,rfl,fun shut past => ?_,fun gone => gone⟩
      exact shut (.inr (.inr (by simpa using past)))
    · refine ⟨rfl,rfl,fun shut past => ?_,fun gone => gone⟩
      exact shut (.inr (.inr (by simpa using past)))
    · exact .poll rfl rfl rfl rfl fun closed => closed
  | goes m goes => exact next_handles goes
  | event events idle registered =>
    refine .poll rfl rfl ?_ rfl fun closed => closed
    simp [Listening.hand,Listening.event,idle]
  | branch events sockErr entered =>
    refine .poll rfl rfl ?_ rfl fun closed => closed
    simp only [Listening.hand,Listening.branch,entered]
    split_ifs <;> rfl
  | check here =>
    refine .poll rfl rfl ?_ rfl fun closed => closed
    simp only [Listening.hand,Listening.check,here]
    split_ifs <;> rfl
  | accept ret here =>
    cases ret with
    | socket fd => exact absurd rfl (apart fd)
    | _ => exact .poll rfl rfl (by simp [Listening.hand,Listening.accept,here]) rfl fun closed => closed
  | deliver fd here => exact absurd rfl keeps
  | fail errno here =>
    refine .poll rfl rfl ?_ rfl fun closed => ?_
    · simp [Listening.hand,Listening.fail,here]
    · simp [Listening.fail,Listener._on_accept_error] at closed

namespace Descriptors

structure Inv (s : Descriptors) : Prop where
  holds : s.kernel.Holds s.held
  bound : ∀ c ∈ s.server.clients, Server.Bound c
  shut : Shut s.listening
  past : s.stage.past = true → s.listening.self._listener = -1
  late : s.stage = .ended → s.server.clients.length + s.listening.hand.length ≤ 1

theorem number_mem {socket fd : Int} (member : fd ∈ (number socket).toList) : fd = socket ∧ fd ≠ -1 := by
  unfold number at member
  split at member
  next => simp at member
  next valid =>
    rw [Option.toList_some,List.mem_singleton] at member
    rw [member]
    exact ⟨rfl,valid⟩

theorem hand_ne {l : Listening} {fd : Int} (member : fd ∈ l.hand) : fd ≠ -1 := by
  unfold Listening.hand at member
  split at member
  · rw [List.mem_singleton.mp member]
    exact fun same => by cases same
  · exact absurd member List.not_mem_nil

theorem hand_length (l : Listening) : l.hand.length ≤ 1 := by
  unfold Listening.hand
  split
  · exact Nat.le_refl 1
  · exact Nat.zero_le 1

theorem numbers_length (t : Server) : t.numbers.length ≤ t.clients.length :=
  List.length_filterMap_le _ _

/-- What is open is never the number that stands for none. -/
theorem Inv.valid {s : Descriptors} (inv : s.Inv) : -1 ∉ s.kernel.out := by
  intro member
  rcases List.mem_append.mp (inv.holds.same.mem_iff.mpr member) with front | client
  · rcases List.mem_append.mp front with listener | hand
    · exact (number_mem listener).2 rfl
    · exact hand_ne hand rfl
  · obtain ⟨c,_,some_⟩ := List.mem_filterMap.mp client
    exact (number_mem (Option.mem_toList.mpr some_)).2 rfl

theorem Inv.sound {s : Descriptors} (inv : s.Inv) : s.Sound := by
  refine ⟨inv.holds,fun c member => (inv.bound c member).1,fun ended => ?_⟩
  have gone : s.listening.self._listener = -1 := inv.past (by rw [ended]; rfl)
  refine ⟨gone,?_⟩
  have late := inv.late ended
  have clients := numbers_length s.server
  rw [← inv.holds.same.length_eq,held,gone,List.length_append,List.length_append]
  simp only [number,if_true,Option.toList_none,List.length_nil]
  omega

/-- What the listener and the poller thread have is as before, and the clients have given up what
is closed. -/
theorem Inv.serve {s : Descriptors} (inv : s.Inv) {t u v : Server} {op : ServerOp}
    (served : Server.Served t u op) (before : t.clients = s.server.clients)
    (after : v.clients = u.clients) : ({s with server := v}.close (t.closes u op)).Inv where
  holds := by
    apply Lending.Holds.back_all
    apply inv.holds.perm
    have numbers : s.server.numbers.Perm (t.closes u op ++ v.numbers) := by
      have given := served.numbers
      unfold Server.numbers at given ⊢
      rwa [before,← after] at given
    have moved : (t.closes u op ++ (((number s.listening.self._listener).toList ++
        s.listening.hand) ++ v.numbers)).Perm (((number s.listening.self._listener).toList ++
        s.listening.hand) ++ (t.closes u op ++ v.numbers)) := List.perm_append_comm_assoc ..
    exact moved.trans (numbers.symm.append_left _)
  bound := by
    show ∀ c ∈ v.clients, _
    rw [after]
    refine served.bound ?_
    rw [before]
    exact inv.bound
  shut := inv.shut
  past := inv.past
  late := by
    intro ended
    refine Nat.le_trans (Nat.add_le_add_right ?_ _) (inv.late ended)
    show v.clients.length ≤ s.server.clients.length
    rw [after,← before]
    exact served.length

theorem Inv.listen {s : Descriptors} (inv : s.Inv) {l : Listening} {op : ListenerOp}
    (handles : Handles s.listening l op) :
    ({s with listening := l}.close (s.listening.closing op)).Inv where
  holds := by
    apply Lending.Holds.back_all
    have before := inv.holds
    unfold held at before
    rw [handles.gives,← handles.hand,List.append_assoc,List.append_assoc] at before
    unfold held
    rw [List.append_assoc]
    exact before
  bound := inv.bound
  shut := handles.shut inv.shut
  past := fun past => handles.stays (inv.past past)
  late := by
    intro ended
    show _ + l.hand.length ≤ 1
    rw [handles.hand]
    exact inv.late ended

/-- accept4 gives a descriptor to the poller thread. -/
theorem Inv.accept {s s' : Descriptors} {fd : Nat} (inv : s.Inv)
    (stepped : s.step (.listening (.accept (.socket fd))) = some s') : s'.Inv := by
  obtain ⟨⟨open_,fresh⟩,stepped⟩ := Option.ite_none_right_eq_some.mp stepped
  obtain ⟨t,accepted,rfl⟩ := Option.map_eq_some_iff.mp stepped
  obtain ⟨l,taken,rfl⟩ := Option.map_eq_some_iff.mp accepted
  obtain ⟨here,same⟩ := Option.ite_none_right_eq_some.mp taken
  cases same
  have valid : s.listening.self._listener ≠ -1 := fun gone => inv.valid (gone ▸ open_)
  have empty : s.listening.hand = [] := by simp [Listening.hand,here]
  refine ⟨?_,inv.bound,inv.shut,inv.past,fun ended => ?_⟩
  · refine (inv.holds.lend fresh).perm ?_
    unfold held
    rw [empty,List.append_nil]
    show ((number s.listening.self._listener).toList ++ [(fd : Int)] ++ s.server.numbers).Perm _
    rw [List.append_assoc]
    exact List.perm_middle
  · exact absurd (inv.past (by rw [show s.stage = .ended from ended]; rfl)) valid

/-- `OnAccepted` makes a session of it. -/
theorem Inv.onAccept {s s' : Descriptors} {now : Nat} (inv : s.Inv)
    (stepped : s.step (.onAccept now) = some s') : s'.Inv := by
  simp only [step] at stepped
  split at stepped
  next fd here =>
    split at stepped
    next => cases stepped
    next open_ =>
      obtain ⟨t,delivered,stepped⟩ := Option.bind_eq_some_iff.mp stepped
      obtain ⟨l,handed,rfl⟩ := Option.map_eq_some_iff.mp delivered
      obtain ⟨u,accepted,rfl⟩ := Option.map_eq_some_iff.mp stepped
      obtain ⟨_,same⟩ := Option.ite_none_right_eq_some.mp accepted
      cases same
      simp only [Listening.step,here,Option.some.injEq] at handed
      subst handed
      have hand : s.listening.hand = [(fd : Int)] := by simp [Listening.hand,here]
      have valid : (fd : Int) ≠ -1 := fun same => by cases same
      refine ⟨?_,?_,inv.shut,inv.past,fun ended => ?_⟩
      · have before := inv.holds
        unfold held at before
        rw [hand,List.append_assoc] at before
        refine before.perm ?_
        show ((number s.listening.self._listener).toList ++ [] ++
          (s.server.onAccepted fd now).numbers).Perm _
        rw [List.append_nil]
        refine List.Perm.append_left _ ?_
        unfold Server.numbers Server.onAccepted
        rw [List.filterMap_append]
        have one : [(Ctx.attached s.server.next s.server.next now (fd : Int) none s.server.next
            s.server.env).self].filterMap (fun c => number c.socket) = [(fd : Int)] := by
          show [fd].filterMap (fun fd : Nat => number (fd : Int)) = _
          simp [number]
        rw [one]
        exact List.perm_append_comm
      · intro c member
        rcases List.mem_append.mp member with old | new
        · exact inv.bound c old
        · rw [List.mem_singleton.mp new]
          exact ⟨fun closed => (by cases closed),fun _ => valid⟩
      · have late := inv.late ended
        rw [hand] at late
        show (s.server.clients ++ [_]).length + 0 ≤ 1
        rw [List.length_append]
        exact late
  next => cases stepped

theorem step_inv (s : Descriptors) (op : DescriptorsOp) (s' : Descriptors) (inv : s.Inv)
    (stepped : s.step op = some s') : s'.Inv := by
  cases op with
  | server op =>
    have serve (guarded : (if s.stage = .serving ∨ Server.logical op = false then
          (s.server.step op).map fun t => {s with server := t}.close (s.server.closes t op)
        else none) = some s') (other : ∀ socket now, op ≠ .accept socket now) : s'.Inv := by
      obtain ⟨_,stepped⟩ := Option.ite_none_right_eq_some.mp guarded
      obtain ⟨t,served,rfl⟩ := Option.map_eq_some_iff.mp stepped
      exact inv.serve (Server.step_served served other) rfl rfl
    cases op with
    | accept socket now => cases stepped
    | _ => exact serve stepped (by simp)
  | listening op =>
    have listen (guarded : (if s.stage.past = false ∨ Listening.logical op = false then
          s.onListening op else none) = some s') (keeps : op ≠ .deliver)
        (apart : ∀ fd, op ≠ .accept (.socket fd)) : s'.Inv := by
      obtain ⟨_,stepped⟩ := Option.ite_none_right_eq_some.mp guarded
      obtain ⟨l,moved,rfl⟩ := Option.map_eq_some_iff.mp stepped
      exact inv.listen (listening_handles moved keeps apart)
    cases op with
    | deliver => cases stepped
    | accept ret =>
      cases ret with
      | socket fd => exact inv.accept stepped
      | _ => exact listen stepped (by simp) (by simp)
    | _ => exact listen stepped (by simp) (by simp)
  | onAccept now => exact inv.onAccept stepped
  | stop =>
    obtain ⟨⟨_,_,idle⟩,stepped⟩ := Option.ite_none_right_eq_some.mp stepped
    cases stepped
    have handles : Handles s.listening s.listening.close .close :=
      listening_handles (if_pos idle) (by simp) (by simp)
    have closed := inv.listen handles
    exact ⟨closed.holds,closed.bound,closed.shut,by simp [Stage.past],by simp⟩
  | disconnect =>
    obtain ⟨⟨_,_,disposable⟩,stepped⟩ := Option.ite_none_right_eq_some.mp stepped
    cases stepped
    have gone : s.listening.self._listener = -1 :=
      inv.shut (.inr (.inr (by simpa [Listener.Disposable] using disposable)))
    have like : List.Forall₂ Like s.server.clients
        (s.server.clients.map fun c => if c.Active then c.Disconnect else c) := by
      refine List.forall₂_map_right_iff.mpr (List.forall₂_same.mpr fun c _ => ?_)
      unfold Session.Disconnect
      split_ifs
      · exact ⟨rfl,rfl,rfl,rfl⟩
      · exact .refl c
      · exact .refl c
    have served : Server.Served s.server {s.server with
        clients := s.server.clients.map fun c => if c.Active then c.Disconnect else c} .leave :=
      .like _ like rfl
    have kept := inv.serve served rfl rfl
    exact ⟨kept.holds,kept.bound,inv.shut,fun _ => gone,by simp⟩
  | lock =>
    obtain ⟨stopped,stepped⟩ := Option.ite_none_right_eq_some.mp stepped
    cases stepped
    exact ⟨inv.holds,inv.bound,inv.shut,fun _ => inv.past (by rw [stopped]; rfl),by simp⟩
  | wait i =>
    obtain ⟨_,stepped⟩ := Option.ite_none_right_eq_some.mp stepped
    obtain ⟨t,served,rfl⟩ := Option.map_eq_some_iff.mp stepped
    exact inv.serve (Server.step_served served (by simp)) rfl rfl
  | delete =>
    obtain ⟨_,stepped⟩ := Option.ite_none_right_eq_some.mp stepped
    obtain ⟨t,served,rfl⟩ := Option.map_eq_some_iff.mp stepped
    exact inv.serve (Server.step_served served (by simp)) rfl rfl
  | unlock =>
    obtain ⟨⟨clearing,empty⟩,stepped⟩ := Option.ite_none_right_eq_some.mp stepped
    cases stepped
    refine ⟨inv.holds,inv.bound,inv.shut,fun _ => inv.past (by rw [clearing]; rfl),fun _ => ?_⟩
    show s.server.clients.length + _ ≤ 1
    rw [empty,List.length_nil,Nat.zero_add]
    exact hand_length s.listening

theorem start_inv (interval fd : Nat) : (start interval fd).Inv where
  holds := Lending.holds_none.lend List.not_mem_nil
  bound := fun _ member => absurd member List.not_mem_nil
  shut := by simp [Shut,start,Listening.start]
  past := by simp [start,Stage.past]
  late := by simp [start]

/-- A connection that `OnAccepted` gets once `End` has returned: its session is never deleted. -/
def lateConnection : List DescriptorsOp :=
  [.listening (.event epollIn),.listening (.branch 0),.listening .check,
    .listening (.accept (.socket 6)),.stop,.listening .logic,.listening .logic,
    .listening .update,.listening .logic,.listening .update,.listening .logic,.listening .logic,
    .listening .logic,.listening .logic,.disconnect,.lock,.unlock,.onAccept 9]

example : (Runs.run step (start 40 3) lateConnection).map (fun s =>
    (s.stage,s.kernel.out,s.kernel.returns)) = some (.ended,[6],[(3,true)]) := by decide

end Descriptors

end Pworld.Frame
