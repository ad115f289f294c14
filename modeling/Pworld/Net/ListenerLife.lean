import Pworld.Net.Listener
import Pworld.Support.Runs

/-! The listener between two threads: the logic thread calls `Close` and `Update`, the
poller thread is somewhere in a callback. Every access to `_status`, every system call
and every call of a virtual function is a step of its own. -/
namespace Pworld.Net

/-- Where the logic thread is. -/
inductive Logic where
  | idle
  | close  -- in `Close`, which has found LS_RUNNING
  | closing  -- about to write LS_CLOSING
  | preclose  -- in `Update`, about to write LS_PRECLOSED
  | unregister
  | shut
  | onClosed
  | closed  -- about to write LS_CLOSED
  deriving DecidableEq,Repr

/-- The logic thread writes a status that is to stay. -/
def Logic.leaves : Logic → Bool
  | .closing => true
  | .preclose => true
  | .closed => true
  | _ => false

/-- Where the poller thread is in `__listener_cb__`. -/
inductive Poller where
  | idle
  | entered (events : Nat)
  | check  -- at the top of the loop of `_post_accept`
  | accept  -- has read LS_RUNNING
  | accepted (fd : Nat)  -- about to call `on_accept`
  | failed (errno : Nat)  -- about to call `_on_accept_error`
  deriving DecidableEq,Repr

/-- The callback is bound to call `on_accept` or to write LS_ERROR next. -/
def Poller.bound : Poller → Bool
  | .entered events => has events epollErr
  | .accepted _ => true
  | .failed _ => true
  | _ => false

structure Listening where
  self : Listener
  logic : Logic
  poller : Poller
  statuses : List ListenerStatus  -- those that `_status` has had, oldest first
  accepts : List ListenerStatus  -- `_status` at each call of `on_accept`
  closes : Nat  -- calls of `on_closed`
  deriving DecidableEq

inductive ListenerOp where
  | close
  | update
  | logic  -- the logic thread goes on
  | event (events : Nat)
  | branch (sockErr : Nat)
  | check
  | accept (ret : AcceptRet)
  | deliver
  | fail
  deriving DecidableEq,Repr

namespace Listening

/-- A listener whose `Init` has succeeded with the descriptor `fd`. -/
def start (fd : Nat) : Listening where
  self := ⟨fd,0,.running,true,true⟩
  logic := .idle
  poller := .idle
  statuses := [.running]
  accepts := []
  closes := 0

def setStatus (s : Listening) (status : ListenerStatus) : Listening :=
  {s with self := {s.self with _status := status}, statuses := s.statuses ++ [status]}

def close (s : Listening) : Listening :=
  if s.self._status = .running then {s with logic := .close} else s

-- `switch (_status)`
def update (s : Listening) : Listening :=
  match s.self._status with
  | .error => {s with logic := .preclose}
  | .closing => {s with logic := .preclose}
  | .preclosed => {s with logic := .unregister}
  | _ => s

/-- The next statement of `Close` or `Update`. -/
def next (s : Listening) : Logic → Option Listening
  | .idle => none
  | .close => some {s with self := s.self.closeSocket, logic := .closing}
  | .closing => some {s.setStatus .closing with logic := .idle}
  | .preclose => some {s.setStatus .preclosed with logic := .idle}
  -- an event that epoll has already given stays with the poller
  | .unregister => some {s with logic := .shut}
  | .shut => some {s with self := s.self.closeSocket, logic := .onClosed}
  | .onClosed => some {s with closes := s.closes + 1, logic := .closed}
  | .closed => some {s.setStatus .closed with logic := .idle}

def event (s : Listening) (events : Nat) : Listening :=
  {s with
    self := {s.self with registered := false, _accept_pending := false}
    poller := .entered events}

def branch (s : Listening) (events sockErr : Nat) : Listening :=
  {s with poller :=
    if has events epollErr then .failed sockErr
    else if has events epollIn then .check else .idle}

def check (s : Listening) : Listening :=
  {s with poller := if s.self._status = .running then .accept else .idle}

def accept (s : Listening) : AcceptRet → Listening
  | .socket fd => {s with poller := .accepted fd}
  | .intr => {s with poller := .check}
  | .connAborted => {s with poller := .check}
  | .again => {s with self := s.self.registerHandler, poller := .idle}
  | .err errno => {s with poller := .failed errno}

def deliver (s : Listening) : Listening :=
  {s with accepts := s.accepts ++ [s.self._status], poller := .check}

def fail (s : Listening) (errno : Nat) : Listening :=
  {s.setStatus .error with self := s.self._on_accept_error errno, poller := .idle}

def step (s : Listening) : ListenerOp → Option Listening
  | .close => if s.logic = .idle then some s.close else none
  | .update => if s.logic = .idle then some s.update else none
  | .logic => s.next s.logic
  | .event events => if s.poller = .idle ∧ s.self.registered then some (s.event events) else none
  | .branch sockErr =>
    match s.poller with
    | .entered events => some (s.branch events sockErr)
    | _ => none
  | .check => if s.poller = .check then some s.check else none
  | .accept ret => if s.poller = .accept then some (s.accept ret) else none
  | .deliver =>
    match s.poller with
    | .accepted _ => some s.deliver
    | _ => none
  | .fail =>
    match s.poller with
    | .failed errno => some (s.fail errno)
    | _ => none

/-- The status only moves forward, `on_closed` runs at most once, and `on_accept` only
while the listener runs. -/
structure Forward (s : Listening) : Prop where
  sorted : s.statuses.Pairwise fun a b => a.rank ≤ b.rank
  once : s.closes ≤ 1
  running : ∀ status ∈ s.accepts, status = .running

/-- Once the status has left LS_RUNNING no error event starts and accept4 gives neither
a socket nor an error, and it leaves LS_RUNNING only where no callback is bound to act. -/
def InTime (s : Listening) : ListenerOp → Prop
  | .event events => has events epollErr = true → s.self._status = .running
  | .accept ret => ret.decides = true → s.self._status = .running
  | .logic => s.logic.leaves = true → s.poller.bound = false
  | _ => True

instance (s : Listening) (op : ListenerOp) : Decidable (s.InTime op) := by
  cases op <;> unfold InTime <;> infer_instance

/-- What the logic thread has found out about the status still holds, or an error has
come in between. -/
def Known (s : Listening) : Prop :=
  match s.logic with
  | .idle => True
  | .close | .closing => s.self._status = .running ∨ s.self._status = .error
  | .preclose => s.self._status = .error ∨ s.self._status = .closing
  | _ => s.self._status = .preclosed

/-- What no interleaving breaks. -/
structure Coherent (s : Listening) : Prop where
  last : s.statuses.getLast? = some s.self._status
  once : s.poller ≠ .idle → s.self.registered = false
  live : s.self.registered = true ∨ s.poller ≠ .idle →
    s.self._status = .running ∨ 2 < s.self._status.rank

structure Inv (s : Listening) : Prop where
  coherent : s.Coherent
  forward : s.Forward
  closes : s.closes = if s.self._status = .closed ∨ s.logic = .closed then 1 else 0
  known : s.Known
  sound : s.poller.bound = true → s.self._status = .running

/-- A callback is bound to act on a listener that has moved on. -/
def Late (s : Listening) : Prop := s.poller.bound = true ∧ 2 < s.self._status.rank

/-- What a step can do, with what it needs. -/
inductive Stepped (s : Listening) : ListenerOp → Listening → Prop where
  | close : s.logic = .idle → Stepped s .close s.close
  | update : s.logic = .idle → Stepped s .update s.update
  | goes (s' : Listening) : s.next s.logic = some s' → Stepped s .logic s'
  | event (events : Nat) : s.poller = .idle → s.self.registered = true →
    Stepped s (.event events) (s.event events)
  | branch (events sockErr : Nat) : s.poller = .entered events →
    Stepped s (.branch sockErr) (s.branch events sockErr)
  | check : s.poller = .check → Stepped s .check s.check
  | accept (ret : AcceptRet) : s.poller = .accept → Stepped s (.accept ret) (s.accept ret)
  | deliver (fd : Nat) : s.poller = .accepted fd → Stepped s .deliver s.deliver
  | fail (errno : Nat) : s.poller = .failed errno → Stepped s .fail (s.fail errno)

theorem step_cases {s s' : Listening} {op : ListenerOp} (stepped : step s op = some s') :
    Stepped s op s' := by
  cases op with
  | close =>
    obtain ⟨idle,same⟩ := Option.ite_none_right_eq_some.mp stepped
    cases same
    exact .close idle
  | update =>
    obtain ⟨idle,same⟩ := Option.ite_none_right_eq_some.mp stepped
    cases same
    exact .update idle
  | logic => exact .goes s' stepped
  | event events =>
    obtain ⟨ready,same⟩ := Option.ite_none_right_eq_some.mp stepped
    cases same
    exact .event events ready.1 ready.2
  | branch sockErr =>
    simp only [step] at stepped
    split at stepped
    next events here => cases stepped; exact .branch events sockErr here
    next => contradiction
  | check =>
    obtain ⟨here,same⟩ := Option.ite_none_right_eq_some.mp stepped
    cases same
    exact .check here
  | accept ret =>
    obtain ⟨here,same⟩ := Option.ite_none_right_eq_some.mp stepped
    cases same
    exact .accept ret here
  | deliver =>
    simp only [step] at stepped
    split at stepped
    next fd here => cases stepped; exact .deliver fd here
    next => contradiction
  | fail =>
    simp only [step] at stepped
    split at stepped
    next errno here => cases stepped; exact .fail errno here
    next => contradiction

/-- The five statements of the logic thread, by what they do to the status. -/
inductive Goes (s : Listening) : Listening → Prop where
  | shut (logic : Logic) (l : Listener) : l._status = s.self._status →
    l.registered = s.self.registered → logic ≠ .closed →
    (s.logic = .close ∧ logic = .closing ∨
      s.logic = .unregister ∧ logic = .shut ∨ s.logic = .shut ∧ logic = .onClosed) →
    Goes s {s with self := l, logic := logic}
  | writes (status : ListenerStatus) : 2 < status.rank → s.logic.leaves = true →
    (s.logic = .closing ∧ status = .closing ∨ s.logic = .preclose ∧ status = .preclosed ∨
      s.logic = .closed ∧ status = .closed) → Goes s {s.setStatus status with logic := .idle}
  | closes : s.logic = .onClosed → Goes s {s with closes := s.closes + 1, logic := .closed}

theorem next_cases {s s' : Listening} (goes : s.next s.logic = some s') : Goes s s' := by
  cases here : s.logic <;> rw [here] at goes <;> cases goes
  case close => exact .shut _ _ rfl rfl (by simp) (.inl ⟨here,rfl⟩)
  case closing => exact .writes _ (by decide) (by simp [here,Logic.leaves]) (.inl ⟨here,rfl⟩)
  case preclose =>
    exact .writes _ (by decide) (by simp [here,Logic.leaves]) (.inr (.inl ⟨here,rfl⟩))
  case unregister => exact .shut _ s.self rfl rfl (by simp) (.inr (.inl ⟨here,rfl⟩))
  case shut => exact .shut _ _ rfl rfl (by simp) (.inr (.inr ⟨here,rfl⟩))
  case onClosed => exact .closes here
  case closed =>
    exact .writes _ (by decide) (by simp [here,Logic.leaves]) (.inr (.inr ⟨here,rfl⟩))

theorem close_alone {s : Listening} (idle : s.logic = .idle) (running : s.self._status = .running) :
    (Runs.run step s [.close,.logic,.logic]).map (·.self) = some s.self.Close := by
  simp [Runs.run,step,idle,Listening.close,running,next,setStatus,Listener.Close,
    Listener.closeSocket]

/-- The steps of the logic thread in one call of `Update`. -/
def updateSteps : ListenerStatus → List ListenerOp
  | .error | .closing => [.update,.logic]
  | .preclosed => [.update,.logic,.logic,.logic,.logic]
  | _ => [.update]

theorem update_alone {s : Listening} (idle : s.logic = .idle) :
    (Runs.run step s (updateSteps s.self._status)).map (·.self) = some s.self.Update := by
  cases status : s.self._status
  all_goals simp [Runs.run,updateSteps,step,idle,Listening.update,status,next,setStatus,
    Listener.Update,Listener.closeSocket]

/-- The steps of the callback in one call of `_post_accept`. -/
def acceptSteps : List AcceptRet → List ListenerOp
  | [] => []
  | .socket fd::rets => .check::.accept (.socket fd)::.deliver::acceptSteps rets
  | .intr::rets => .check::.accept .intr::acceptSteps rets
  | .connAborted::rets => .check::.accept .connAborted::acceptSteps rets
  | .again::_ => [.check,.accept .again]
  | .err errno::_ => [.check,.accept (.err errno),.fail]

theorem check_running {s : Listening} (here : s.poller = .check)
    (running : s.self._status = .running) : step s .check = some {s with poller := .accept} := by
  simp [step,here,Listening.check,running]

theorem post_accept_alone {s : Listening} {rets : List AcceptRet} {r : List Nat × Bool × Listener}
    (here : s.poller = .check) (running : s.self._status = .running)
    (posted : Listener._post_accept rets s.self = some r) :
    ∃ t, Runs.run step s (acceptSteps rets) = some t ∧ t.self = r.2.2 ∧ t.poller = .idle ∧
      t.accepts = s.accepts ++ List.replicate r.1.length .running := by
  induction rets generalizing s r with
  | nil => simp [Listener._post_accept,running] at posted
  | cons ret rets ih =>
    have checked := check_running here running
    cases ret with
    | socket fd =>
      simp only [Listener._post_accept,running,ne_eq,not_true_eq_false,if_false] at posted
      obtain ⟨rest,done,rfl⟩ := Option.map_eq_some_iff.mp posted
      let s' : Listening := {s with accepts := s.accepts ++ [s.self._status], poller := .check}
      obtain ⟨t,ran,same,idle,accepts⟩ := ih (s := s') rfl running done
      refine ⟨t,?_,same,idle,?_⟩
      · rw [acceptSteps,Runs.run_cons,checked]
        exact ran
      · rw [accepts,List.length_cons,List.replicate_succ]
        simp [s',running]
    | intr | connAborted =>
      simp only [Listener._post_accept,running,ne_eq,not_true_eq_false,if_false] at posted
      obtain ⟨t,ran,rest⟩ := ih (s := {s with poller := .check}) rfl running posted
      refine ⟨t,?_,rest⟩
      rw [acceptSteps,Runs.run_cons,checked]
      exact ran
    | again =>
      simp only [Listener._post_accept,running,ne_eq,not_true_eq_false,if_false] at posted
      cases posted
      refine ⟨_,by rw [acceptSteps,Runs.run_cons,checked]; rfl,rfl,rfl,?_⟩
      simp [Listening.accept]
    | err errno =>
      simp only [Listener._post_accept,running,ne_eq,not_true_eq_false,if_false] at posted
      cases posted
      refine ⟨_,by rw [acceptSteps,Runs.run_cons,checked]; rfl,rfl,rfl,?_⟩
      simp [Listening.accept,Listening.fail,setStatus]

theorem start_inv (fd : Nat) : (start fd).Inv where
  coherent := ⟨rfl,fun away => absurd rfl away,fun _ => .inl rfl⟩
  forward := ⟨List.pairwise_singleton _ _,Nat.zero_le 1,by simp [start]⟩
  closes := rfl
  known := trivial
  sound := by simp [start,Poller.bound]

theorem setStatus_last (s : Listening) (status : ListenerStatus) :
    (s.setStatus status).statuses.getLast? = some status := List.getLast?_concat

/-- Only the poller and the registration have changed. -/
theorem Coherent.polls {s : Listening} (coherent : s.Coherent) {l : Listener} {poller : Poller}
    (status : l._status = s.self._status)
    (once : poller ≠ .idle → l.registered = false)
    (before : s.self.registered = true ∨ s.poller ≠ .idle) :
    Coherent {s with self := l, poller := poller} where
  last := coherent.last.trans (congrArg some status.symm)
  once := once
  live := by
    intro _
    show l._status = .running ∨ 2 < l._status.rank
    rw [status]
    exact coherent.live before

theorem Stepped.coherent {s s' : Listening} {op : ListenerOp} (coherent : s.Coherent)
    (stepped : Stepped s op s') : s'.Coherent := by
  cases stepped with
  | close idle =>
    unfold Listening.close
    split
    · exact ⟨coherent.last,coherent.once,coherent.live⟩
    · exact coherent
  | update idle =>
    unfold Listening.update
    split
    all_goals first | exact coherent | exact ⟨coherent.last,coherent.once,coherent.live⟩
  | goes _ goes =>
    cases next_cases goes with
    | shut logic l status registered _ _ =>
      refine ⟨coherent.last.trans (congrArg some status.symm),?_,?_⟩
      · intro busy
        exact registered.trans (coherent.once busy)
      · show l.registered = true ∨ _ → l._status = .running ∨ 2 < l._status.rank
        rw [status,registered]
        exact coherent.live
    | writes status late leaves _ =>
      exact ⟨setStatus_last s status,coherent.once,fun _ => .inr late⟩
    | closes _ => exact ⟨coherent.last,coherent.once,coherent.live⟩
  | event events idle registered =>
    exact coherent.polls rfl (fun _ => rfl) (.inl registered)
  | branch events sockErr here =>
    have busy : s.poller ≠ .idle := by simp [here]
    exact coherent.polls rfl (fun _ => coherent.once busy) (.inr busy)
  | check here =>
    have busy : s.poller ≠ .idle := by simp [here]
    exact coherent.polls rfl (fun _ => coherent.once busy) (.inr busy)
  | accept ret here =>
    have busy : s.poller ≠ .idle := by simp [here]
    cases ret with
    | again =>
      exact coherent.polls rfl (fun away => absurd rfl away) (.inr busy)
    | socket fd =>
      exact coherent.polls rfl (fun _ => coherent.once busy) (.inr busy)
    | intr => exact coherent.polls rfl (fun _ => coherent.once busy) (.inr busy)
    | connAborted =>
      exact coherent.polls rfl (fun _ => coherent.once busy) (.inr busy)
    | err errno =>
      exact coherent.polls rfl (fun _ => coherent.once busy) (.inr busy)
  | deliver fd here =>
    have busy : s.poller ≠ .idle := by simp [here]
    exact ⟨coherent.last,fun _ => coherent.once busy,fun _ => coherent.live (.inr busy)⟩
  | fail errno here =>
    have busy : s.poller ≠ .idle := by simp [here]
    refine ⟨setStatus_last s .error,fun away => absurd rfl away,?_⟩
    rintro (registered | away)
    · cases (coherent.once busy).symm.trans registered
    · exact absurd rfl away

theorem Inv.keep {s s' : Listening} (inv : s.Inv) (coherent : s'.Coherent)
    (status : s'.self._status = s.self._status) (statuses : s'.statuses = s.statuses)
    (accepts : s'.accepts = s.accepts) (closes : s'.closes = s.closes)
    (logic : s'.logic = .closed ↔ s.logic = .closed) (known : s'.Known)
    (sound : s'.poller.bound = true → s.self._status = .running) : s'.Inv where
  coherent := coherent
  forward := by
    refine ⟨?_,?_,?_⟩
    · rw [statuses]
      exact inv.forward.sorted
    · rw [closes]
      exact inv.forward.once
    · rw [accepts]
      exact inv.forward.running
  closes := by
    simp only [closes,status,logic]
    exact inv.closes
  known := known
  sound := by
    rw [status]
    exact sound

theorem Inv.polls {s : Listening} (inv : s.Inv) {l : Listener} {poller : Poller}
    (status : l._status = s.self._status)
    (coherent : Coherent {s with self := l, poller := poller})
    (sound : poller.bound = true → s.self._status = .running) :
    Inv {s with self := l, poller := poller} := by
  refine inv.keep coherent status rfl rfl rfl Iff.rfl ?_ sound
  have known := inv.known
  unfold Known at known ⊢
  simp only [status]
  exact known

theorem Known.le {s : Listening} (known : s.Known) {status : ListenerStatus}
    (writes : s.logic = .closing ∧ status = .closing ∨ s.logic = .preclose ∧ status = .preclosed ∨
      s.logic = .closed ∧ status = .closed) : s.self._status.rank ≤ status.rank := by
  unfold Known at known
  rcases writes with ⟨here,rfl⟩ | ⟨here,rfl⟩ | ⟨here,rfl⟩
  · simp only [here] at known
    rcases known with same | same <;> rw [same] <;> decide
  · simp only [here] at known
    rcases known with same | same <;> rw [same] <;> decide
  · simp only [here] at known
    rw [known]
    decide

theorem Goes.inv {s s' : Listening} (inv : s.Inv) (coherent : s'.Coherent)
    (free : s.logic.leaves = true → s.poller.bound = false) (goes : Goes s s') : s'.Inv := by
  cases goes with
  | shut logic l status registered open_ moves =>
    refine inv.keep coherent status rfl rfl rfl ?_ ?_ inv.sound
    · rcases moves with ⟨here,_⟩ | ⟨here,_⟩ | ⟨here,_⟩ <;> simp [here,open_]
    · have known := inv.known
      unfold Known at known ⊢
      rcases moves with ⟨here,rfl⟩ | ⟨here,rfl⟩ | ⟨here,rfl⟩
      all_goals
        simp only [here] at known
        simpa only [status] using known
  | writes status late leaves moves =>
    have le := inv.known.le moves
    refine ⟨coherent,⟨?_,inv.forward.once,inv.forward.running⟩,?_,trivial,?_⟩
    · exact (Runs.sorted_concat inv.forward.sorted inv.coherent.last).mpr le
    · have closes := inv.closes
      have known := inv.known
      unfold Known at known
      rcases moves with ⟨here,rfl⟩ | ⟨here,rfl⟩ | ⟨here,rfl⟩
      · simp only [here] at known closes
        rcases known with same | same <;> simpa [setStatus,same] using closes
      · simp only [here] at known closes
        rcases known with same | same <;> simpa [setStatus,same] using closes
      · simpa [setStatus,here] using closes
    · intro bound
      cases (free leaves).symm.trans bound
  | closes here =>
    have closes := inv.closes
    have known := inv.known
    unfold Known at known
    simp only [here] at known
    have zero : s.closes = 0 := by simpa [here,known] using closes
    refine ⟨coherent,⟨inv.forward.sorted,?_,inv.forward.running⟩,?_,known,inv.sound⟩
    · show s.closes + 1 ≤ 1
      rw [zero]
    · simp [zero]

theorem Stepped.inv {s s' : Listening} {op : ListenerOp} (inv : s.Inv) (met : s.InTime op)
    (stepped : Stepped s op s') : s'.Inv := by
  have coherent := stepped.coherent inv.coherent
  cases stepped with
  | close idle =>
    unfold Listening.close at coherent ⊢
    split
    next running =>
      rw [if_pos running] at coherent
      exact inv.keep coherent rfl rfl rfl rfl (by simp [idle]) (.inl running) inv.sound
    next => exact inv
  | update idle =>
    unfold Listening.update at coherent ⊢
    split
    next error =>
      simp only [error] at coherent
      exact inv.keep coherent rfl rfl rfl rfl (by simp [idle]) (.inl error) inv.sound
    next closing =>
      simp only [closing] at coherent
      exact inv.keep coherent rfl rfl rfl rfl (by simp [idle]) (.inr closing) inv.sound
    next preclosed =>
      simp only [preclosed] at coherent
      exact inv.keep coherent rfl rfl rfl rfl (by simp [idle]) preclosed inv.sound
    next => exact inv
  | goes _ goes => exact (next_cases goes).inv inv coherent met
  | event events idle registered => exact inv.polls rfl coherent met
  | branch events sockErr here =>
    refine inv.polls rfl coherent fun bound => inv.sound ?_
    rw [here]
    by_cases err : has events epollErr = true
    · exact err
    · by_cases readable : has events epollIn = true
      all_goals simp [err,readable,Poller.bound] at bound
  | check here =>
    apply inv.polls rfl coherent
    intro bound
    split at bound
    next running => exact running
    next => cases bound
  | accept ret here =>
    cases ret with
    | again => exact inv.polls rfl coherent fun bound => by cases bound
    | intr => exact inv.polls rfl coherent fun bound => by cases bound
    | connAborted => exact inv.polls rfl coherent fun bound => by cases bound
    | socket fd => exact inv.polls rfl coherent fun _ => met rfl
    | err errno => exact inv.polls rfl coherent fun _ => met rfl
  | deliver fd here =>
    have running : s.self._status = .running := inv.sound (by rw [here]; rfl)
    refine ⟨coherent,⟨inv.forward.sorted,inv.forward.once,?_⟩,inv.closes,inv.known,
      fun bound => by cases bound⟩
    intro status member
    rcases List.mem_append.mp member with old | new
    · exact inv.forward.running status old
    · rw [List.mem_singleton.mp new]
      exact running
  | fail errno here =>
    have running : s.self._status = .running := inv.sound (by rw [here]; rfl)
    have known := inv.known
    have closes := inv.closes
    refine ⟨coherent,⟨?_,inv.forward.once,inv.forward.running⟩,?_,?_,fun bound => by cases bound⟩
    · apply (Runs.sorted_concat inv.forward.sorted inv.coherent.last).mpr
      rw [running]
      decide
    · simpa [Listening.fail,setStatus,Listener._on_accept_error,running] using closes
    · unfold Known at known ⊢
      simp only [running] at known
      cases logic : s.logic <;> simp [logic,Listening.fail,setStatus,Listener._on_accept_error] at known ⊢

/-- A run that is not in time is lost when the callback ends. -/
theorem Stepped.late {s s' : Listening} {op : ListenerOp} (coherent : s.Coherent)
    (missed : ¬ s.InTime op) (stepped : Stepped s op s') : s'.Late := by
  have after {status : ListenerStatus} (moved : status ≠ .running)
      (live : status = .running ∨ 2 < status.rank) : 2 < status.rank := by
    rcases live with running | late
    · exact absurd running moved
    · exact late
  cases stepped with
  | close idle => exact absurd trivial missed
  | update idle => exact absurd trivial missed
  | goes _ goes =>
    have ⟨leaves,bound⟩ := Classical.not_imp.mp missed
    have bound : s.poller.bound = true := by simpa using bound
    cases next_cases goes with
    | shut logic l status registered open_ moves =>
      rcases moves with ⟨here,_⟩ | ⟨here,_⟩ | ⟨here,_⟩ <;> simp [here,Logic.leaves] at leaves
    | writes status late _ moves => exact ⟨bound,late⟩
    | closes here => simp [here,Logic.leaves] at leaves
  | event events idle registered =>
    have ⟨err,moved⟩ := Classical.not_imp.mp missed
    exact ⟨err,after moved (coherent.live (.inl registered))⟩
  | branch events sockErr here => exact absurd trivial missed
  | check here => exact absurd trivial missed
  | accept ret here =>
    have ⟨decides,moved⟩ := Classical.not_imp.mp missed
    have late := after moved (coherent.live (.inr (by simp [here])))
    cases ret with
    | socket fd => exact ⟨rfl,late⟩
    | err errno => exact ⟨rfl,late⟩
    | intr => cases decides
    | connAborted => cases decides
    | again => cases decides
  | deliver fd here => exact absurd trivial missed
  | fail errno here => exact absurd trivial missed

theorem Stepped.back {s s' : Listening} {op : ListenerOp} (stepped : Stepped s op s')
    (forward : s'.Forward) : s.Forward := by
  have shorter {before after : List ListenerStatus}
      (sorted : (before ++ after).Pairwise fun a b => a.rank ≤ b.rank) :
      before.Pairwise fun a b => a.rank ≤ b.rank := (List.pairwise_append.mp sorted).1
  cases stepped with
  | close idle =>
    unfold Listening.close at forward
    split at forward
    · exact ⟨forward.sorted,forward.once,forward.running⟩
    · exact forward
  | update idle =>
    unfold Listening.update at forward
    split at forward
    all_goals first | exact forward | exact ⟨forward.sorted,forward.once,forward.running⟩
  | goes _ goes =>
    cases next_cases goes with
    | shut => exact ⟨forward.sorted,forward.once,forward.running⟩
    | writes => exact ⟨shorter forward.sorted,forward.once,forward.running⟩
    | closes => exact ⟨forward.sorted,(Nat.le_succ _).trans forward.once,forward.running⟩
  | event => exact ⟨forward.sorted,forward.once,forward.running⟩
  | branch => exact ⟨forward.sorted,forward.once,forward.running⟩
  | check => exact ⟨forward.sorted,forward.once,forward.running⟩
  | accept ret => cases ret <;> exact ⟨forward.sorted,forward.once,forward.running⟩
  | deliver =>
    refine ⟨forward.sorted,forward.once,fun status member => ?_⟩
    exact forward.running status (List.mem_append_left _ member)
  | fail => exact ⟨shorter forward.sorted,forward.once,forward.running⟩

/-- A late callback stays late until it acts, and then the traces show it. -/
theorem Stepped.late_stays {s s' : Listening} {op : ListenerOp} (coherent : s.Coherent)
    (late : s.Late) (stepped : Stepped s op s') : s'.Late ∨ ¬ s'.Forward := by
  obtain ⟨bound,moved⟩ := late
  cases stepped with
  | close idle =>
    unfold Listening.close
    split <;> exact .inl ⟨bound,moved⟩
  | update idle =>
    unfold Listening.update
    split <;> exact .inl ⟨bound,moved⟩
  | goes _ goes =>
    cases next_cases goes with
    | shut logic l status registered _ _ => exact .inl ⟨bound,status.symm ▸ moved⟩
    | writes status later _ _ => exact .inl ⟨bound,later⟩
    | closes => exact .inl ⟨bound,moved⟩
  | event events idle => simp [idle,Poller.bound] at bound
  | branch events sockErr here =>
    simp only [here,Poller.bound] at bound
    refine .inl ⟨?_,moved⟩
    simp [Listening.branch,bound,Poller.bound]
  | check here => simp [here,Poller.bound] at bound
  | accept ret here => simp [here,Poller.bound] at bound
  | deliver fd here =>
    refine .inr fun forward => ?_
    have running : s.self._status = .running :=
      forward.running _ (List.mem_append_right _ List.mem_cons_self)
    rw [running] at moved
    exact absurd moved (by decide)
  | fail errno here =>
    refine .inr fun forward => ?_
    obtain ⟨front,same⟩ := List.getLast?_eq_some_iff.mp coherent.last
    have le : s.self._status.rank ≤ ListenerStatus.error.rank :=
      (List.pairwise_append.mp forward.sorted).2.2 _ (by simp [same]) _ (by simp)
    exact absurd moved (Nat.not_lt.mpr le)

/-- In a run that is in time the listener's life only moves forward; one that is not, and
whose callbacks have all ended, has gone back. -/
theorem listener_forward (fd : Nat) (ops : List ListenerOp) (t : Listening)
    (ran : Runs.run step (start fd) ops = some t) :
    (Runs.Meets step InTime (start fd) ops → t.Forward) ∧
    (t.poller = .idle → (t.Forward ↔ Runs.Meets step InTime (start fd) ops)) := by
  have pres (s : Listening) (op : ListenerOp) (s' : Listening) (inv : s.Inv) (met : s.InTime op)
      (stepped : step s op = some s') : s'.Inv := (step_cases stepped).inv inv met
  have onward (meets : Runs.Meets step InTime (start fd) ops) : t.Forward :=
    (Runs.run_inv Inv pres (start_inv fd) meets ran).forward
  refine ⟨onward,fun ended => ⟨fun forward => ?_,onward⟩⟩
  refine Runs.meets_of_not_lost Inv (fun s => s.Coherent ∧ (s.Late ∨ ¬ s.Forward)) pres ?_ ?_
    (start_inv fd) ran ?_
  · intro s op s' inv missed stepped
    have stepped := step_cases stepped
    exact ⟨stepped.coherent inv.coherent,.inl (stepped.late inv.coherent missed)⟩
  · intro s op s' lost stepped
    have stepped := step_cases stepped
    refine ⟨stepped.coherent lost.1,?_⟩
    rcases lost.2 with late | gone
    · exact stepped.late_stays lost.1 late
    · exact .inr fun forward => gone (stepped.back forward)
  · rintro ⟨_,late | gone⟩
    · have bound := late.1
      simp [ended,Poller.bound] at bound
    · exact gone forward

/-- A client comes, the callback asks for the next one, and the listener is closed. -/
def oneClient : List ListenerOp :=
  [.event epollIn,.branch 0,.check,.accept (.socket 7),.deliver,.check,.accept .again,
    .close,.logic,.logic,.update,.logic,.update,.logic,.logic,.logic,.logic]

theorem listener_forward_client : ∃ t, Runs.run step (start 3) oneClient = some t ∧
    t.self.Disposable = true ∧ t.Forward := by
  have done : (Runs.run step (start 3) oneClient).map (·.self.Disposable) = some true := by decide
  obtain ⟨t,ran,closed⟩ := Option.map_eq_some_iff.mp done
  exact ⟨t,ran,closed,(listener_forward 3 oneClient t ran).1 (by decide)⟩

/-- `Close` and three calls of `Update` come between the check of the status and accept4,
which then fails on the closed descriptor: LS_CLOSED turns into LS_ERROR, and two more calls
of `Update` run `on_closed` again. -/
theorem listener_backward :
    ∃ t, Runs.run step (start 3)
        [.event epollIn,.branch 0,.check,.close,.logic,.logic,.update,.logic,
          .update,.logic,.logic,.logic,.logic,.accept (.err 9),.fail,
          .update,.logic,.update,.logic,.logic,.logic,.logic] = some t ∧
      t.statuses = [.running,.closing,.preclosed,.closed,.error,.preclosed,.closed] ∧
      t.closes = 2 ∧ ¬ t.Forward := by
  refine ⟨_,rfl,rfl,rfl,fun forward => ?_⟩
  exact absurd forward.once (by decide)

end Listening

end Pworld.Net
