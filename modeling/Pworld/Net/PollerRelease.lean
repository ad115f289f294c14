import Pworld.Frame.Server
import Pworld.Support.Ledger
import Pworld.Support.Runs
import Mathlib.Data.List.Forall2

/-! `Poller::Release`, which waits for the threads of the poller. The thread on Linux comes to its
end wherever it is when the epoll instance is closed; of those on Windows only the ones that wait
in `GetQueuedCompletionStatus` do. -/
namespace Pworld.Net

/-- Where the thread is in `__poller_thread_func__` on Linux. -/
inductive EpollAt where
  | begin  -- about to write `_running`
  | test
  | enter  -- about to call `epoll_wait`
  | waiting
  | handling (left : Nat)
  | done
  deriving DecidableEq,Repr

/-- Where `Release` is. -/
inductive Releasing where
  | serving
  | stopped  -- `_running` is false
  | closed
  | joining  -- `_epoll_fd` is -1
  | joined
  deriving DecidableEq,Repr

inductive WaitRet where
  | events (count : Nat)
  | intr
  | err
  deriving DecidableEq,Repr

structure EpollPoller where
  _running : Bool
  _epoll_fd : Bool  -- is not -1
  open_ : Bool  -- in the kernel
  at_ : EpollAt
  release : Releasing
  callbacks : Nat
  deriving DecidableEq

inductive EpollOp where
  | begin
  | test
  | enter
  | ret (r : WaitRet)
  | handle
  | stop
  | close
  | forget
  | join
  deriving DecidableEq

namespace EpollPoller

/-- After `Init`; no one has written `_running` so far. -/
def start (_running : Bool) : EpollPoller := ⟨_running,true,true,.begin,.serving,0⟩

def step (s : EpollPoller) : EpollOp → Option EpollPoller
  | .begin => if s.at_ = .begin then some {s with _running := true, at_ := .test} else none
  | .test =>
    if s.at_ = .test then some {s with at_ := if s._running then .enter else .done} else none
  -- EBADF ends the loop
  | .enter =>
    if s.at_ = .enter then
      some {s with at_ := if s._epoll_fd && s.open_ then .waiting else .done}
    else none
  | .ret r =>
    if s.at_ = .waiting then
      match r with
      | .events count =>
        if count ≤ Frame.maxEventCount then some {s with at_ := .handling count} else none
      | .intr => some {s with at_ := .test}
      | .err => some {s with at_ := .done}
    else none
  | .handle =>
    match s.at_ with
    | .handling 0 => some {s with at_ := .test}
    | .handling (left+1) => some {s with at_ := .handling left, callbacks := s.callbacks + 1}
    | _ => none
  | .stop =>
    if s.release = .serving then some {s with _running := false, release := .stopped} else none
  | .close => if s.release = .stopped then some {s with open_ := false, release := .closed} else none
  | .forget =>
    if s.release = .closed then some {s with _epoll_fd := false, release := .joining} else none
  | .join =>
    if s.release = .joining ∧ s.at_ = .done then some {s with release := .joined} else none

/-- The steps of the thread. -/
def own : EpollOp → Bool
  | .begin | .test | .enter | .ret _ | .handle => true
  | _ => false

/-- The steps that the thread can still take without an open epoll instance. -/
def left (s : EpollPoller) : Nat :=
  match s.at_ with
  | .begin => 3
  | .test => 2
  | .enter => 1
  | .waiting => Frame.maxEventCount + 4
  | .handling left => left + 3
  | .done => 0

/-- Once `Release` has closed the instance the thread takes only so many steps, and it can take one
until it has ended; and there it has when `Release` returns. -/
structure Ends (s : EpollPoller) : Prop where
  bounded : s.open_ = false → ∀ ops t, Runs.run step s ops = some t →
    ops.countP own ≤ Frame.maxEventCount + 4
  goes_on : s.at_ ≠ .done → ∃ op t, own op = true ∧ s.step op = some t
  joined : s.release = .joined → s.at_ = .done

structure Inv (s : EpollPoller) : Prop where
  open_ : s.open_ = true ↔ s.release = .serving ∨ s.release = .stopped
  few : ∀ n, s.at_ = .handling n → n ≤ Frame.maxEventCount
  joined : s.release = .joined → s.at_ = .done

theorem step_inv (s : EpollPoller) (op : EpollOp) (s' : EpollPoller) (inv : s.Inv)
    (stepped : s.step op = some s') : s'.Inv := by
  obtain ⟨open_,few,joined⟩ := inv
  cases op with
  | begin =>
    obtain ⟨here,same⟩ := Option.ite_none_right_eq_some.mp stepped
    cases same
    exact ⟨open_,by simp,fun ended => absurd (here.symm.trans (joined ended)) (by simp)⟩
  | test =>
    obtain ⟨here,same⟩ := Option.ite_none_right_eq_some.mp stepped
    cases same
    refine ⟨open_,?_,fun ended => absurd (here.symm.trans (joined ended)) (by simp)⟩
    cases s._running <;> simp
  | enter =>
    obtain ⟨here,same⟩ := Option.ite_none_right_eq_some.mp stepped
    cases same
    refine ⟨open_,?_,fun ended => absurd (here.symm.trans (joined ended)) (by simp)⟩
    cases s._epoll_fd && s.open_ <;> simp
  | ret r =>
    obtain ⟨here,stepped⟩ := Option.ite_none_right_eq_some.mp stepped
    have live (ended : s.release = .joined) : False :=
      absurd (here.symm.trans (joined ended)) (by simp)
    cases r with
    | events count =>
      obtain ⟨small,same⟩ := Option.ite_none_right_eq_some.mp stepped
      cases same
      exact ⟨open_,by simpa using small,fun ended => (live ended).elim⟩
    | intr =>
      cases stepped
      exact ⟨open_,by simp,fun ended => (live ended).elim⟩
    | err =>
      cases stepped
      exact ⟨open_,by simp,fun _ => rfl⟩
  | handle =>
    simp only [step] at stepped
    split at stepped
    next here =>
      cases stepped
      exact ⟨open_,by simp,fun ended => absurd (here.symm.trans (joined ended)) (by simp)⟩
    next left here =>
      cases stepped
      refine ⟨open_,?_,fun ended => absurd (here.symm.trans (joined ended)) (by simp)⟩
      intro n same
      cases same
      exact Nat.le_of_succ_le (few _ here)
    next => cases stepped
  | stop =>
    obtain ⟨here,same⟩ := Option.ite_none_right_eq_some.mp stepped
    cases same
    exact ⟨by simpa [here] using open_,few,by simp⟩
  | close =>
    obtain ⟨here,same⟩ := Option.ite_none_right_eq_some.mp stepped
    cases same
    exact ⟨by simp,few,by simp⟩
  | forget =>
    obtain ⟨here,same⟩ := Option.ite_none_right_eq_some.mp stepped
    cases same
    exact ⟨by simpa [here] using open_,few,by simp⟩
  | join =>
    obtain ⟨⟨here,done⟩,same⟩ := Option.ite_none_right_eq_some.mp stepped
    cases same
    exact ⟨by simpa [here] using open_,few,fun _ => done⟩

/-- Without the instance each step of the thread brings it nearer to its end. -/
theorem step_pays (s : EpollPoller) (op : EpollOp) (s' : EpollPoller)
    (inv : s.Inv ∧ s.open_ = false) (stepped : s.step op = some s') :
    s'.left + (if own op then 1 else 0) ≤ s.left := by
  obtain ⟨⟨_,few,_⟩,shut⟩ := inv
  cases op with
  | begin =>
    obtain ⟨here,same⟩ := Option.ite_none_right_eq_some.mp stepped
    cases same
    simp [left,own,here]
  | test =>
    obtain ⟨here,same⟩ := Option.ite_none_right_eq_some.mp stepped
    cases same
    cases running : s._running <;> simp [left,own,here]
  | enter =>
    obtain ⟨here,same⟩ := Option.ite_none_right_eq_some.mp stepped
    cases same
    simp [left,own,here,shut]
  | ret r =>
    obtain ⟨here,stepped⟩ := Option.ite_none_right_eq_some.mp stepped
    cases r with
    | events count =>
      obtain ⟨small,same⟩ := Option.ite_none_right_eq_some.mp stepped
      cases same
      simp only [left,own,here,if_true]
      omega
    | intr =>
      cases stepped
      simp only [left,own,here,if_true]
      omega
    | err =>
      cases stepped
      simp only [left,own,here,if_true]
      omega
  | handle =>
    simp only [step] at stepped
    split at stepped
    next here => cases stepped; simp [left,own,here]
    next n here =>
      cases stepped
      simp only [left,own,here,if_true]
      omega
    next => cases stepped
  | stop =>
    obtain ⟨_,same⟩ := Option.ite_none_right_eq_some.mp stepped
    cases same
    exact Nat.le_refl _
  | close =>
    obtain ⟨_,same⟩ := Option.ite_none_right_eq_some.mp stepped
    cases same
    exact Nat.le_refl _
  | forget =>
    obtain ⟨_,same⟩ := Option.ite_none_right_eq_some.mp stepped
    cases same
    exact Nat.le_refl _
  | join =>
    obtain ⟨_,same⟩ := Option.ite_none_right_eq_some.mp stepped
    cases same
    exact Nat.le_refl _

theorem step_shut {s s' : EpollPoller} {op : EpollOp} (shut : s.open_ = false)
    (stepped : s.step op = some s') : s'.open_ = false := by
  cases op with
  | ret r =>
    obtain ⟨_,stepped⟩ := Option.ite_none_right_eq_some.mp stepped
    cases r with
    | events count =>
      obtain ⟨_,same⟩ := Option.ite_none_right_eq_some.mp stepped
      cases same
      exact shut
    | _ =>
      cases stepped
      exact shut
  | handle =>
    simp only [step] at stepped
    split at stepped
    · cases stepped
      exact shut
    · cases stepped
      exact shut
    · cases stepped
  | _ =>
    obtain ⟨_,same⟩ := Option.ite_none_right_eq_some.mp stepped
    cases same
    first | exact shut | rfl

theorem Inv.ends {s : EpollPoller} (inv : s.Inv) : s.Ends := by
  refine ⟨fun shut ops t ran => ?_,fun live => ?_,inv.joined⟩
  · have paid := Runs.countP_le (fun s => s.Inv ∧ s.open_ = false)
      (fun s op _ s' held stepped => ⟨step_inv s op s' held.1 stepped,step_shut held.2 stepped⟩)
      own left (fun s op _ s' held => step_pays s op s' held) ⟨inv,shut⟩ ran
    have few : s.left ≤ Frame.maxEventCount + 4 := by
      unfold left
      cases here : s.at_ with
      | handling n =>
        have small := inv.few n here
        simp only
        omega
      | _ => simp [Frame.maxEventCount]
    omega
  · cases here : s.at_ with
    | begin => exact ⟨.begin,_,rfl,if_pos here⟩
    | test => exact ⟨.test,_,rfl,if_pos here⟩
    | enter => exact ⟨.enter,_,rfl,if_pos here⟩
    | waiting => exact ⟨.ret .intr,_,rfl,if_pos here⟩
    | handling n =>
      cases n with
      | zero => exact ⟨.handle,{s with at_ := .test},rfl,by simp [step,here]⟩
      | succ n =>
        exact ⟨.handle,{s with at_ := .handling n, callbacks := s.callbacks + 1},rfl,
          by simp [step,here]⟩
    | done => exact absurd here live

theorem start_inv (_running : Bool) : (start _running).Inv :=
  ⟨by simp [start],by simp [start],by simp [start]⟩

theorem epoll_ends (_running : Bool) (ops : List EpollOp) :
    Runs.Always step Ends (start _running) ops :=
  Runs.always_of_pres Inv (fun _ inv => inv.ends) step_inv (start_inv _running)

end EpollPoller

/-- Where a thread is in `__poller_thread_func__` on Windows. -/
inductive IocpAt where
  | enter  -- about to call `GetQueuedCompletionStatus`
  | waiting
  | busy
  | done
  deriving DecidableEq,Repr

structure IocpPoller where
  m_hIOCP : Bool  -- the port's, or INVALID_HANDLE_VALUE
  open_ : Bool  -- in the kernel
  threads : List IocpAt
  closedAt : Option (List IocpAt)  -- where the threads were at the call of `CloseHandle`
  returned : Bool  -- `Release` has
  failures : Nat  -- calls of `GetQueuedCompletionStatus` without a port
  deriving DecidableEq

inductive IocpOp where
  | enter (i : Nat)
  | take (i : Nat)
  | finish (i : Nat)
  | abandon (i : Nat)  -- ERROR_ABANDONED_WAIT_0
  | close
  | forget
  | wait  -- `WaitForMultipleObjects`
  deriving DecidableEq

namespace IocpPoller

def start (threadCount : Nat) : IocpPoller :=
  ⟨true,true,List.replicate threadCount .enter,none,false,0⟩

def move (s : IocpPoller) (i : Nat) (a b : IocpAt) : Option IocpPoller :=
  if s.threads[i]? = some a then some {s with threads := s.threads.set i b} else none

def step (s : IocpPoller) : IocpOp → Option IocpPoller
  | .enter i =>
    if s.m_hIOCP && s.open_ then s.move i .enter .waiting
    else if s.threads[i]? = some .enter then some {s with failures := s.failures + 1}
    else none
  | .take i => if s.open_ then s.move i .waiting .busy else none
  | .finish i => s.move i .busy .enter
  | .abandon i => if s.open_ then none else s.move i .waiting .done
  | .close =>
    if s.closedAt = none then some {s with open_ := false, closedAt := some s.threads} else none
  | .forget => if s.open_ then none else some {s with m_hIOCP := false}
  | .wait =>
    if s.m_hIOCP = false ∧ ∀ a ∈ s.threads, a = .done then some {s with returned := true} else none

/-- The steps of the threads. -/
def own : IocpOp → Bool
  | .enter _ | .take _ | .finish _ | .abandon _ => true
  | _ => false

/-- `Release` can return where each thread waited when the port was closed, and there the threads
take one step each; elsewhere it never does. -/
structure Ends (s : IocpPoller) : Prop where
  returns : ∀ ts, s.closedAt = some ts →
    ((∃ ops t, Runs.run step s ops = some t ∧ t.returned = true) ↔ ∀ a ∈ ts, a = .waiting)
  bounded : ∀ ts, s.closedAt = some ts → (∀ a ∈ ts, a = .waiting) → ∀ ops t,
    Runs.run step s ops = some t → ops.countP own ≤ ts.length

/-- What becomes of a thread that was at `a` when the port was closed. -/
def Fate (a b : IocpAt) : Prop :=
  (a = .waiting → b = .waiting ∨ b = .done) ∧ (a ≠ .waiting → b = .enter ∨ b = .busy)

structure Inv (s : IocpPoller) : Prop where
  open_ : s.open_ = true ↔ s.closedAt = none
  valid : s.m_hIOCP = false → s.open_ = false
  before : s.closedAt = none → ∀ a ∈ s.threads, a ≠ .done
  after : ∀ ts, s.closedAt = some ts → List.Forall₂ Fate ts s.threads
  returned : s.returned = true → s.closedAt ≠ none ∧ ∀ a ∈ s.threads, a = .done

theorem forall₂_set_right {α β : Type} {R : α → β → Prop} {as : List α} {bs : List β} {i : Nat}
    {b b' : β} (rel : List.Forall₂ R as bs) (at_ : bs[i]? = some b)
    (same : ∀ a, R a b → R a b') : List.Forall₂ R as (bs.set i b') := by
  induction rel generalizing i with
  | nil => exact .nil
  | cons first rest ih =>
    cases i with
    | zero =>
      cases at_
      exact .cons (same _ first) rest
    | succ i => exact .cons first (ih at_)

theorem Inv.move {s s' : IocpPoller} {i : Nat} {a b : IocpAt} (inv : s.Inv)
    (moved : s.move i a b = some s') (other : a ≠ .done) (live : s.open_ = true → b ≠ .done)
    (fate : s.open_ = false → ∀ x, Fate x a → Fate x b) : s'.Inv := by
  obtain ⟨at_,same⟩ := Option.ite_none_right_eq_some.mp moved
  cases same
  refine ⟨inv.open_,inv.valid,fun none_ => ?_,fun ts closed => ?_,fun ended => ?_⟩
  · intro x member
    rcases List.mem_or_eq_of_mem_set member with old | rfl
    · exact inv.before none_ x old
    · exact live (inv.open_.mpr none_)
  · have shut : s.open_ = false := by
      cases open_ : s.open_ with
      | true => rw [inv.open_.mp open_] at closed; cases closed
      | false => rfl
    exact forall₂_set_right (inv.after ts closed) at_ (fate shut)
  · exact absurd ((inv.returned ended).2 a (List.mem_of_getElem? at_)) other

theorem fate_refl {threads : List IocpAt} (live : ∀ a ∈ threads, a ≠ .done) :
    List.Forall₂ Fate threads threads := by
  refine List.forall₂_same.mpr fun a member => ⟨.inl,fun other => ?_⟩
  cases a with
  | enter => exact .inl rfl
  | waiting => exact absurd rfl other
  | busy => exact .inr rfl
  | done => exact absurd rfl (live _ member)

theorem step_inv (s : IocpPoller) (op : IocpOp) (s' : IocpPoller) (inv : s.Inv)
    (stepped : s.step op = some s') : s'.Inv := by
  cases op with
  | enter i =>
    simp only [step] at stepped
    split at stepped
    next valid =>
      have live : s.open_ = true := (Bool.and_eq_true_iff.mp valid).2
      refine inv.move stepped (by simp) (fun _ => by simp) fun shut => ?_
      rw [shut] at live
      cases live
    next =>
      obtain ⟨_,same⟩ := Option.ite_none_right_eq_some.mp stepped
      cases same
      exact ⟨inv.open_,inv.valid,inv.before,inv.after,inv.returned⟩
  | take i =>
    obtain ⟨live,moved⟩ := Option.ite_none_right_eq_some.mp stepped
    refine inv.move moved (by simp) (fun _ => by simp) fun shut => ?_
    rw [shut] at live
    cases live
  | finish i =>
    refine inv.move stepped (by simp) (fun _ => by simp) fun _ x fate => ⟨fun waits => ?_,fun _ => .inl rfl⟩
    rcases fate.1 waits with same | same <;> cases same
  | abandon i =>
    obtain ⟨shut,moved⟩ := Option.ite_none_left_eq_some.mp stepped
    refine inv.move moved (by simp) (fun live => absurd live shut) fun _ x fate =>
      ⟨fun _ => .inr rfl,fun other => ?_⟩
    rcases fate.2 other with same | same <;> cases same
  | close =>
    obtain ⟨none_,same⟩ := Option.ite_none_right_eq_some.mp stepped
    cases same
    have live := inv.before none_
    refine ⟨by simp,fun _ => rfl,by simp,fun ts closed => ?_,fun ended => absurd none_ (inv.returned ended).1⟩
    cases closed
    exact fate_refl live
  | forget =>
    obtain ⟨shut,same⟩ := Option.ite_none_left_eq_some.mp stepped
    cases same
    exact ⟨inv.open_,fun _ => eq_false_of_ne_true shut,inv.before,inv.after,inv.returned⟩
  | wait =>
    obtain ⟨⟨gone,done⟩,same⟩ := Option.ite_none_right_eq_some.mp stepped
    cases same
    refine ⟨inv.open_,inv.valid,inv.before,inv.after,fun _ => ⟨fun none_ => ?_,done⟩⟩
    have live := inv.open_.mpr none_
    rw [inv.valid gone] at live
    cases live

theorem move_closedAt {s s' : IocpPoller} {i : Nat} {a b : IocpAt}
    (moved : s.move i a b = some s') : s'.closedAt = s.closedAt := by
  obtain ⟨_,same⟩ := Option.ite_none_right_eq_some.mp moved
  cases same
  rfl

/-- The port is closed once. -/
theorem step_closedAt {s s' : IocpPoller} {op : IocpOp} {ts : List IocpAt}
    (closed : s.closedAt = some ts) (stepped : s.step op = some s') : s'.closedAt = some ts := by
  cases op with
  | enter i =>
    simp only [step] at stepped
    split at stepped
    · exact (move_closedAt stepped).trans closed
    · obtain ⟨_,same⟩ := Option.ite_none_right_eq_some.mp stepped
      cases same
      exact closed
  | take i => exact (move_closedAt (Option.ite_none_right_eq_some.mp stepped).2).trans closed
  | finish i => exact (move_closedAt stepped).trans closed
  | abandon i => exact (move_closedAt (Option.ite_none_left_eq_some.mp stepped).2).trans closed
  | close =>
    obtain ⟨none_,_⟩ := Option.ite_none_right_eq_some.mp stepped
    rw [closed] at none_
    cases none_
  | forget =>
    obtain ⟨_,same⟩ := Option.ite_none_left_eq_some.mp stepped
    cases same
    exact closed
  | wait =>
    obtain ⟨_,same⟩ := Option.ite_none_right_eq_some.mp stepped
    cases same
    exact closed

/-- The port is closed, and each thread waited for it then. -/
structure Waited (s : IocpPoller) (ts : List IocpAt) : Prop where
  inv : s.Inv
  closed : s.closedAt = some ts
  waited : ∀ a ∈ ts, a = .waiting

def left (s : IocpPoller) : Nat := s.threads.countP (· = .waiting)

theorem Waited.threads {s : IocpPoller} {ts : List IocpAt} (waited : s.Waited ts) :
    ∀ b ∈ s.threads, b = .waiting ∨ b = .done := by
  intro b member
  obtain ⟨a,there,fate⟩ := (forall₂_mem (waited.inv.after ts waited.closed)).2 b member
  exact fate.1 (waited.waited a there)

theorem Waited.shut {s : IocpPoller} {ts : List IocpAt} (waited : s.Waited ts) :
    s.open_ = false := by
  cases open_ : s.open_ with
  | true =>
    have none_ := waited.inv.open_.mp open_
    rw [waited.closed] at none_
    cases none_
  | false => rfl

theorem abandon_left {s s' : IocpPoller} {i : Nat} (moved : s.move i .waiting .done = some s') :
    s'.left + 1 = s.left := by
  obtain ⟨at_,same⟩ := Option.ite_none_right_eq_some.mp moved
  cases same
  obtain ⟨rest,before,after,_⟩ := set_perm at_
  simp only [left,before.countP_eq,(after _).countP_eq]
  simp

theorem Waited.pays {ts : List IocpAt} (s : IocpPoller) (op : IocpOp) (s' : IocpPoller)
    (waited : s.Waited ts) (stepped : s.step op = some s') :
    s'.left + (if own op then 1 else 0) ≤ s.left := by
  have away {i : Nat} {a : IocpAt} (other : a ≠ .waiting) (live : a ≠ .done)
      (at_ : s.threads[i]? = some a) : False :=
    (waited.threads a (List.mem_of_getElem? at_)).elim other live
  have shut := waited.shut
  cases op with
  | enter i =>
    simp only [step,shut,Bool.and_false,Bool.false_eq_true,if_false] at stepped
    obtain ⟨at_,_⟩ := Option.ite_none_right_eq_some.mp stepped
    exact (away (by simp) (by simp) at_).elim
  | take i =>
    obtain ⟨live,_⟩ := Option.ite_none_right_eq_some.mp stepped
    rw [shut] at live
    cases live
  | finish i =>
    obtain ⟨at_,_⟩ := Option.ite_none_right_eq_some.mp stepped
    exact (away (by simp) (by simp) at_).elim
  | abandon i =>
    exact Nat.le_of_eq (abandon_left (Option.ite_none_left_eq_some.mp stepped).2)
  | close =>
    obtain ⟨_,same⟩ := Option.ite_none_right_eq_some.mp stepped
    cases same
    exact Nat.le_refl _
  | forget =>
    obtain ⟨_,same⟩ := Option.ite_none_left_eq_some.mp stepped
    cases same
    exact Nat.le_refl _
  | wait =>
    obtain ⟨_,same⟩ := Option.ite_none_right_eq_some.mp stepped
    cases same
    exact Nat.le_refl _

theorem Waited.step {s s' : IocpPoller} {ts : List IocpAt} {op : IocpOp} (waited : s.Waited ts)
    (stepped : s.step op = some s') : s'.Waited ts :=
  ⟨step_inv s op s' waited.inv stepped,step_closedAt waited.closed stepped,waited.waited⟩

/-- The threads end, and `Release` returns. -/
theorem Waited.returns {s : IocpPoller} {ts : List IocpAt} (waited : s.Waited ts) :
    ∃ ops t, Runs.run IocpPoller.step s ops = some t ∧ t.returned = true := by
  generalize many : s.left = n
  induction n generalizing s with
  | zero =>
    have done : ∀ a ∈ s.threads, a = .done := by
      intro a member
      rcases waited.threads a member with waits | done
      · have none_ := List.countP_eq_zero.mp many a member
        simp [waits] at none_
      · exact done
    have forgets : IocpPoller.step s .forget = some {s with m_hIOCP := false} :=
      if_neg (by simp [waited.shut])
    refine ⟨[.forget,.wait],{s with m_hIOCP := false, returned := true},?_,rfl⟩
    rw [Runs.run_cons,forgets]
    show Runs.run _ _ [IocpOp.wait] = _
    rw [Runs.run_cons]
    have returns : IocpPoller.step {s with m_hIOCP := false} .wait =
        some {s with m_hIOCP := false, returned := true} := if_pos ⟨rfl,done⟩
    rw [returns]
    rfl
  | succ n ih =>
    have some_ : 0 < s.left := by omega
    obtain ⟨a,member,waits⟩ := List.countP_pos_iff.mp some_
    obtain ⟨i,at_⟩ := List.getElem?_of_mem member
    rw [decide_eq_true_iff] at waits
    rw [waits] at at_
    have moved : s.move i .waiting .done = some {s with threads := s.threads.set i .done} :=
      if_pos at_
    have abandons : IocpPoller.step s (.abandon i) = some {s with
        threads := s.threads.set i .done} := (if_neg (by simp [waited.shut])).trans moved
    have fewer := abandon_left moved
    obtain ⟨ops,t,ran,returned⟩ := ih (waited.step abandons) (by omega)
    refine ⟨.abandon i::ops,t,?_,returned⟩
    rw [Runs.run_cons,abandons]
    exact ran

theorem Inv.ends {s : IocpPoller} (inv : s.Inv) : s.Ends := by
  refine ⟨fun ts closed => ⟨?_,fun waited => ?_⟩,fun ts closed waited ops t ran => ?_⟩
  · rintro ⟨ops,t,ran,returned⟩ a member
    have kept := Runs.run_pres (fun u => u.Inv ∧ u.closedAt = some ts)
      (fun u op v held stepped => ⟨step_inv u op v held.1 stepped,step_closedAt held.2 stepped⟩)
      ⟨inv,closed⟩ ran
    obtain ⟨b,there,fate⟩ := (forall₂_mem (kept.1.after ts kept.2)).1 a member
    have done := (kept.1.returned returned).2 b there
    by_contra other
    rcases fate.2 other with same | same
    · rw [done] at same
      cases same
    · rw [done] at same
      cases same
  · exact Waited.returns ⟨inv,closed,waited⟩
  · have paid := Runs.countP_le (fun u => Waited u ts) (fun u op _ v held stepped => held.step stepped)
      own left (fun u op _ v held => Waited.pays u op v held) ⟨inv,closed,waited⟩ ran
    have few : s.left ≤ s.threads.length := List.countP_le_length
    have same := (inv.after ts closed).length_eq
    omega

theorem start_inv (threadCount : Nat) : (start threadCount).Inv where
  open_ := by simp [start]
  valid := by simp [start]
  before := fun _ a member => by
    rw [(List.mem_replicate.mp member).2]
    simp
  after := by simp [start]
  returned := by simp [start]

end IocpPoller

end Pworld.Net
