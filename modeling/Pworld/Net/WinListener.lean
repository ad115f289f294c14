import Pworld.Net.Listener
import Pworld.Net.Overlapped
import Pworld.Support.Runs

/-! The Windows listener: one `AcceptEx` after the other with one `PerIoData`, which `Close` uses
for a completion of its own. -/
namespace Pworld.Net

/-- How `_post_accept` goes: the new socket, or no socket, or an `AcceptEx` that fails. -/
inductive PostAccept where
  | noSocket (err : Nat)
  | refused (fd err : Nat)
  | posted (fd : Nat)
  deriving DecidableEq,Repr

def PostAccept.made : PostAccept → List Nat
  | .noSocket _ => []
  | .refused fd _ | .posted fd => [fd]

structure WinListener where
  m_sockAcceptor : Option Nat
  listening : Bool  -- `m_sockListener` is a socket
  _error : Nat
  _status : ListenerStatus
  _io_accept : Overlapped
  posted : Flight  -- what `PostCompletion` was called with
  closePosted : Bool
  deleted : Bool
  accesses : List Bool  -- for each step of the kernel or the poller, whether it was there
  made : List Nat  -- by `_post_accept`
  given : List Nat  -- to `on_accept`
  shut : List Nat
  lost : List Nat
  statuses : List ListenerStatus  -- from the end of `Init` on
  closings : Nat  -- calls of `on_closed`
  deriving DecidableEq

/-- How `Init` goes: it fails before anything is posted, or it posts. -/
inductive WinInit where
  | fails (err : Nat)
  | posts (ret : PostAccept)
  deriving DecidableEq,Repr

inductive WinListenerOp where
  | update (ret : PostAccept)
  | close
  | delete
  | accept (op : PollOp)
  | posted (op : PollOp)
  deriving DecidableEq

namespace WinListener

def ADDRESS_BUFFER_SIZE : Nat := 16 + 16

def new : WinListener where
  m_sockAcceptor := none
  listening := false
  _error := 0
  _status := .uninit
  _io_accept := .new .accept (ADDRESS_BUFFER_SIZE * 2)
  posted := .none
  closePosted := false
  deleted := false
  accesses := []
  made := []
  given := []
  shut := []
  lost := []
  statuses := []
  closings := 0

def setStatus (l : WinListener) (status : ListenerStatus) : WinListener :=
  {l with _status := status, statuses := l.statuses ++ [status]}

def _on_accept_error (l : WinListener) (err : Nat) : WinListener :=
  {l with _error := err}.setStatus .error

def _post_accept (l : WinListener) (ret : PostAccept) : WinListener :=
  let l := {l with made := l.made ++ ret.made}
  match ret with
  | .noSocket err => {l with m_sockAcceptor := none}._on_accept_error err
  | .refused fd err =>
    {l with m_sockAcceptor := some fd, _io_accept := l._io_accept.start (some err)}._on_accept_error
      err
  | .posted fd => {l with m_sockAcceptor := some fd, _io_accept := l._io_accept.start none}

def Init (i : WinInit) : WinListener :=
  match i with
  | .fails err => {new with _error := err}.setStatus .closed
  | .posts ret => ({new with listening := true}.setStatus .running)._post_accept ret

def Update (l : WinListener) (ret : PostAccept) : WinListener :=
  match l._status with
  | .running =>
    if l._io_accept.io._status = .completed then
      let l := {l with _io_accept := l._io_accept.idle}
      if l._io_accept.io._succ then
        -- `_on_accept`
        {l with given := l.given ++ l.m_sockAcceptor.toList}._post_accept ret
      -- `_post_accept` makes another socket
      else {l with lost := l.lost ++ l.m_sockAcceptor.toList}._post_accept ret
    else l
  | .error => l.setStatus .preclosed
  | .closing => if l._io_accept.io._status ≠ .pending then l.setStatus .preclosed else l
  | .preclosed =>
    {l with
      listening := false
      m_sockAcceptor := none
      shut := l.shut ++ l.m_sockAcceptor.toList
      closings := l.closings + 1}.setStatus .closed
  | _ => l

def Close (l : WinListener) : WinListener :=
  if l._status = .running then
    let l := l.setStatus .closing
    if l._io_accept.io._status = .pending then
      {l with posted := .queued (.success 0), closePosted := true}
    else l
  else l

def Disposable (l : WinListener) : Bool := l._status == .closed

def step (l : WinListener) : WinListenerOp → Option WinListener
  | .update ret => if l.deleted then none else some (l.Update ret)
  | .close => if l.deleted then none else some l.Close
  | .delete => if l.deleted = false ∧ l.Disposable then some {l with deleted := true} else none
  | .accept op => (l._io_accept.poll op).map fun o =>
    {l with _io_accept := o, accesses := l.accesses ++ [!l.deleted]}
  -- the same `PerIoData`
  | .posted op => ((⟨l._io_accept.io,l.posted,false⟩ : Overlapped).poll op).map fun o =>
    {l with
      _io_accept := {l._io_accept with io := o.io}
      posted := o.flight
      accesses := l.accesses ++ [!l.deleted]}

/-- Every socket that was made for a connection is at one place. -/
def Held (l : WinListener) : Prop :=
  l.made.Perm (l.given ++ l.shut ++ l.lost ++ l.m_sockAcceptor.toList)

/-- What holds as long as `Close` has posted nothing. -/
structure Single (l : WinListener) : Prop where
  ok : l._io_accept.Ok
  posted : l.posted = .none
  quiet : l._status ≠ .running → l._status ≠ .closing → l._io_accept.flight = .none
  gone : l.deleted = true → l._status = .closed
  there : ∀ a ∈ l.accesses, a = true

structure Inv (l : WinListener) : Prop where
  held : l.Held
  last : l.statuses.getLast? = some l._status
  forward : l.statuses.Pairwise fun a b => a.rank ≤ b.rank
  closed : l._status = .closed → l.listening = false ∧ l.m_sockAcceptor = none
  open_ : l._status ≠ .closed → l.closings = 0
  once : l.closings ≤ 1
  single : l.closePosted = false → l.Single

/-- Sockets are handed on, closed or lost, and none of them twice; the status goes forward, to
`on_closed` at most once; and until `Close` posts a completion the kernel and the poller find the
listener there, and no accept is started while another is under way. -/
structure Sound (l : WinListener) : Prop where
  held : l.Held
  forward : l.statuses.Pairwise fun a b => a.rank ≤ b.rank
  closed : l._status = .closed → l.listening = false ∧ l.m_sockAcceptor = none
  once : l.closings ≤ 1
  there : l.closePosted = false → (∀ a ∈ l.accesses, a = true) ∧ l._io_accept.doubled = false

theorem Inv.onward {l : WinListener} (inv : l.Inv) {status : ListenerStatus}
    (further : l._status.rank ≤ status.rank) (other : status ≠ .closed)
    (single : l.closePosted = false → (l.setStatus status).Single) (live : l._status ≠ .closed) :
    (l.setStatus status).Inv where
  held := inv.held
  last := List.getLast?_concat
  forward := (Runs.sorted_concat inv.forward inv.last).mpr further
  closed := fun same => absurd same other
  open_ := fun _ => inv.open_ live
  once := inv.once
  single := single

/-- Before `_post_accept`: nothing is under way, and what `m_sockAcceptor` was is dealt with. -/
structure Posting (l : WinListener) : Prop where
  held : l.made.Perm (l.given ++ l.shut ++ l.lost)
  last : l.statuses.getLast? = some .running
  running : l._status = .running
  forward : l.statuses.Pairwise fun a b => a.rank ≤ b.rank
  open_ : l.closings = 0
  single : l.closePosted = false → l.Single
  idle : l._io_accept.io._status = .idle

theorem Posting.held_more {l : WinListener} (posting : l.Posting) (ret : PostAccept) :
    (l.made ++ ret.made).Perm (l.given ++ l.shut ++ l.lost ++ ret.made) :=
  posting.held.append_right _

theorem Posting.error {l : WinListener} (posting : l.Posting) :
    (l.statuses ++ [ListenerStatus.error]).Pairwise fun a b => a.rank ≤ b.rank :=
  (Runs.sorted_concat posting.forward posting.last).mpr (by decide)

theorem post_inv {l : WinListener} (posting : l.Posting) (ret : PostAccept) :
    (l._post_accept ret).Inv := by
  have held := posting.held_more ret
  have live := posting.running
  cases ret with
  | noSocket err =>
    refine ⟨held,List.getLast?_concat,posting.error,nofun,fun _ => posting.open_,?_,?_⟩
    · exact posting.open_.le.trans (Nat.zero_le _)
    · intro none_
      obtain ⟨ok,posted,_,gone,there⟩ := posting.single none_
      refine ⟨ok,posted,fun _ _ => ok.quiet (by simp [posting.idle]),?_,there⟩
      intro gone_
      exact absurd ((gone gone_).symm.trans live) (by decide)
  | refused fd err =>
    refine ⟨held,List.getLast?_concat,posting.error,nofun,fun _ => posting.open_,?_,?_⟩
    · exact posting.open_.le.trans (Nat.zero_le _)
    · intro none_
      obtain ⟨ok,posted,_,gone,there⟩ := posting.single none_
      have quiet := ok.quiet (by simp [posting.idle])
      refine ⟨Overlapped.start_ok ok posting.idle (some err),posted,fun _ _ => quiet,?_,there⟩
      intro gone_
      exact absurd ((gone gone_).symm.trans live) (by decide)
  | posted fd =>
    refine ⟨held,?_,posting.forward,?_,fun _ => posting.open_,?_,?_⟩
    · show l.statuses.getLast? = some l._status
      rw [posting.last,live]
    · intro closed
      exact absurd (closed.symm.trans live) (by decide)
    · exact posting.open_.le.trans (Nat.zero_le _)
    · intro none_
      obtain ⟨ok,posted,_,gone,there⟩ := posting.single none_
      exact ⟨Overlapped.start_ok ok posting.idle none,posted,fun other _ => absurd live other,gone,
        there⟩

theorem init_inv (i : WinInit) : (Init i).Inv := by
  cases i with
  | fails err =>
    refine ⟨List.Perm.refl _,rfl,List.pairwise_singleton _ _,fun _ => ⟨rfl,rfl⟩,
      fun other => absurd rfl other,Nat.zero_le _,fun _ => ?_⟩
    exact ⟨Overlapped.new_ok _ _,rfl,fun _ _ => rfl,nofun,
      fun _ member => absurd member List.not_mem_nil⟩
  | posts ret =>
    refine post_inv ⟨List.Perm.refl _,rfl,rfl,List.pairwise_singleton _ _,rfl,fun _ => ?_,rfl⟩ ret
    exact ⟨Overlapped.new_ok _ _,rfl,fun _ _ => rfl,nofun,
      fun _ member => absurd member List.not_mem_nil⟩

/-- An accept is completed, and its socket is handed on or lost. -/
theorem Inv.posting {l : WinListener} (inv : l.Inv) (running : l._status = .running)
    (completed : l._io_accept.io._status = .completed) {given lost : List Nat}
    (held : l.made.Perm (given ++ l.shut ++ lost)) :
    Posting {l with _io_accept := l._io_accept.idle, given := given, lost := lost} where
  held := held
  last := by
    rw [← running]
    exact inv.last
  running := running
  forward := inv.forward
  open_ := inv.open_ (by rw [running]; decide)
  single := by
    intro none_
    obtain ⟨ok,posted,_,gone,there⟩ := inv.single none_
    have idle := Overlapped.idle_ok ok completed
    exact ⟨idle,posted,fun other _ => absurd running other,gone,there⟩
  idle := rfl

theorem update_inv {l : WinListener} (inv : l.Inv) (there : l.deleted = false) (ret : PostAccept) :
    (l.Update ret).Inv := by
  have held := inv.held
  rw [Held] at held
  unfold Update
  split
  next running =>
    split
    next completed =>
      dsimp only
      split
      next =>
        refine post_inv (inv.posting running completed ?_) ret
        have moved : (l.given ++ (l.shut ++ (l.lost ++ l.m_sockAcceptor.toList))).Perm
            (l.given ++ l.m_sockAcceptor.toList ++ l.shut ++ l.lost) := by
          rw [List.append_assoc,List.append_assoc,← List.append_assoc l.shut]
          exact List.perm_append_comm.append_left _
        rw [List.append_assoc,List.append_assoc] at held
        exact held.trans moved
      next =>
        refine post_inv (inv.posting running completed ?_) ret
        rw [List.append_assoc _ l.lost] at held
        exact held
    next => exact inv
  next error =>
    refine inv.onward (by rw [error]; decide) nofun ?_ (by rw [error]; decide)
    intro none_
    obtain ⟨ok,posted,quiet,_,found⟩ := inv.single none_
    have still := quiet (by rw [error]; decide) (by rw [error]; decide)
    exact ⟨ok,posted,fun _ _ => still,fun gone => absurd (there.symm.trans gone) (by decide),found⟩
  next closing =>
    split
    next still =>
      refine inv.onward (by rw [closing]; decide) nofun ?_ (by rw [closing]; decide)
      intro none_
      obtain ⟨ok,posted,_,_,found⟩ := inv.single none_
      exact ⟨ok,posted,fun _ _ => ok.quiet still,
        fun gone => absurd (there.symm.trans gone) (by decide),found⟩
    next => exact inv
  next preclosed =>
    have live : l.closings = 0 := inv.open_ (by rw [preclosed]; decide)
    refine ⟨?_,List.getLast?_concat,?_,fun _ => ⟨rfl,rfl⟩,fun other => absurd rfl other,?_,?_⟩
    · have moved : (l.given ++ l.shut ++ l.lost ++ l.m_sockAcceptor.toList).Perm
          (l.given ++ (l.shut ++ l.m_sockAcceptor.toList) ++ l.lost ++ []) := by
        rw [List.append_nil,List.append_assoc,List.append_assoc,List.append_assoc l.given,
          List.append_assoc l.shut]
        exact (List.perm_append_comm.append_left _).append_left _
      exact held.trans moved
    · exact (Runs.sorted_concat inv.forward inv.last).mpr (by rw [preclosed]; decide)
    · show l.closings + 1 ≤ 1
      rw [live]
    · intro none_
      obtain ⟨ok,posted,quiet,_,found⟩ := inv.single none_
      have still := quiet (by rw [preclosed]; decide) (by rw [preclosed]; decide)
      exact ⟨ok,posted,fun _ _ => still,fun _ => rfl,found⟩
  next => exact inv

theorem close_inv {l : WinListener} (inv : l.Inv) (there : l.deleted = false) : l.Close.Inv := by
  unfold Close
  split
  next running =>
    have live : l._status ≠ .closed := by rw [running]; decide
    have further : l._status.rank ≤ ListenerStatus.closing.rank := by rw [running]; decide
    dsimp only
    split
    next pending =>
      have moved : (l.setStatus .closing).Held := inv.held
      refine ⟨moved,List.getLast?_concat,(Runs.sorted_concat inv.forward inv.last).mpr further,nofun,
        fun _ => inv.open_ live,inv.once,nofun⟩
    next still =>
      refine inv.onward further nofun ?_ live
      intro none_
      obtain ⟨ok,posted,_,_,found⟩ := inv.single none_
      exact ⟨ok,posted,fun _ other => absurd rfl other,
        fun gone => absurd (there.symm.trans gone) (by decide),found⟩
  next => exact inv

theorem step_inv (l : WinListener) (op : WinListenerOp) (l' : WinListener) (inv : l.Inv)
    (stepped : l.step op = some l') : l'.Inv := by
  cases op with
  | update ret =>
    simp only [step] at stepped
    split at stepped
    next => cases stepped
    next there =>
      cases stepped
      exact update_inv inv (eq_false_of_ne_true there) ret
  | close =>
    simp only [step] at stepped
    split at stepped
    next => cases stepped
    next there =>
      cases stepped
      exact close_inv inv (eq_false_of_ne_true there)
  | delete =>
    simp only [step] at stepped
    split at stepped
    next ready =>
      cases stepped
      refine { inv with single := fun none_ => ?_ }
      obtain ⟨ok,posted,quiet,_,found⟩ := inv.single none_
      exact ⟨ok,posted,quiet,fun _ => beq_iff_eq.mp ready.2,found⟩
    next => cases stepped
  | accept op =>
    simp only [step] at stepped
    obtain ⟨o,went,rfl⟩ := Option.map_eq_some_iff.mp stepped
    refine { inv with single := fun none_ => ?_ }
    obtain ⟨ok,posted,quiet,gone,found⟩ := inv.single none_
    obtain ⟨ok',pending,_⟩ := Overlapped.poll_ok ok went
    have flying := ok.pending.mp pending
    have there : l.deleted = false := by
      by_contra gone_
      have closed := gone (eq_true_of_ne_false gone_)
      exact flying (quiet (by rw [closed]; decide) (by rw [closed]; decide))
    refine ⟨ok',posted,?_,gone,?_⟩
    · intro other other'
      exact absurd (quiet other other') flying
    · intro a member
      rcases List.mem_append.mp member with old | new
      · exact found a old
      · rw [List.mem_singleton.mp new,there]
        rfl
  | posted op =>
    simp only [step] at stepped
    obtain ⟨o,went,rfl⟩ := Option.map_eq_some_iff.mp stepped
    refine { inv with single := fun none_ => ?_ }
    have none_ := (inv.single none_).posted
    rw [none_] at went
    cases op <;> simp [Overlapped.poll] at went

theorem Inv.sound {l : WinListener} (inv : l.Inv) : l.Sound :=
  ⟨inv.held,inv.forward,inv.closed,inv.once,fun none_ =>
    ⟨(inv.single none_).there,(inv.single none_).ok.single⟩⟩

/-- From the end of `Init` on, in whatever order the threads take turns. -/
theorem win_listener_sound (i : WinInit) (ops : List WinListenerOp) :
    Runs.Always step Sound (Init i) ops :=
  Runs.always_of_pres Inv (fun _ inv => inv.sound) step_inv (init_inv i)

/-- `Close` while an accept is pending: the completion it posts lets the listener go, and that of
the accept comes when it is gone. -/
def lateAccept : List WinListenerOp :=
  [.close,.posted .dequeue,.posted .callback,.posted .finish,.update (.posted 8),
    .update (.posted 8),.delete,.accept (.complete (.failure 995 0) []),.accept .dequeue]

example : (Runs.run step (Init (.posts (.posted 7))) lateAccept).map (fun l =>
    (l.closePosted,l.deleted,l.accesses,l.shut)) =
    some (true,true,[true,true,true,false,false],[7]) := by decide

end WinListener

end Pworld.Net
