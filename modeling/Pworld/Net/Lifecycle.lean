import Pworld.Net.Receive
import Pworld.Net.Update
import Pworld.Support.Runs

/-! The order in which an attached session's status is written, over every
sequence of updates, calls and poller callbacks. -/
namespace Pworld.Net

inductive LifeOp where
  | update (i : UpdateIn)
  | send (data : Bytes)
  | disconnect
  | callback (events : Nat)
  | others (env : Env)
  deriving DecidableEq

structure Life where
  ctx : Ctx
  callbacks : Nat
  deriving DecidableEq

/-- The statuses written so far are in order, CLOSED is not left, and `on_closed`
has run at most once. -/
structure Session.Forward (s : Session) : Prop where
  ordered : (statuses s.trace).Pairwise fun before after => before.rank ≤ after.rank
  stays : (statuses s.trace).Pairwise fun before after => before = .closed → after = .closed
  once : s.trace.count .onClosed ≤ 1

namespace Life

def registrations (l : Life) : Nat := l.ctx.self.trace.countP Call.registers

def step (l : Life) : LifeOp → Option Life
  | .update i => (l.ctx.update i).map fun c => {l with ctx := c}
  | .send data => (l.ctx.send data).map fun c => {l with ctx := c}
  | .disconnect => some {l with ctx := {l.ctx with self := l.ctx.self.Disconnect}}
  | .callback events =>
    if l.callbacks < l.registrations then
      some {ctx := {l.ctx with self := l.ctx.self.sessionCb events}, callbacks := l.callbacks + 1}
    else none
  | .others env => some {l with ctx := {l.ctx with env := env}}

/-- A hang-up is only handled while the session is not past ERROR. -/
def InTime (l : Life) : LifeOp → Prop
  | .update i => i.locked = true → Session.hangs l.ctx.self.events = true → l.ctx.self.status.rank ≤ 2
  | _ => True

end Life

namespace Session

/-- The end of an `Update` writes nothing, ERROR and PRECLOSED, or the next status. -/
theorem endCalls_statuses (s : Session) (hang : Bool) :
    statuses (s.endCalls hang) = [] ∧ s.endStatus hang = s.status ∨
    hang = true ∧ statuses (s.endCalls hang) = [.error,.preclosed] ∧
      s.endStatus hang = .preclosed ∨
    hang = false ∧ statuses (s.endCalls hang) = [s.endStatus hang] ∧
      s.status.rank ≤ (s.endStatus hang).rank := by
  unfold endCalls endStatus
  cases hang with
  | true => exact .inr (.inl ⟨rfl,rfl,rfl⟩)
  | false =>
    simp only [Bool.false_eq_true,if_false]
    cases s.status with
    | running =>
      simp only
      split
      · exact .inr (.inr ⟨trivial,rfl,by decide⟩)
      · split
        · exact .inl ⟨rfl,rfl⟩
        · exact .inl ⟨rfl,rfl⟩
    | error => exact .inr (.inr ⟨trivial,rfl,show 2 ≤ 3 by decide⟩)
    | preclosed =>
      simp only
      split
      · exact .inr (.inr ⟨trivial,rfl,by decide⟩)
      · exact .inr (.inr ⟨trivial,rfl,by decide⟩)
    | none => exact .inl ⟨rfl,rfl⟩
    | closed => exact .inl ⟨rfl,rfl⟩

theorem endCalls_sorted (s : Session) {hang : Bool} (early : hang = true → s.status.rank ≤ 2) :
    (s.status :: statuses (s.endCalls hang)).Pairwise fun before after =>
      before.rank ≤ after.rank := by
  rcases endCalls_statuses s hang with ⟨written,-⟩ | ⟨hangs,written,-⟩ | ⟨-,written,up⟩
  · rw [written]
    exact List.pairwise_singleton _ _
  · have low := early hangs
    rw [written]
    refine List.pairwise_cons.mpr ⟨fun b member => ?_,by decide⟩
    have high : 2 ≤ b.rank := by
      simp only [List.mem_cons,List.not_mem_nil,or_false] at member
      rcases member with rfl | rfl <;> decide
    exact low.trans high
  · rw [written]
    refine List.pairwise_cons.mpr ⟨fun b member => ?_,List.pairwise_singleton _ _⟩
    rwa [List.mem_singleton.mp member]

theorem endCalls_last (s : Session) (hang : Bool) :
    (s.status :: statuses (s.endCalls hang)).getLast? = some (s.endStatus hang) := by
  rcases endCalls_statuses s hang with ⟨written,end_⟩ | ⟨-,written,end_⟩ | ⟨-,written,-⟩
  · rw [written,end_]
    rfl
  · rw [written,end_]
    rfl
  · rw [written]
    rfl

theorem endCalls_closes (s : Session) {hang : Bool} (early : hang = true → s.status.rank ≤ 2) :
    (if s.status = .closed then 1 else 0) + (s.endCalls hang).count .onClosed =
      if s.endStatus hang = .closed then 1 else 0 := by
  cases hang with
  | true =>
    have open_ : s.status ≠ .closed := fun closed => by
      rw [closed] at early
      exact absurd (early rfl) (by decide)
    rw [if_neg open_]
    rfl
  | false =>
    unfold endCalls endStatus
    simp only [Bool.false_eq_true,if_false]
    cases s.status with
    | running => cases s.sendOver && s.recvOver <;> cases s.inEpoll <;> rfl
    | preclosed =>
      by_cases valid : s.socket ≠ -1
      · simp only [if_pos valid]
        rfl
      · simp only [if_neg valid]
        rfl
    | none => rfl
    | error => rfl
    | closed => rfl

/-- The calls `cs` take the status from that of `s` to that of `t`, in order. -/
structure Wrote (s t : Session) (cs : List Call) : Prop where
  sorted : (s.status :: statuses cs).Pairwise fun before after => before.rank ≤ after.rank
  last : (s.status :: statuses cs).getLast? = some t.status
  closes : (if s.status = .closed then 1 else 0) + cs.count .onClosed =
    if t.status = .closed then 1 else 0

theorem Wrote.append {s t u : Session} {cs cs' : List Call} (first : s.Wrote t cs)
    (second : t.Wrote u cs') : s.Wrote u (cs ++ cs') := by
  refine ⟨?_,?_,?_⟩
  · rw [statuses_append]
    exact (Runs.sorted_append first.sorted first.last).mpr second.sorted
  · rw [statuses_append,← List.cons_append,List.getLast?_append,first.last,← second.last,
      List.getLast?_cons]
    cases (statuses cs').getLast? with
    | none => rfl
    | some b => rfl
  · rw [List.count_append,← Nat.add_assoc,first.closes,second.closes]

theorem wrote_finished {s t : Session} {hang : Bool} (finished : s.Finished t hang)
    (early : hang = true → s.status.rank ≤ 2) : s.Wrote t (s.endCalls hang) := by
  refine ⟨endCalls_sorted s early,?_,?_⟩
  · rw [finished.status]
    exact endCalls_last s hang
  · rw [finished.status]
    exact endCalls_closes s early

end Session

namespace Life

structure Inv (l : Life) : Prop where
  forward : l.ctx.self.Forward
  last : (statuses l.ctx.self.trace).getLast? = some l.ctx.self.status
  closed : l.ctx.self.trace.count .onClosed = if l.ctx.self.status = .closed then 1 else 0

theorem step_trace {l l' : Life} {op : LifeOp} (stepped : l.step op = some l') :
    l.ctx.self.trace <+: l'.ctx.self.trace := by
  cases op with
  | update i =>
    obtain ⟨c,ran,same⟩ := Option.map_eq_some_iff.mp stepped
    rw [← same]
    cases locked : i.locked with
    | false =>
      rw [Ctx.update_skipped _ locked] at ran
      cases Option.some.inj ran
      exact List.prefix_rfl
    | true =>
      obtain ⟨d,io,_,finished⟩ := Ctx.update_cases locked ran
      obtain ⟨cs,trace,_⟩ := io.calls
      refine ⟨cs ++ d.self.endCalls (Session.hangs l.ctx.self.events),?_⟩
      rw [finished.trace,trace,List.append_assoc]
  | send data =>
    obtain ⟨c,ran,same⟩ := Option.map_eq_some_iff.mp stepped
    subst same
    exact ⟨[],by rw [List.append_nil,(Ctx.send_self ran).1]⟩
  | disconnect =>
    cases Option.some.inj stepped
    exact ⟨[],by rw [List.append_nil,Session.disconnect_trace]⟩
  | callback events =>
    simp only [step] at stepped
    split_ifs at stepped
    cases Option.some.inj stepped
    exact List.prefix_rfl
  | others env =>
    cases Option.some.inj stepped
    exact List.prefix_rfl

theorem forward_back {s t : Session} (traces : s.trace <+: t.trace) (forward : t.Forward) :
    s.Forward := by
  obtain ⟨cs,same⟩ := traces
  obtain ⟨ordered,stays,once⟩ := forward
  rw [← same,statuses_append] at ordered stays
  rw [← same,List.count_append] at once
  exact ⟨(List.pairwise_append.mp ordered).1,(List.pairwise_append.mp stays).1,by omega⟩

theorem Inv.same {l l' : Life} (inv : l.Inv) (trace : l'.ctx.self.trace = l.ctx.self.trace)
    (status : l'.ctx.self.status = l.ctx.self.status) : l'.Inv := by
  obtain ⟨⟨ordered,stays,once⟩,last,closed⟩ := inv
  constructor
  · constructor
    · rwa [trace]
    · rwa [trace]
    · rwa [trace]
  · rw [trace,status,last]
  · rw [trace,status,closed]

theorem inv_wrote {l l' : Life} {cs : List Call} (inv : l.Inv)
    (trace : l'.ctx.self.trace = l.ctx.self.trace ++ cs)
    (wrote : l.ctx.self.Wrote l'.ctx.self cs) : l'.Inv := by
  obtain ⟨⟨ordered,_,_⟩,last,closed⟩ := inv
  have count : l'.ctx.self.trace.count .onClosed =
      if l'.ctx.self.status = .closed then 1 else 0 := by
    rw [trace,List.count_append,closed,wrote.closes]
  have sorted : (statuses l'.ctx.self.trace).Pairwise
      fun before after => before.rank ≤ after.rank := by
    rw [trace,statuses_append]
    exact (Runs.sorted_append ordered last).mpr wrote.sorted
  have top : ∀ a : SockStatus, 4 ≤ a.rank → a = .closed := by
    intro a high
    cases a with
    | closed => rfl
    | _ => simp [SockStatus.rank] at high
  refine ⟨⟨sorted,sorted.imp ?_,?_⟩,?_,count⟩
  · rintro a b le rfl
    exact top b le
  · rw [count]
    split <;> omega
  · rw [trace,statuses_append,List.getLast?_append,last,← wrote.last,List.getLast?_cons]
    cases (statuses cs).getLast? with
    | none => rfl
    | some b => rfl

/-- Reading and writing at most turn RUNNING into ERROR. -/
theorem wrote_io {c d : Ctx} (io : Ctx.Io c d) : ∃ cs, d.self.trace = c.self.trace ++ cs ∧
    c.self.Wrote d.self cs ∧ (d.self.status = c.self.status ∨ d.self.status = .error) := by
  obtain ⟨cs,trace,quiet,status⟩ := io.calls
  have none_ : cs.count .onClosed = 0 := List.count_eq_zero.mpr fun member => by
    cases quiet _ member
  rcases status with ⟨kept,nothing⟩ | ⟨running,error,one⟩
  · refine ⟨cs,trace,⟨?_,?_,?_⟩,.inl kept⟩
    · rw [nothing]
      exact List.pairwise_singleton _ _
    · rw [nothing,kept]
      rfl
    · rw [none_,kept,Nat.add_zero]
  · refine ⟨cs,trace,⟨?_,?_,?_⟩,.inr error⟩
    · rw [running,one]
      decide
    · rw [one,error]
      rfl
    · rw [none_,running,error]
      rfl

theorem inv_update {l l' : Life} {i : UpdateIn} (inv : l.Inv) (inTime : l.InTime (.update i))
    (stepped : l.step (.update i) = some l') : l'.Inv := by
  obtain ⟨c,ran,same⟩ := Option.map_eq_some_iff.mp stepped
  cases locked : i.locked with
  | false =>
    rw [Ctx.update_skipped _ locked] at ran
    cases Option.some.inj ran
    exact inv.same (by rw [← same]) (by rw [← same])
  | true =>
    obtain ⟨d,io,_,finished⟩ := Ctx.update_cases locked ran
    obtain ⟨cs,trace,first,status⟩ := wrote_io io
    have early : Session.hangs l.ctx.self.events = true → d.self.status.rank ≤ 2 := by
      intro hang
      rcases status with kept | error
      · rw [kept]
        exact inTime locked hang
      · rw [error]
        exact le_refl 2
    have second := Session.wrote_finished finished early
    have start : l.ctx.self.Wrote d.self cs := ⟨first.sorted,first.last,first.closes⟩
    subst same
    refine inv_wrote inv ?_ (start.append second)
    rw [finished.trace,trace,List.append_assoc]

theorem late_update {l l' : Life} {i : UpdateIn} (inv : l.Inv) (late : ¬ l.InTime (.update i))
    (stepped : l.step (.update i) = some l') : ¬ l'.ctx.self.Forward := by
  simp only [InTime,Classical.not_imp,not_le] at late
  obtain ⟨locked,hang,past⟩ := late
  obtain ⟨c,ran,same⟩ := Option.map_eq_some_iff.mp stepped
  obtain ⟨d,io,-,finished⟩ := Ctx.update_cases locked ran
  obtain ⟨cs,trace,-⟩ := io.calls
  rintro ⟨ordered,-,-⟩
  rw [← same] at ordered
  simp only at ordered
  rw [finished.trace,trace,hang,List.append_assoc,statuses_append] at ordered
  have least := (List.pairwise_append.mp ordered).2.2 l.ctx.self.status
    (List.mem_of_getLast? inv.last) .error (by
      rw [statuses_append]
      exact List.mem_append_right _ List.mem_cons_self)
  exact absurd (least.trans_lt past) (lt_irrefl _)

theorem inv_step {l l' : Life} {op : LifeOp} (inv : l.Inv) (inTime : l.InTime op)
    (stepped : l.step op = some l') : l'.Inv := by
  cases op with
  | update i => exact inv_update inv inTime stepped
  | send data =>
    obtain ⟨c,ran,same⟩ := Option.map_eq_some_iff.mp stepped
    have self := (Ctx.send_self ran).1
    apply inv.same
    · rw [← same,self]
    · rw [← same,self]
  | disconnect =>
    cases Option.some.inj stepped
    exact inv.same (Session.disconnect_trace _) (Ctx.disconnect_still l.ctx).status
  | callback events =>
    simp only [step] at stepped
    split_ifs at stepped
    cases Option.some.inj stepped
    exact inv.same rfl rfl
  | others env =>
    cases Option.some.inj stepped
    exact inv.same rfl rfl

theorem lost_step {l l' : Life} {op : LifeOp} (inv : l.Inv) (stepped : l.step op = some l')
    (forward : l'.ctx.self.Forward) : l.InTime op := by
  cases op with
  | update i => exact Classical.byContradiction fun late => late_update inv late stepped forward
  | _ => trivial

/-- A session just attached, with no callback so far. -/
def start (id header now : Nat) (socket : Int) (key : Option Nat) (fresh : Nat) (env : Env) :
    Life := ⟨Ctx.attached id header now socket key fresh env,0⟩

theorem inv_start (id header now : Nat) (socket : Int) (key : Option Nat) (fresh : Nat)
    (env : Env) : (start id header now socket key fresh env).Inv := by
  refine ⟨⟨?_,?_,?_⟩,rfl,rfl⟩
  · exact List.pairwise_singleton _ _
  · exact List.pairwise_singleton _ _
  · exact Nat.zero_le 1

/-- The lifecycle of a session goes forward in exactly the runs in which every
hang-up event is handled before the session is past ERROR. -/
theorem lifecycle_forward (id header now : Nat) (socket : Int) (key : Option Nat) (fresh : Nat)
    (env : Env) (ops : List LifeOp) (l : Life)
    (ran : Runs.run step (start id header now socket key fresh env) ops = some l) :
    l.ctx.self.Forward ↔ Runs.Meets step InTime (start id header now socket key fresh env) ops :=
  Runs.good_iff_meets Inv (fun l => l.ctx.self.Forward) (fun _ inv => inv.forward)
    (fun _ _ _ inv inTime stepped => inv_step inv inTime stepped)
    (fun _ _ _ stepped forward => forward_back (step_trace stepped) forward)
    (fun _ _ _ inv stepped forward => lost_step inv stepped forward)
    (inv_start id header now socket key fresh env) ran

/-- Bytes read, the connection reset before the registration fires, and its event
handled after the session has gone through ERROR. -/
def lateHangUp : List LifeOp :=
  [.update ⟨true,0,[.data [2,0,0,0,7,8] 1],[],1,1⟩,
    .update ⟨true,0,[.err 104],[],2,2⟩,
    .callback (epollIn ||| epollErr ||| epollHup ||| epollRdHup),
    .update ⟨true,104,[],[],3,3⟩]

def reset : Life := start 1 4 0 5 none 6 Env.initial

theorem late_hang_up_backwards : ∃ l, Runs.run step reset lateHangUp = some l ∧
    statuses l.ctx.self.trace = [.running,.error,.preclosed,.error,.preclosed] ∧
    ¬ l.ctx.self.Forward := by
  have ran : (Runs.run step reset lateHangUp).map (fun l => statuses l.ctx.self.trace) =
      some [.running,.error,.preclosed,.error,.preclosed] := by decide +kernel
  obtain ⟨l,ran,written⟩ := Option.map_eq_some_iff.mp ran
  refine ⟨l,ran,written,?_⟩
  rintro ⟨ordered,-,-⟩
  rw [written] at ordered
  revert ordered
  decide

theorem lifecycle_forward_late : ∃ l, Runs.run step reset lateHangUp = some l ∧
    (l.ctx.self.Forward ↔ Runs.Meets step InTime reset lateHangUp) := by
  have done : (Runs.run step reset lateHangUp).isSome = true := by decide +kernel
  obtain ⟨l,ran⟩ := Option.isSome_iff_exists.mp done
  exact ⟨l,ran,lifecycle_forward 1 4 0 5 none 6 Env.initial lateHangUp l ran⟩

end Life

end Pworld.Net
