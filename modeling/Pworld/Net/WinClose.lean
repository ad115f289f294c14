import Pworld.Net.WinStream
import Pworld.Net.Lifecycle

/-! How the Windows session comes to its end. Nothing takes it back to a status it has left, and
`::shutdown` waits for the last operation. -/
namespace Pworld.Net

namespace Session

theorem wrote_quiet {s t : Session} {cs : List Call} (status : t.status = s.status)
    (none_ : statuses cs = []) (closed : .onClosed ∉ cs) : s.Wrote t cs := by
  refine ⟨?_,?_,?_⟩
  · rw [none_]
    exact List.pairwise_singleton _ _
  · rw [none_,status]
    rfl
  · rw [List.count_eq_zero.mpr closed,status,Nat.add_zero]

theorem wrote_one {s t : Session} {cs : List Call} (st : SockStatus) (status : t.status = st)
    (one : statuses cs = [st]) (rank : s.status.rank < st.rank)
    (closes : cs.count .onClosed = if st = .closed then 1 else 0) : s.Wrote t cs := by
  have early : s.status ≠ .closed := by
    intro closed
    rw [closed] at rank
    cases st <;> simp [SockStatus.rank] at rank
  refine ⟨?_,?_,?_⟩
  · rw [one]
    exact List.pairwise_pair.mpr (Nat.le_of_lt rank)
  · rw [one,status]
    rfl
  · rw [if_neg early,closes,status,Nat.zero_add]

theorem closeCalls_quiet (s : Session) :
    statuses (Win.closeCalls s) = [] ∧ .onClosed ∉ Win.closeCalls s := by
  unfold Win.closeCalls
  split
  · exact ⟨rfl,by simp⟩
  · exact ⟨rfl,by simp⟩

/-- All calls of a session since it was made take its status forward. -/
theorem Wrote.forward {s t : Session} (fresh : s.status = .none) (wrote : s.Wrote t t.trace) :
    t.Forward := by
  obtain ⟨sorted,_,closes⟩ := wrote
  have ordered := (List.pairwise_cons.mp sorted).2
  have top : ∀ a : SockStatus, 4 ≤ a.rank → a = .closed := by
    intro a high
    cases a with
    | closed => rfl
    | _ => simp [SockStatus.rank] at high
  refine ⟨ordered,ordered.imp ?_,?_⟩
  · intro before after rank closed
    rw [closed] at rank
    exact top after rank
  · rw [fresh] at closes
    simp only [reduceCtorEq,if_false,Nat.zero_add] at closes
    rw [closes]
    split <;> simp

end Session

namespace Proactor

open Session (wrote_quiet wrote_one closeCalls_quiet)

/-- What a step adds to the calls of the session. -/
inductive Closing (s s' : Proactor) : Prop where
  | aside (cs : List Call) (trace : s'.self.trace = s.self.trace ++ cs)
      (wrote : s.self.Wrote s'.self cs) (aside : ∀ c ∈ cs, c.sends = false)
      (sendOver : s'.self.sendOver = s.self.sendOver)
  | writes (cs : List Call) (trace : s'.self.trace = s.self.trace ++ cs)
      (wrote : s.self.Wrote s'.self cs) (none_ : .shutdown ∉ cs)
      (open_ : s.self.sendOver = false) (open' : s'.self.sendOver = false)
  | shuts (trace : s'.self.trace = s.self.trace ++ [.shutdown])
      (status : s'.self.status = s.self.status) (open_ : s.self.sendOver = false)
      (over_ : s'.self.sendOver = true) (running : s.self.status = .running)
      (disconnect : s.self.disconnect = true) (queued : s.self.queued = [])
      (quiet : s.win._io_send.flight = .none)

section
variable {s s' : Proactor}

theorem Closing.quiet (trace : s'.self.trace = s.self.trace)
    (status : s'.self.status = s.self.status) (sendOver : s'.self.sendOver = s.self.sendOver) :
    Closing s s' :=
  .aside [] (trace.trans (List.append_nil _).symm) (wrote_quiet status rfl List.not_mem_nil)
    (fun _ member => absurd member List.not_mem_nil) sendOver

/-- Only the status is written. -/
theorem Closing.status {st : SockStatus} (trace : s'.self.trace = s.self.trace ++ [.status st])
    (status : s'.self.status = st) (sendOver : s'.self.sendOver = s.self.sendOver)
    (rank : s.self.status.rank < st.rank) (early : st ≠ .closed) : Closing s s' := by
  refine .aside _ trace (wrote_one st status rfl rank ?_) (fun c member => ?_) sendOver
  · rw [if_neg early]
    rfl
  · rw [List.mem_singleton.mp member]
    rfl

theorem closing_disposeRecv {now : Nat} {ret : Option Nat} (safe : s.Safe)
    (stepped : s.step (.disposeRecv now ret) = some s') : Closing s s' := by
  simp only [step] at stepped
  split at stepped
  next =>
    obtain ⟨w,ran,rfl⟩ := Option.map_eq_some_iff.mp stepped
    have ways := Win.disposed (safe.ok .recv) now ret
    rw [ran] at ways
    have rank (running : s.self.status = .running) : s.self.status.rank < SockStatus.error.rank := by
      rw [running]
      decide
    cases ways with
    | keeps => exact .quiet rfl rfl rfl
    | fails running => exact .status rfl rfl rfl (rank running) (by decide)
    | ends =>
      rw [Session.disconnect_eq]
      exact .quiet rfl rfl rfl
    | @reads running completed open_ c handed w' posted =>
      have same := Ctx.onRecv_besides handed
      have trace : c.self.trace = s.self.trace := congrArg (·.trace) same
      have sendOver : c.self.sendOver = s.self.sendOver := congrArg (·.sendOver) same
      cases posted with
      | posts => exact .quiet trace (congrArg (·.status) same) sendOver
      | fails err =>
        exact .status (congrArg (· ++ _) trace) rfl sendOver (rank running) (by decide)
  next => cases stepped

theorem closing_disposeSend {ret : Option Nat} (safe : s.Safe)
    (stepped : s.step (.disposeSend ret) = some s') : Closing s s' := by
  simp only [step] at stepped
  split at stepped
  next live =>
    obtain ⟨w,ran,rfl⟩ := Option.map_eq_some_iff.mp stepped
    have ways := Win.sent (safe.holds live.2) ret
    rw [ran] at ways
    have rank (running : s.self.status = .running) : s.self.status.rank < SockStatus.error.rank := by
      rw [running]
      decide
    cases ways with
    | keeps => exact .quiet rfl rfl rfl
    | shuts running idle open_ none_ empty disconnect =>
      have queued : s.self.queued = [] := by
        rw [Session.queued,show s.self.queSend = [] from empty]
        rfl
      exact .shuts rfl rfl open_ rfl running disconnect queued
        ((safe.ok .send).quiet (by simp [Win.io,idle]))
    | @posts running idle open_ none_ m rest front failed =>
      exact .writes [.send m.bytes (.sent m.bytes.length)] rfl (wrote_quiet rfl rfl (by simp))
        (by simp) open_ open_
    | @refused running idle open_ none_ m rest front err failed =>
      refine .writes [.send m.bytes (.err err),.status .error] ?_
        (wrote_one .error rfl rfl (rank running) rfl) (by simp) open_ open_
      simp [self,Win.self,Win.put,Win.takeSend,Session.call,Session.setSocketStatus]
    | frees => exact .quiet rfl rfl rfl
    | fails running => exact .status rfl rfl rfl (rank running) (by decide)
  next => cases stepped

theorem closing_switchStatus (stepped : s.step .switchStatus = some s') : Closing s s' := by
  simp only [step] at stepped
  split at stepped
  next =>
    cases stepped
    unfold Win.switchStatus
    split
    next running =>
      split
      next => exact .status rfl rfl rfl (by simp [self,running,SockStatus.rank]) (by decide)
      next => exact .quiet rfl rfl rfl
    next error =>
      split
      next => exact .status rfl rfl rfl (by simp [self,error,SockStatus.rank]) (by decide)
      next => exact .quiet rfl rfl rfl
    next preclosed =>
      rw [Win.close_eq]
      obtain ⟨none_,quiet⟩ := closeCalls_quiet s.self
      refine .aside _ rfl (wrote_one .closed rfl ?_ ?_ ?_) (fun c member => ?_) rfl
      · rw [statuses_append,statuses_append,show statuses (Win.closeCalls s.win.self) = [] from none_]
        rfl
      · rw [show s.self.status = .preclosed from preclosed]
        decide
      · rw [List.count_append,List.count_append,
          List.count_eq_zero.mpr (show _ ∉ Win.closeCalls s.win.self from quiet)]
        rfl
      · rcases List.mem_append.mp member with first | last
        · rcases List.mem_append.mp first with opened | close
          · rw [List.mem_singleton.mp opened]
            rfl
          · exact Win.closeCalls_sends _ c close
        · rw [List.mem_singleton.mp last]
          rfl
    next => exact .quiet rfl rfl rfl
  next => cases stepped

theorem closing_step {op : WinOp} (safe : s.Safe) (stepped : s.step op = some s') :
    Closing s s' := by
  cases op with
  | send data =>
    simp only [step] at stepped
    split at stepped
    next =>
      obtain ⟨c,ran,rfl⟩ := Option.map_eq_some_iff.mp stepped
      obtain ⟨que,same⟩ : ∃ que, c.self = {s.win.ctx.self with queSend := que} :=
        ⟨_,(Ctx.send_self ran).1⟩
      exact .quiet (congrArg (·.trace) same) (congrArg (·.status) same) (congrArg (·.sendOver) same)
    next => cases stepped
  | disconnect =>
    simp only [step] at stepped
    split at stepped
    next =>
      cases stepped
      rw [Session.disconnect_eq]
      exact .quiet rfl rfl rfl
    next => cases stepped
  | disposeRecv now ret => exact closing_disposeRecv safe stepped
  | disposeSend ret => exact closing_disposeSend safe stepped
  | switchStatus => exact closing_switchStatus stepped
  | delete =>
    simp only [step] at stepped
    split at stepped
    next ready =>
      cases stepped
      have gone := Ctx.destroy_self s.win.ctx
      obtain ⟨none_,quiet⟩ := closeCalls_quiet s.self
      refine .aside (Win.closeCalls s.self) ?_ (wrote_quiet ?_ none_ quiet)
        (Win.closeCalls_sends _) ?_
      · simp only [self,Win.self,gone]
      · simp only [self,Win.self,gone]
      · simp only [self,Win.self,gone]
    next => cases stepped
  | poll dir op =>
    obtain ⟨o,went,rfl⟩ := Option.map_eq_some_iff.mp stepped
    cases dir with
    | recv => exact .quiet rfl rfl rfl
    | send => exact .quiet rfl rfl rfl
  | others env =>
    cases stepped
    exact .quiet rfl rfl rfl

theorem Closing.wrote (closing : Closing s s') :
    ∃ cs, s'.self.trace = s.self.trace ++ cs ∧ s.self.Wrote s'.self cs := by
  cases closing with
  | aside cs trace wrote _ _ => exact ⟨cs,trace,wrote⟩
  | writes cs trace wrote _ _ _ => exact ⟨cs,trace,wrote⟩
  | shuts trace status => exact ⟨_,trace,wrote_quiet status rfl (by simp)⟩

theorem Closing.farewell (closing : Closing s s') (farewell : s.self.Farewell) :
    s'.self.Farewell := by
  cases closing with
  | aside cs trace _ aside sendOver =>
    have whole : ({s.self with trace := s'.self.trace} : Session).Farewell :=
      farewell.aside ⟨rfl,cs,trace,aside⟩
    rw [Session.Farewell,sendOver]
    exact whole
  | writes cs trace _ none_ open_ open' =>
    rcases farewell with ⟨_,before⟩ | ⟨closed,_⟩
    · refine .inl ⟨open',?_⟩
      rw [trace,List.mem_append,not_or]
      exact ⟨before,none_⟩
    · cases open_.symm.trans closed
  | shuts trace _ open_ over_ =>
    rcases farewell with ⟨_,before⟩ | ⟨closed,_⟩
    · exact .inr ⟨over_,s.self.trace,[],trace,before,fun c member => absurd member List.not_mem_nil⟩
    · cases open_.symm.trans closed

end

/-- Where `::shutdown` is called, Disconnect was requested, all that was accepted is written and the
kernel is through with it. -/
structure Due (s : Proactor) : Prop where
  disconnect : s.self.disconnect = true
  written : s.self.written = Link.encode s.accepted
  quiet : s.win._io_send.flight = .none

structure Ending (s : Proactor) : Prop where
  forward : s.self.Forward
  once : s.self.trace.count .shutdown ≤ 1
  last : ∀ before after, s.self.trace = before ++ .shutdown::after → ∀ c ∈ after, c.isSend = false
  due : ∀ op s', s.step op = some s' →
    s'.self.trace.count .shutdown ≠ s.self.trace.count .shutdown → s.Due

structure Course (s : Proactor) : Prop where
  safe : s.Safe
  out : s.Outflow
  came : ∃ fresh : Session, fresh.status = .none ∧ fresh.Wrote s.self s.self.trace
  farewell : s.self.Farewell

theorem Course.ending {s : Proactor} (course : s.Course) : s.Ending where
  forward := by
    obtain ⟨fresh,none_,wrote⟩ := course.came
    exact wrote.forward none_
  once := course.farewell.once
  last := fun _ _ split => course.farewell.last split
  due := by
    intro op s' stepped shuts
    cases closing_step course.safe stepped with
    | aside cs trace _ aside _ =>
      have none_ : .shutdown ∉ cs := by
        intro member
        cases aside _ member
      rw [trace,List.count_append,List.count_eq_zero.mpr none_] at shuts
      exact absurd rfl shuts
    | writes cs trace _ none_ _ _ =>
      rw [trace,List.count_append,List.count_eq_zero.mpr none_] at shuts
      exact absurd rfl shuts
    | shuts trace _ _ _ running disconnect queued quiet =>
      obtain ⟨lost,whole,kept⟩ := course.out
      rw [kept running,queued,List.append_nil,List.append_nil] at whole
      exact ⟨disconnect,whole,quiet⟩

end Proactor

end Pworld.Net
