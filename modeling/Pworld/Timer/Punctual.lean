import Pworld.Timer.Safety

/-! When a timer that is reached runs: the code compares its time with the clock the
other way round, so the two agree only where both are equal, or the sum is past 64 bits. -/
namespace Pworld.Timing

/-- The interval a timer was made with, from what happened to it. -/
def period (past : List Event) : Nat :=
  past.foldl (fun p e => match e with
    | .created _ _ itv _ => itv
    | _ => p) 0

/-- Of the timers reached, those run that are due, and no others. -/
def Punctual (log : List Event) : Prop :=
  ∀ past later n now pass ran, log = past ++ .looked n now pass ran :: later →
    (ran = true ↔ base (history Event.serial past n) + period (history Event.serial past n) ≤ now)

theorem Past.period_eq {serial itv : Nat} {born : Option Nat} {past : List Event}
    (known : Past serial itv born past) : period past = itv := by
  obtain ⟨tick,rest,rfl,all⟩ := known
  have keep (p : Nat) (events : List Event) (all : ∀ e ∈ events, (∃ now, e = .fired serial now) ∨
      ∃ now pass ran, e = .looked serial now pass ran ∧ born ≠ some pass) :
      events.foldl (fun p e => match e with
        | .created _ _ itv _ => itv
        | _ => p) p = p := by
    induction events with
    | nil => rfl
    | cons e events ih =>
      have tail := ih fun f member => all f (List.mem_cons_of_mem _ member)
      rcases all e List.mem_cons_self with ⟨_,rfl⟩ | ⟨_,_,_,rfl,_⟩ <;> exact tail
  exact keep itv rest all

theorem Punctual.front {log es : List Event} (punctual : Punctual (log ++ es)) : Punctual log :=
  fun past later n now pass ran split =>
    punctual past (later ++ es) n now pass ran (by rw [split,List.append_assoc]; rfl)

theorem punctual_looked {log : List Event} {n now pass : Nat} {ran : Bool} :
    Punctual (log ++ [.looked n now pass ran]) ↔ Punctual log ∧
      (ran = true ↔
        base (history Event.serial log n) + period (history Event.serial log n) ≤ now) := by
  constructor
  · exact fun punctual => ⟨punctual.front,punctual log [] n now pass ran rfl⟩
  · rintro ⟨before,here⟩ past later m now' pass' ran' split
    rcases List.eq_nil_or_concat later with rfl | ⟨front,e,rfl⟩
    · obtain ⟨same,last⟩ := List.append_inj' split rfl
      cases last
      rw [← same]
      exact here
    · rw [List.concat_eq_append,← List.cons_append,← List.append_assoc] at split
      exact before past front m now' pass' ran' (List.append_inj' split rfl).1

theorem punctual_other {log : List Event} {e : Event} (punctual : Punctual log)
    (other : ∀ n now pass ran, e ≠ .looked n now pass ran) : Punctual (log ++ [e]) := by
  intro past later n now pass ran split
  rcases List.eq_nil_or_concat later with rfl | ⟨front,f,rfl⟩
  · obtain ⟨_,last⟩ := List.append_inj' split rfl
    cases last
    exact absurd rfl (other n now pass ran)
  · rw [List.concat_eq_append,← List.cons_append,← List.append_assoc] at split
    exact punctual past front n now pass ran (List.append_inj' split rfl).1

/-- The comparison of the code against the one that is meant. -/
theorem due_iff {t : Timer} {now : Nat} (before : t.count_time ≤ now) (fits : now < 2^64)
    (interval : t.interval < 2^32) :
    (t.due now = true ↔ t.count_time + t.interval ≤ now) ↔
      now = t.count_time + t.interval ∨ 2^64 ≤ t.count_time + t.interval := by
  simp only [Timer.due,u64,ge_iff_le,decide_eq_true_eq]
  omega

namespace TimerMgr

/-- The timer that `Update` looks at next, with the tick of the pass. -/
def reached (s : TimerMgr) : Option (Nat × Timer) :=
  match s.walk with
  | .scan now i => (s.lstTimers[i]?).map (now,·)
  | _ => none

/-- The moment of each look is the one that the timer's interval ends at, or the sum
does not fit in 64 bits. -/
def OnTime (s : TimerMgr) : TimerOp → Prop
  | .visit => ∀ x ∈ s.reached, x.2.canceled = false → x.2.callable = true →
      x.1 = x.2.count_time + x.2.interval ∨ 2^64 ≤ x.2.count_time + x.2.interval
  | _ => True

instance (s : TimerMgr) (op : TimerOp) : Decidable (s.OnTime op) := by
  cases op <;> unfold OnTime <;> infer_instance

/-- No timer counts from a time that is still to come. -/
structure Timed (s : TimerMgr) : Prop where
  clock : s.clock < 2^64
  count : ∀ t ∈ s.held, t.count_time ≤ s.clock
  interval : ∀ t ∈ s.held, t.interval < 2^32
  now : ∀ n i, s.walk = .scan n i ∨ s.walk = .call n i →
    n ≤ s.clock ∧ ∀ t ∈ s.lstTimers, t.count_time ≤ n

theorem Timed.look {s : TimerMgr} (timed : s.Timed) (now : Nat) (t : Timer) (ran : Bool) :
    (s.look now t ran).Timed := by
  unfold TimerMgr.look
  split
  · exact ⟨timed.clock,timed.count,timed.interval,timed.now⟩
  · exact timed

theorem Timed.walk {s : TimerMgr} (timed : s.Timed) {now i : Nat} (walk : s.walk = .scan now i)
    {w : Walk} (same : ∀ n j, w = .scan n j ∨ w = .call n j → n = now) :
    ({s with walk := w} : TimerMgr).Timed := by
  refine ⟨timed.clock,timed.count,timed.interval,fun n j here => ?_⟩
  rw [same n j here]
  exact timed.now now i (.inl walk)

theorem timed_erase {s : TimerMgr} (timed : s.Timed) {now i : Nat} (t : Timer)
    (walk : now ≤ s.clock ∧ ∀ t ∈ s.lstTimers, t.count_time ≤ now) : (s.erase now i t).Timed := by
  have sub (u : Timer) (member : u ∈ (s.erase now i t).held) : u ∈ s.held := by
    rcases List.mem_append.mp member with old | new
    · exact List.mem_append_left _ (List.mem_of_mem_eraseIdx old)
    · exact List.mem_append_right _ new
  refine ⟨timed.clock,fun u member => timed.count u (sub u member),
    fun u member => timed.interval u (sub u member),fun n j here => ?_⟩
  have same : n = now := by
    rcases here with scan | call
    · cases scan; rfl
    · cases call
  rw [same]
  exact ⟨walk.1,fun u member => walk.2 u (List.mem_of_mem_eraseIdx member)⟩

theorem timed_after {s : TimerMgr} (timed : s.Timed) {now i : Nat} {t : Timer}
    (at_ : s.lstTimers[i]? = some t)
    (walk : now ≤ s.clock ∧ ∀ t ∈ s.lstTimers, t.count_time ≤ now) : (s.after now i t).Timed := by
  unfold after
  split
  · exact timed_erase timed t walk
  have sub (u : Timer) (member : u ∈ s.lstTimers.set i {t with count_time := now}) :
      u = {t with count_time := now} ∨ u ∈ s.lstTimers :=
    (List.mem_or_eq_of_mem_set member).symm
  refine ⟨timed.clock,fun u member => ?_,fun u member => ?_,fun n j here => ?_⟩
  · rcases List.mem_append.mp member with there | new
    · rcases sub u there with rfl | old
      · exact walk.1
      · exact timed.count u (List.mem_append_left _ old)
    · exact timed.count u (List.mem_append_right _ new)
  · rcases List.mem_append.mp member with there | new
    · rcases sub u there with rfl | old
      · exact timed.interval t (mem_held at_)
      · exact timed.interval u (List.mem_append_left _ old)
    · exact timed.interval u (List.mem_append_right _ new)
  · have same : n = now := by
      rcases here with scan | call
      · cases scan; rfl
      · cases call
    rw [same]
    refine ⟨walk.1,fun u member => ?_⟩
    rcases sub u member with rfl | old
    · exact Nat.le_refl _
    · exact walk.2 u old

theorem timed_visit {s : TimerMgr} (timed : s.Timed) {now i : Nat} {t : Timer}
    (scan : s.walk = .scan now i) (at_ : s.lstTimers[i]? = some t) : (s.visit now i t).Timed := by
  have walk := timed.now now i (.inl scan)
  have looked (ran : Bool) : (s.look now t ran).walk = .scan now i ∧
      (s.look now t ran).clock = s.clock := by
    unfold look
    split <;> exact ⟨scan,rfl⟩
  unfold visit
  split
  · exact timed_erase timed t walk
  split
  · simp only
    split
    · apply (timed.look now t true).walk (looked true).1
      intro n j here
      rcases here with scan | call
      · cases scan
      · cases call; rfl
    · have lists := (look_lists s now t true).1
      apply timed_after (timed.look now t true) (by rw [lists]; exact at_)
      rw [lists,(looked true).2]
      exact walk
  · apply (timed.look now t false).walk (looked false).1
    intro n j here
    rcases here with scan | call
    · cases scan; rfl
    · cases call

theorem timed_cancel {s : TimerMgr} (timed : s.Timed) (tid : Nat) : (s.CancelTimer tid).Timed := by
  have result := cancel_cases s tid
  generalize s.CancelTimer tid = s' at result
  cases result with
  | none => exact timed
  | @old us t marked found =>
    have sub (u : Timer) (member : u ∈ us) : ∃ v ∈ s.lstTimers,
        u.count_time = v.count_time ∧ u.interval = v.interval := by
      rcases marked.mem member with rfl | old
      · exact ⟨t,marked.member,rfl,rfl⟩
      · exact ⟨u,old,rfl,rfl⟩
    have all (P : Timer → Prop) (same : ∀ u v : Timer, u.count_time = v.count_time →
        u.interval = v.interval → P v → P u) (before : ∀ u ∈ s.held, P u) (u : Timer)
        (member : u ∈ us ++ s.lstNewTimer) : P u := by
      rcases List.mem_append.mp member with there | new
      · obtain ⟨v,old,count,interval⟩ := sub u there
        exact same u v count interval (before v (List.mem_append_left _ old))
      · exact before u (List.mem_append_right _ new)
    refine ⟨timed.clock,all _ ?_ timed.count,all _ ?_ timed.interval,fun n i here => ?_⟩
    · exact fun u v count _ before => count ▸ before
    · exact fun u v _ interval before => interval ▸ before
    · obtain ⟨late,before⟩ := timed.now n i here
      refine ⟨late,fun u member => ?_⟩
      obtain ⟨v,old,count,_⟩ := sub u member
      rw [count]
      exact before v old
  | @new us t marked found =>
    have sub (P : Timer → Prop) (kept : P t → P t.SetCancel) (before : ∀ u ∈ s.held, P u)
        (u : Timer) (member : u ∈ s.lstTimers ++ us) : P u := by
      rcases List.mem_append.mp member with old | there
      · exact before u (List.mem_append_left _ old)
      · rcases marked.mem there with rfl | old
        · exact kept (before t (List.mem_append_right _ marked.member))
        · exact before u (List.mem_append_right _ old)
    exact ⟨timed.clock,sub _ (fun h => h) timed.count,sub _ (fun h => h) timed.interval,timed.now⟩

theorem timed_create {s : TimerMgr} (inv : s.Inv) (timed : s.Timed) {t : Timer} (fresh : s.Fresh t)
    (time : s.readTick t.count_time) : (s.createTimer t).Timed := by
  have later (u : Timer) (member : u = t ∨ u ∈ s.held) : u.count_time ≤ t.count_time := by
    rcases member with rfl | old
    · exact Nat.le_refl _
    · exact (timed.count u old).trans time.1
  have small (u : Timer) (member : u = t ∨ u ∈ s.held) : u.interval < 2^32 := by
    rcases member with rfl | old
    · exact fresh.interval
    · exact timed.interval u old
  unfold createTimer
  by_cases process : s.in_process = true
  · simp only [process,if_true]
    have sub (u : Timer) (member : u ∈ s.lstTimers ++ (s.lstNewTimer ++ [t])) :
        u = t ∨ u ∈ s.held := by
      rw [← List.append_assoc] at member
      rcases List.mem_append.mp member with old | new
      · exact .inr old
      · exact .inl (List.mem_singleton.mp new)
    refine ⟨time.2,fun u member => later u (sub u member),fun u member => small u (sub u member),?_⟩
    intro n i here
    obtain ⟨late,before⟩ := timed.now n i here
    exact ⟨late.trans time.1,before⟩
  · simp only [process,Bool.false_eq_true,if_false]
    have sub (u : Timer) (member : u ∈ s.lstTimers ++ [t] ++ s.lstNewTimer) :
        u = t ∨ u ∈ s.held := by
      rcases List.mem_append.mp member with there | new
      · rcases List.mem_append.mp there with old | here
        · exact .inr (List.mem_append_left _ old)
        · exact .inl (List.mem_singleton.mp here)
      · exact .inr (List.mem_append_right _ new)
    refine ⟨time.2,fun u member => later u (sub u member),fun u member => small u (sub u member),?_⟩
    -- outside `Update` there is no walk
    intro n i here
    have walking : s.walk ≠ .idle := by
      rcases here with scan | call
      · rw [show s.walk = _ from scan]; nofun
      · rw [show s.walk = _ from call]; nofun
    exact absurd (inv.walks walking).1 process

theorem timed_step {s s' : TimerMgr} {op : TimerOp} (inv : s.Inv) (timed : s.Timed)
    (stepped : s.step op = some s') : s'.Timed := by
  cases step_cases stepped with
  | createCb fresh time | createFunc fresh time => exact timed_create inv timed fresh time
  | cancel => exact timed_cancel timed _
  | update idle time =>
    have late (t : Timer) (member : t ∈ s.held) := (timed.count t member).trans time.1
    refine ⟨time.2,late,timed.interval,fun n i here => ?_⟩
    rcases here with scan | call
    · cases scan
      exact ⟨Nat.le_refl _,fun t member => late t (List.mem_append_left _ member)⟩
    · cases call
  | visit walk at_ => exact timed_visit timed walk at_
  | ret walk at_ => exact timed_after timed at_ (timed.now _ _ (.inr walk))
  | leave walk =>
    have same (t : Timer) (member : t ∈ s.leave.held) : t ∈ s.held := by
      rcases List.mem_append.mp member with there | nothing
      · exact there
      · exact absurd nothing List.not_mem_nil
    refine ⟨timed.clock,fun t member => timed.count t (same t member),
      fun t member => timed.interval t (same t member),fun n i here => ?_⟩
    rcases here with scan | call
    · cases scan
    · cases call
  | release idle =>
    refine ⟨timed.clock,fun t member => absurd member List.not_mem_nil,
      fun t member => absurd member List.not_mem_nil,fun n i here => ?_⟩
    rcases here with scan | call
    · rw [show s.walk = _ from scan] at idle; cases idle
    · rw [show s.walk = _ from call] at idle; cases idle

/-- A step that looks at no timer with a callback writes no look into the log. -/
def Quiet (s s' : TimerMgr) : Prop :=
  s'.log = s.log ∨ ∃ e, (∀ n now pass ran, e ≠ .looked n now pass ran) ∧ s'.log = s.log ++ [e]

theorem after_quiet (s : TimerMgr) (now i : Nat) (t : Timer) : Quiet s (s.after now i t) := by
  unfold after
  split
  · exact .inl rfl
  · exact .inr ⟨.fired t.serial now,by simp,rfl⟩

theorem visit_log (s : TimerMgr) {now i : Nat} {t : Timer} (live : t.canceled = false)
    (callable : t.callable = true) :
    (s.visit now i t).log = s.log ++ [.looked t.serial now s.pass (t.due now)] := by
  unfold visit
  rw [live,if_neg Bool.false_ne_true]
  split
  next due => simp [look,callable,due]
  next early => simp [look,callable,early]

theorem visit_quiet (s : TimerMgr) {now i : Nat} {t : Timer}
    (silent : ¬ (t.canceled = false ∧ t.callable = true)) : Quiet s (s.visit now i t) := by
  unfold visit
  split
  · exact .inl rfl
  next live =>
    have deaf : t.callable = false := by
      rw [← Bool.not_eq_true]
      exact fun callable => silent ⟨by simpa using live,callable⟩
    have same (ran : Bool) : s.look now t ran = s := by
      rw [look,deaf]
      rfl
    split
    · simp only [same,deaf,Bool.false_eq_true,if_false]
      exact after_quiet s now i t
    · rw [same]
      exact .inl rfl

theorem step_quiet {s s' : TimerMgr} {op : TimerOp} (stepped : s.step op = some s')
    (other : op ≠ .visit) : Quiet s s' := by
  cases step_cases stepped with
  | @createCb _ _ _ _ t fresh time | @createFunc _ _ _ _ _ t fresh time =>
    refine .inr ⟨.created s.made t.count_time t.interval s.bornIn,by simp,?_⟩
    unfold createTimer
    dsimp only
    split <;> rfl
  | @cancel tid =>
    have result := cancel_cases s tid
    generalize s.CancelTimer tid = s' at result
    cases result <;> exact .inl rfl
  | visit walk at_ => exact absurd rfl other
  | ret walk at_ => exact after_quiet s _ _ _
  | _ => exact .inl rfl

theorem Quiet.punctual {s s' : TimerMgr} (quiet : Quiet s s') (punctual : Punctual s.log) :
    Punctual s'.log := by
  rcases quiet with same | ⟨e,other,same⟩
  · rw [same]
    exact punctual
  · rw [same]
    exact punctual_other punctual other

theorem Quiet.back {s s' : TimerMgr} (quiet : Quiet s s') (punctual : Punctual s'.log) :
    Punctual s.log := by
  rcases quiet with same | ⟨e,_,same⟩
  · rwa [same] at punctual
  · rw [same] at punctual
    exact punctual.front

theorem visit_punctual {s : TimerMgr} (inv : s.Inv) (timed : s.Timed) {now i : Nat} {t : Timer}
    (walk : s.walk = .scan now i) (at_ : s.lstTimers[i]? = some t) :
    Punctual (s.visit now i t).log ↔ Punctual s.log ∧ s.OnTime .visit := by
  have reached : s.reached = some (now,t) := by simp [TimerMgr.reached,walk,at_]
  have onTime : s.OnTime .visit ↔ (t.canceled = false → t.callable = true →
      now = t.count_time + t.interval ∨ 2^64 ≤ t.count_time + t.interval) := by
    simp [OnTime,reached]
  rw [onTime]
  by_cases looks : t.canceled = false ∧ t.callable = true
  · have live := inv.ledger.live t (mem_held at_)
    obtain ⟨late,before⟩ := timed.now now i (.inl walk)
    have clock := timed.clock
    rw [visit_log s looks.1 looks.2,punctual_looked,live.2,live.1.period_eq,
      due_iff (before t (List.mem_of_getElem? at_)) (by omega) (timed.interval t (mem_held at_))]
    exact and_congr_right fun _ => ⟨fun due _ _ => due,fun due => due looks.1 looks.2⟩
  · have quiet : Quiet s (s.visit now i t) := visit_quiet s looks
    exact ⟨fun punctual => ⟨quiet.back punctual,fun live callable => absurd ⟨live,callable⟩ looks⟩,
      fun both => quiet.punctual both.1⟩

theorem step_punctual {s s' : TimerMgr} {op : TimerOp} (inv : s.Inv) (timed : s.Timed)
    (stepped : s.step op = some s') : Punctual s'.log ↔ Punctual s.log ∧ s.OnTime op := by
  by_cases visits : op = .visit
  · subst visits
    cases step_cases stepped with
    | visit walk at_ => exact visit_punctual inv timed walk at_
  · have quiet := step_quiet stepped visits
    have always : s.OnTime op := by
      cases op with
      | visit => exact absurd rfl visits
      | _ => trivial
    exact ⟨fun punctual => ⟨quiet.back punctual,always⟩,fun both => quiet.punctual both.1⟩

theorem step_back {s s' : TimerMgr} {op : TimerOp} (stepped : s.step op = some s')
    (punctual : Punctual s'.log) : Punctual s.log := by
  by_cases visits : op = .visit
  · subst visits
    cases step_cases stepped with
    | @visit now i t walk at_ =>
      by_cases looks : t.canceled = false ∧ t.callable = true
      · rw [visit_log s looks.1 looks.2] at punctual
        exact punctual.front
      · exact (visit_quiet s looks).back punctual
  · exact (step_quiet stepped visits).back punctual

structure Good (s : TimerMgr) : Prop where
  inv : s.Inv
  timed : s.Timed
  punctual : Punctual s.log

theorem good_new : new.Good where
  inv := inv_new
  timed := ⟨by decide,fun _ member => absurd member List.not_mem_nil,
    fun _ member => absurd member List.not_mem_nil,fun _ _ here => by rcases here with h | h <;> cases h⟩
  punctual := by
    intro past later n now pass ran split
    simp [new] at split

/-- In a run every look is right, that is a callback runs exactly when it is due, if and
only if every look comes at the very end of the timer's interval. -/
theorem timers_punctual (ops : List TimerOp) (s : TimerMgr) (ran : Runs.run step new ops = some s) :
    Punctual s.log ↔ Runs.Meets step OnTime new ops := by
  refine Runs.good_iff_meets Good (fun s => Punctual s.log) (fun _ good => good.punctual) ?_ ?_ ?_
    good_new ran
  · intro s op s' good onTime stepped
    exact ⟨inv_step good.inv stepped,timed_step good.inv good.timed stepped,
      (step_punctual good.inv good.timed stepped).mpr ⟨good.punctual,onTime⟩⟩
  · exact fun s op s' stepped => step_back stepped
  · exact fun s op s' good stepped punctual =>
      ((step_punctual good.inv good.timed stepped).mp punctual).2

/-- A timer of 10, looked at 5 after it was made and 11 after that. -/
def early : List TimerOp :=
  [.createCb 100 10 (some 0) 0,.update 105,.visit,.ret,.leave,.update 116,.visit]

theorem timers_early : ∃ s, Runs.run step new early = some s ∧
    s.log = [.created 0 100 10 none,.looked 0 105 1 true,.fired 0 105,.looked 0 116 2 false] ∧
    ¬ Punctual s.log := by
  have done : (Runs.run step new early).map log =
      some [.created 0 100 10 none,.looked 0 105 1 true,.fired 0 105,.looked 0 116 2 false] := by
    decide
  obtain ⟨s,ran,log⟩ := Option.map_eq_some_iff.mp done
  refine ⟨s,ran,log,fun punctual => ?_⟩
  have first := (punctual [.created 0 100 10 none] [.fired 0 105,.looked 0 116 2 false] 0 105 1 true
    log).mp rfl
  simp [history,base,period,Event.serial] at first

def onTheDot : List TimerOp :=
  [.createCb 100 10 (some 0) 0,.update 110,.visit,.ret,.leave,.update 120,.visit,.cancel 1,.ret,
    .leave,.update 121,.visit,.leave]

theorem timers_punctual_dot : ∃ s, Runs.run step new onTheDot = some s ∧ Punctual s.log := by
  have done : (Runs.run step new onTheDot).isSome = true := by decide
  obtain ⟨s,ran⟩ := Option.isSome_iff_exists.mp done
  exact ⟨s,ran,(timers_punctual onTheDot s ran).mpr (by decide)⟩

end TimerMgr

end Pworld.Timing
