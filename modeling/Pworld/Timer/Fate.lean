import Pworld.Timer.Safety

/-! One timer through a step: it is made, marked, started, counted anew or freed, or it
stays as it is. What holds of a timer over whole runs follows from these cases. -/
namespace Pworld.Timing

namespace TimerMgr

/-- The timer number `n`, while it is held. -/
def timer (s : TimerMgr) (n : Nat) : Option Timer := s.held.find? fun t => t.serial == n

/-- `Update` is in the callback of the timer `n`. -/
def calling (s : TimerMgr) (n : Nat) : Prop :=
  ∃ now i, s.walk = .call now i ∧ (s.lstTimers.map Timer.serial)[i]? = some n

def makes (s : TimerMgr) : TimerOp → Option Timer
  | .createCb tick itv cb once => some {s.newTimer tick itv once with cb := cb}
  | .createFunc tick itv func param once =>
    some {s.newTimer tick itv once with func := func, param := param}
  | _ => none

inductive Fate (s : TimerMgr) (op : TimerOp) (s' : TimerMgr) (n : Nat) : Prop where
  | kept (timer : s'.timer n = s.timer n) (starts : s'.starts n = s.starts n)
    (calling : s'.calling n ↔ s.calling n)
  | made {t : Timer} (makes : s.makes op = some t) (number : n = s.made)
    (before : s.timer n = none) (after : s'.timer n = some t) (starts : s'.starts n = s.starts n)
    (quiet : ¬ s'.calling n)
  | marked {t : Timer} (cancel : op = .cancel t.tid) (before : s.timer n = some t)
    (after : s'.timer n = some t.SetCancel) (starts : s'.starts n = s.starts n)
    (calling : s'.calling n ↔ s.calling n)
  | started {t : Timer} (visit : op = .visit) (idle : ¬ s.calling n)
    (before : s.timer n = some t) (live : t.canceled = false) (callable : t.callable = true)
    (after : s'.timer n = some t) (starts : s'.starts n = s.starts n + 1) (calling : s'.calling n)
  | fired {t : Timer} {now : Nat} (before : s.timer n = some t) (repeats : t.once = 0)
    (after : s'.timer n = some {t with count_time := now}) (starts : s'.starts n = s.starts n)
    (quiet : ¬ s'.calling n)
  | freed {t : Timer} (before : s.timer n = some t)
    (why : t.canceled = true ∧ op = .visit ∨ t.once ≠ 0 ∧
      (s.calling n ∧ op = .ret ∨ t.callable = false ∧ op = .visit))
    (after : s'.timer n = none) (starts : s'.starts n = s.starts n) (quiet : ¬ s'.calling n)
  | released (release : op = .release) (after : s'.timer n = none)
    (starts : s'.starts n = s.starts n) (quiet : ¬ s'.calling n)

theorem find_iff {ts : List Timer} (distinct : (ts.map Timer.serial).Nodup) {n : Nat} {t : Timer} :
    ts.find? (fun t => t.serial == n) = some t ↔ t ∈ ts ∧ t.serial = n := by
  constructor
  · intro found
    exact ⟨List.mem_of_find?_eq_some found,by simpa using List.find?_some found⟩
  · rintro ⟨member,serial⟩
    cases found : ts.find? fun t => t.serial == n with
    | none =>
      have absent := List.find?_eq_none.mp found t member
      simp [serial] at absent
    | some u =>
      have same : u.serial = n := by simpa using List.find?_some found
      have there := List.mem_of_find?_eq_some found
      rw [List.inj_on_of_nodup_map distinct there member (same.trans serial.symm)]

theorem find_perm {ts us : List Timer} (same : ts.Perm us)
    (distinct : (ts.map Timer.serial).Nodup) (n : Nat) :
    ts.find? (fun t => t.serial == n) = us.find? fun t => t.serial == n := by
  have distinct' := (same.map Timer.serial).nodup_iff.mp distinct
  ext t
  rw [find_iff distinct,find_iff distinct',same.mem_iff]

theorem Inv.distinct {s : TimerMgr} (inv : s.Inv) : (s.held.map Timer.serial).Nodup :=
  (List.nodup_append.mp inv.ledger.nodup).1

theorem Inv.timer_iff {s : TimerMgr} (inv : s.Inv) {n : Nat} {t : Timer} :
    s.timer n = some t ↔ t ∈ s.held ∧ t.serial = n := find_iff inv.distinct

theorem Inv.timer_perm {s : TimerMgr} (inv : s.Inv) {ts : List Timer} (same : s.held.Perm ts)
    (n : Nat) : s.timer n = ts.find? fun t => t.serial == n := find_perm same inv.distinct n

theorem Inv.timer_none {s : TimerMgr} (inv : s.Inv) {n : Nat} (beyond : s.made ≤ n) :
    s.timer n = none := by
  cases found : s.timer n with
  | none => rfl
  | some t =>
    obtain ⟨member,serial⟩ := inv.timer_iff.mp found
    have made := inv.ledger.made member
    omega

theorem Inv.timer_cons {s : TimerMgr} (inv : s.Inv) {t : Timer} {rest : List Timer}
    (same : s.held.Perm (t::rest)) (n : Nat) :
    s.timer n = if n = t.serial then some t else rest.find? fun t => t.serial == n := by
  rw [inv.timer_perm same,List.find?_cons]
  by_cases own : n = t.serial
  · rw [if_pos own,own,beq_self_eq_true]
  · rw [if_neg own,beq_false_of_ne (Ne.symm own)]

theorem Inv.rest_other {s : TimerMgr} (inv : s.Inv) {t : Timer} {rest : List Timer}
    (same : s.held.Perm (t::rest)) : rest.find? (fun u => u.serial == t.serial) = none := by
  have apart := (inv.ledger.perm same).apart.1
  rw [List.find?_eq_none]
  intro u member
  simpa using apart u member

theorem not_calling {s : TimerMgr} (walk : ∀ now i, s.walk ≠ .call now i) (n : Nat) :
    ¬ s.calling n := fun ⟨now,i,called,_⟩ => walk now i called

theorem idle_not_calling {s : TimerMgr} (idle : s.walk = .idle) (n : Nat) : ¬ s.calling n :=
  not_calling (fun _ _ called => by cases idle.symm.trans called) n

theorem scan_not_calling {s : TimerMgr} {now i : Nat} (walk : s.walk = .scan now i) (n : Nat) :
    ¬ s.calling n :=
  not_calling (fun _ _ called => by cases walk.symm.trans called) n

theorem calling_congr {s s' : TimerMgr} (walk : s'.walk = s.walk)
    (lists : s'.lstTimers.map Timer.serial = s.lstTimers.map Timer.serial) (n : Nat) :
    s'.calling n ↔ s.calling n := by
  simp only [calling,walk,lists]

theorem quiet_congr {s s' : TimerMgr} {n : Nat} (before : ¬ s.calling n) (after : ¬ s'.calling n) :
    s'.calling n ↔ s.calling n := ⟨fun h => absurd h after,fun h => absurd h before⟩

theorem calling_at {s : TimerMgr} {now i n : Nat} {t : Timer} (walk : s.walk = .call now i)
    (at_ : s.lstTimers[i]? = some t) : s.calling n ↔ n = t.serial := by
  constructor
  · rintro ⟨now',i',called,there⟩
    cases walk.symm.trans called
    rw [List.getElem?_map,at_] at there
    exact (Option.some.inj there).symm
  · rintro rfl
    exact ⟨now,i,walk,by rw [List.getElem?_map,at_]; rfl⟩

variable {s s' : TimerMgr} {op : TimerOp} {t : Timer}

theorem createTimer_held (t : Timer) : (s.createTimer t).held.Perm (t::s.held) := by
  by_cases process : s.in_process = true
  · simp only [createTimer,process,if_true,held]
    rw [← List.append_assoc]
    exact List.perm_append_singleton t _
  · simp only [createTimer,process,Bool.false_eq_true,if_false,held]
    rw [List.append_assoc]
    exact List.perm_middle

theorem fate_create (inv : s.Inv) (makes : s.makes op = some t) (serial : t.serial = s.made)
    (inv' : (s.createTimer t).Inv) (n : Nat) : Fate s op (s.createTimer t) n := by
  have starts : (s.createTimer t).starts n = s.starts n := by
    have quiet := starts_append s n (e := .created s.made t.count_time t.interval s.bornIn) rfl nofun
    unfold createTimer
    dsimp only
    split <;> exact quiet
  have timer := inv'.timer_cons (createTimer_held t) n
  have calling : (s.createTimer t).calling n ↔ s.calling n := by
    by_cases process : s.in_process = true
    · apply calling_congr <;> simp [createTimer,process]
    · have idle : s.walk = .idle := by
        by_contra walks
        exact process (inv.walks walks).1
      apply quiet_congr
      · exact idle_not_calling idle n
      · apply idle_not_calling
        simp [createTimer,process,idle]
  by_cases own : n = t.serial
  · rw [if_pos own] at timer
    have none := inv.timer_none (n := n) (by omega)
    apply Fate.made makes (own.trans serial) none timer starts
    rw [calling]
    rintro ⟨now,i,_,there⟩
    obtain ⟨u,at_,same⟩ := by simpa using there
    have member := mem_held at_
    have := inv.ledger.made member
    omega
  · rw [if_neg own] at timer
    exact .kept timer starts calling

theorem cancel_perm (s : TimerMgr) (tid : Nat) :
    (∀ t ∈ s.held, t.tid ≠ tid) ∧ s.CancelTimer tid = s ∨ ∃ t rest, t.tid = tid ∧
      s.held.Perm (t::rest) ∧ (s.CancelTimer tid).held.Perm (t.SetCancel::rest) := by
  have result := cancel_cases s tid
  generalize s.CancelTimer tid = s' at *
  cases result with
  | none none_ => exact Or.inl ⟨none_,rfl⟩
  | @old us t marked found =>
    obtain ⟨rest,same,changed⟩ := marked.perm
    exact Or.inr ⟨t,_,found,same.append_right _,changed.append_right _⟩
  | @new us t marked found =>
    obtain ⟨rest,same,changed⟩ := marked.perm
    refine Or.inr ⟨t,s.lstTimers ++ rest,found,?_,?_⟩
    · exact (same.append_left s.lstTimers).trans List.perm_middle
    · exact (changed.append_left s.lstTimers).trans List.perm_middle

theorem cancel_timer (inv : s.Inv) {tid : Nat} {rest : List Timer} (same : s.held.Perm (t::rest))
    (changed : (s.CancelTimer tid).held.Perm (t.SetCancel::rest)) :
    (s.CancelTimer tid).timer t.serial = some t.SetCancel ∧
      ∀ n, n ≠ t.serial → (s.CancelTimer tid).timer n = s.timer n := by
  have after := (inv_cancel inv tid).timer_cons changed
  constructor
  · rw [after]
    exact if_pos rfl
  · intro n other
    rw [after,inv.timer_cons same,if_neg other]
    exact if_neg other

theorem fate_cancel (inv : s.Inv) (tid n : Nat) : Fate s (.cancel tid) (s.CancelTimer tid) n := by
  have starts : (s.CancelTimer tid).starts n = s.starts n := by
    unfold CancelTimer
    split <;> rfl
  have calling : (s.CancelTimer tid).calling n ↔ s.calling n := by
    have serials (i : Nat) (ts : List Timer) :
        (ts.modify i Timer.SetCancel).map Timer.serial = ts.map Timer.serial := by
      apply List.ext_getElem?
      intro j
      rw [List.getElem?_map,List.getElem?_map,List.getElem?_modify]
      split <;> cases ts[j]? <;> rfl
    unfold CancelTimer
    split
    · refine calling_congr ?_ ?_ n
      · rfl
      · exact serials _ _
    · exact Iff.rfl
    · exact Iff.rfl
  rcases cancel_perm s tid with ⟨_,same⟩ | ⟨t,rest,found,same,changed⟩
  · exact .kept (by rw [same]) starts calling
  · obtain ⟨own,others⟩ := cancel_timer inv same changed
    by_cases here : n = t.serial
    · subst here
      have before : s.timer t.serial = some t := (inv.timer_cons same _).trans (if_pos rfl)
      exact .marked (found ▸ rfl) before own starts calling
    · exact .kept (others n here) starts calling

/-- What becomes of the timer at `i`, and that nothing becomes of the others. -/
theorem Inv.fate_at {n now i : Nat} (inv : s.Inv) (at_ : s.lstTimers[i]? = some t)
    (others : n ≠ t.serial → ¬ s.calling n) (inv' : s'.Inv) (quiet : ¬ s'.calling n)
    (starts : s'.starts n = s.starts n)
    (why : s' = s.erase now i t ∧ (t.canceled = true ∧ op = .visit ∨
        t.once ≠ 0 ∧ (s.calling t.serial ∧ op = .ret ∨ t.callable = false ∧ op = .visit)) ∨
      (∃ now, s'.held = s.lstTimers.set i {t with count_time := now} ++ s.lstNewTimer) ∧
        t.once = 0) : Fate s op s' n := by
  obtain ⟨rest,same,changed,gone⟩ := held_perm at_
  have before := inv.timer_cons same n
  rcases why with ⟨rfl,why⟩ | ⟨⟨now,held⟩,repeats⟩
  · have after := inv'.timer_perm gone n
    by_cases own : n = t.serial
    · rw [if_pos own] at before
      rw [own,inv.rest_other same,← own] at after
      exact .freed before (own ▸ why) after starts quiet
    · rw [if_neg own] at before
      exact .kept (after.trans before.symm) starts (quiet_congr (others own) quiet)
  · have after := inv'.timer_cons (held ▸ changed {t with count_time := now}) n
    by_cases own : n = t.serial
    · rw [if_pos own] at before after
      exact .fired before repeats after starts quiet
    · rw [if_neg own] at before after
      exact .kept (after.trans before.symm) starts (quiet_congr (others own) quiet)

theorem after_not_calling (now i n : Nat) : ¬ (s.after now i t).calling n := by
  apply not_calling
  unfold after erase
  split <;> nofun

theorem after_starts (now i n : Nat) : (s.after now i t).starts n = s.starts n := by
  unfold after
  split
  · rfl
  · exact starts_append s n rfl nofun

theorem fate_after {n now i : Nat} (inv : s.Inv) (at_ : s.lstTimers[i]? = some t)
    (others : n ≠ t.serial → ¬ s.calling n) (inv' : (s.after now i t).Inv)
    (why : s.calling t.serial ∧ op = .ret ∨ t.callable = false ∧ op = .visit) :
    Fate s op (s.after now i t) n := by
  apply @Inv.fate_at _ _ _ _ n now i inv at_ others inv' (after_not_calling now i n)
    (after_starts now i n)
  by_cases once : t.once = 0
  · right
    refine ⟨⟨now,?_⟩,once⟩
    rw [after,if_neg (not_not_intro once)]
    rfl
  · left
    exact ⟨if_pos once,Or.inr ⟨once,why⟩⟩

theorem look_starts (now n : Nat) : (s.look now t false).starts n = s.starts n := by
  unfold look
  split
  · exact starts_append s n rfl nofun
  · rfl

theorem look_timer (now n : Nat) (ran : Bool) : (s.look now t ran).timer n = s.timer n := by
  unfold look
  split <;> rfl

theorem fate_visit {now i : Nat} (inv : s.Inv) (walk : s.walk = .scan now i)
    (at_ : s.lstTimers[i]? = some t) (inv' : (s.visit now i t).Inv) (n : Nat) :
    Fate s .visit (s.visit now i t) n := by
  have idle := scan_not_calling walk n
  unfold visit at inv' ⊢
  by_cases canceled : t.canceled = true
  · rw [if_pos canceled] at inv' ⊢
    apply @Inv.fate_at _ _ _ _ n now i inv at_ (fun _ => idle) inv' _ rfl
    · exact Or.inl ⟨rfl,Or.inl ⟨canceled,rfl⟩⟩
    · apply scan_not_calling
      rfl
  rw [if_neg canceled] at inv' ⊢
  by_cases due : t.due now = true
  · rw [if_pos due] at inv' ⊢
    by_cases callable : t.callable = true
    · simp only [callable,if_true] at inv' ⊢
      have there : (s.look now t true).lstTimers[i]? = some t := by
        rw [(look_lists s now t true).1]
        exact at_
      have called := calling_at (s := {s.look now t true with walk := .call now i}) rfl there
        (n := n)
      have timer : ({s.look now t true with walk := .call now i} : TimerMgr).timer n =
        s.timer n := look_timer now n true
      by_cases own : n = t.serial
      · have before := inv.timer_iff.mpr ⟨mem_held at_,own.symm⟩
        apply Fate.started rfl idle before (by simpa using canceled) callable (timer.trans before)
        · simp [starts,look,callable,Event.starts,own]
        · exact called.mpr own
      · apply Fate.kept timer
        · simp [starts,look,callable,Event.starts,Ne.symm own]
        · exact quiet_congr idle fun h => own (called.mp h)
    · have look : s.look now t true = s := by
        rw [look,if_neg callable]
      simp only [callable,Bool.false_eq_true,if_false,look] at inv' ⊢
      exact fate_after inv at_ (fun _ => idle) inv' (Or.inr ⟨by simpa using callable,rfl⟩)
  · rw [if_neg due]
    refine Fate.kept ?_ ?_ ?_
    · exact look_timer now n false
    · exact look_starts now n
    · exact quiet_congr idle (scan_not_calling rfl n)

theorem makes_step (makes : s.makes op = some t) (stepped : s.step op = some s') :
    s' = s.createTimer t ∧ t.serial = s.made := by
  cases op with
  | createCb | createFunc =>
    simp only [step] at stepped
    split_ifs at stepped
    cases makes
    exact ⟨(Option.some.inj stepped).symm,rfl⟩
  | _ => cases makes

theorem step_fate (inv : s.Inv) (stepped : s.step op = some s') (n : Nat) : Fate s op s' n := by
  have inv' := inv_step inv stepped
  cases making : s.makes op with
  | some t =>
    obtain ⟨rfl,serial⟩ := makes_step making stepped
    exact fate_create inv making serial inv' n
  | none =>
    cases step_cases stepped with
    | createCb | createFunc => cases making
    | cancel => exact fate_cancel inv _ n
    | update idle time =>
      refine Fate.kept ?_ ?_ ?_
      · rfl
      · rfl
      · apply quiet_congr
        · exact idle_not_calling idle n
        · exact scan_not_calling rfl n
    | visit walk at_ => exact fate_visit inv walk at_ inv' n
    | ret walk at_ =>
      have called := calling_at walk at_ (n := n)
      apply fate_after inv at_ _ inv' (Or.inl ⟨(calling_at walk at_).mpr rfl,rfl⟩)
      exact fun other here => other (called.mp here)
    | leave walk =>
      refine Fate.kept ?_ ?_ ?_
      · exact congrArg (List.find? _) (List.append_nil _)
      · rfl
      · apply quiet_congr
        · exact scan_not_calling walk n
        · exact idle_not_calling rfl n
    | release idle =>
      refine Fate.released rfl rfl rfl ?_
      apply not_calling
      intro now i same
      exact Walk.noConfusion (idle.symm.trans same)

theorem makes_fields (makes : s.makes op = some t) :
    t.tid = u32 (s.maker+1) ∧ t.serial = s.made ∧ t.canceled = false := by
  cases op with
  | createCb | createFunc =>
    cases makes
    exact ⟨rfl,rfl,rfl⟩
  | _ => cases makes

theorem createTimer_counts (t : Timer) :
    (s.createTimer t).made = s.made + 1 ∧ (s.createTimer t).maker = t.tid := by
  unfold createTimer
  dsimp only
  split <;> exact ⟨rfl,rfl⟩

theorem step_counts (stepped : s.step op = some s') (none : s.makes op = none) :
    s'.made = s.made ∧ s'.maker = s.maker := by
  have look (now : Nat) (t : Timer) (ran : Bool) :
      (s.look now t ran).made = s.made ∧ (s.look now t ran).maker = s.maker := by
    unfold look
    split <;> exact ⟨rfl,rfl⟩
  have after (s : TimerMgr) (now i : Nat) (t : Timer) :
      (s.after now i t).made = s.made ∧ (s.after now i t).maker = s.maker := by
    unfold TimerMgr.after
    split <;> exact ⟨rfl,rfl⟩
  cases step_cases stepped with
  | createCb | createFunc => cases none
  | cancel =>
    unfold CancelTimer
    split <;> exact ⟨rfl,rfl⟩
  | @visit now i t =>
    unfold visit
    split
    · exact ⟨rfl,rfl⟩
    split
    · dsimp only
      split
      · exact look now t true
      · rw [(after _ now i t).1,(after _ now i t).2]
        exact look now t true
    · exact look now t false
  | ret => exact after s _ _ _
  | update | leave | release => exact ⟨rfl,rfl⟩

theorem makes_counts (makes : s.makes op = some t) (stepped : s.step op = some s') :
    s'.made = s.made + 1 ∧ s'.maker = u32 (s.maker+1) := by
  obtain ⟨rfl,_⟩ := makes_step makes stepped
  rw [← (makes_fields makes).1]
  exact createTimer_counts t

/-- A timer not made yet has not run. -/
theorem Inv.starts_none (inv : s.Inv) {n : Nat} (beyond : s.made ≤ n) : s.starts n = 0 := by
  apply List.countP_eq_zero.mpr
  intro e member ran
  have own : e.serial = n := by
    cases e with
    | looked serial now pass ran' =>
      have both : serial = n ∧ ran' = true := by simpa [Event.starts] using ran
      exact both.1
    | created | fired => cases ran
  have there : e ∈ history Event.serial s.log n := List.mem_filter.mpr ⟨member,decide_eq_true own⟩
  rw [inv.ledger.fresh n beyond] at there
  exact List.not_mem_nil there

/-- The timer made is there after the step, and has not run. -/
theorem makes_timer (inv : s.Inv) (makes : s.makes op = some t) (stepped : s.step op = some s') :
    s'.timer s.made = some t ∧ s'.starts s.made = 0 ∧ ¬ s'.calling s.made := by
  have none := inv.timer_none (Nat.le_refl s.made)
  have there : s'.timer s.made = some t := by
    obtain ⟨rfl,serial⟩ := makes_step makes stepped
    rw [(inv_step inv stepped).timer_cons (createTimer_held t),if_pos serial.symm]
  cases step_fate inv stepped s.made with
  | kept same => cases (same.symm.trans there).symm.trans none
  | made _ _ _ _ starts quiet =>
    exact ⟨there,starts.trans (inv.starts_none (Nat.le_refl _)),quiet⟩
  | marked _ before | started _ _ before | fired before | freed before =>
    cases none.symm.trans before
  | released _ after => cases after.symm.trans there

theorem made_mono (stepped : s.step op = some s') : s.made ≤ s'.made := by
  cases making : s.makes op with
  | none => rw [(step_counts stepped making).1]
  | some t =>
    rw [(makes_counts making stepped).1]
    exact Nat.le_succ _

end TimerMgr

end Pworld.Timing
