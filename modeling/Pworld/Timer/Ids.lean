import Pworld.Timer.Fate

/-! The ids of the timers are numbers modulo 2^32, one after the other: they are distinct
as long as no timer outlives 2^32 creations. -/
namespace Pworld.Timing

namespace TimerMgr

variable {s s' : TimerMgr} {op : TimerOp} {t : Timer}

/-- The id of a timer is its number, from 1 on. -/
structure Numbered (s : TimerMgr) : Prop where
  maker : s.maker = u32 s.made
  tids : ∀ n t, s.timer n = some t → t.tid = u32 (n+1)

/-- A timer after a step was there before it, with the same id and something to call if it
has, and not marked if it is not now, or is the one made. -/
theorem step_timer (inv : s.Inv) (stepped : s.step op = some s') {n : Nat}
    (after : s'.timer n = some t) :
    (∃ u, s.timer n = some u ∧ u.tid = t.tid ∧ u.callable = t.callable ∧
      (t.canceled = false → u.canceled = false)) ∨ s.makes op = some t ∧ n = s.made := by
  cases step_fate inv stepped n with
  | kept same => exact Or.inl ⟨t,same ▸ after,rfl,rfl,id⟩
  | made makes number _ now =>
    cases now.symm.trans after
    exact Or.inr ⟨makes,number⟩
  | marked _ before now =>
    cases now.symm.trans after
    exact Or.inl ⟨_,before,rfl,rfl,Bool.noConfusion⟩
  | fired before _ now | started _ _ before _ _ now =>
    cases now.symm.trans after
    exact Or.inl ⟨_,before,rfl,rfl,id⟩
  | freed _ _ now | released _ now => cases now.symm.trans after

theorem numbered_step (inv : s.Inv) (numbered : s.Numbered) (stepped : s.step op = some s') :
    s'.Numbered := by
  constructor
  · cases making : s.makes op with
    | none =>
      obtain ⟨made,maker⟩ := step_counts stepped making
      rw [made,maker]
      exact numbered.maker
    | some t =>
      obtain ⟨made,maker⟩ := makes_counts making stepped
      rw [made,maker,numbered.maker]
      exact Nat.mod_add_mod ..
  · intro n t after
    rcases step_timer inv stepped after with ⟨u,before,same,_⟩ | ⟨making,rfl⟩
    · rw [← same]
      exact numbered.tids n u before
    · rw [(makes_fields making).1,numbered.maker]
      exact Nat.mod_add_mod ..

theorem numbered_new : new.Numbered := ⟨rfl,fun _ _ none => by cases none⟩

/-- The timer that `GetTimer` gives. -/
def got (s : TimerMgr) (tid : Nat) : Option Timer :=
  match s.GetTimer tid with
  | some (.inl i) => s.lstTimers[i]?
  | some (.inr i) => s.lstNewTimer[i]?
  | none => none

/-- Distinct ids, by which each timer is got and cancelled itself. -/
structure Distinct (s : TimerMgr) : Prop where
  ids : (s.held.map Timer.tid).Nodup
  get : ∀ t ∈ s.held, s.got t.tid = some t
  cancel : ∀ t ∈ s.held, (s.CancelTimer t.tid).timer t.serial = some t.SetCancel ∧
    ∀ n, n ≠ t.serial → (s.CancelTimer t.tid).timer n = s.timer n

theorem got_found {ts : List Timer} {i tid : Nat}
    (found : ts.findIdx? (fun t => t.tid == tid) = some i) :
    ∃ t, ts[i]? = some t ∧ t ∈ ts ∧ t.tid = tid := by
  obtain ⟨inside,here,_⟩ := List.findIdx?_eq_some_iff_getElem.mp found
  exact ⟨ts[i],List.getElem?_eq_getElem inside,List.getElem_mem inside,by simpa using here⟩

theorem got_held {tid : Nat} (member : t ∈ s.held) (id : t.tid = tid) :
    ∃ u, s.got tid = some u ∧ u ∈ s.held ∧ u.tid = tid := by
  unfold got GetTimer
  cases old : s.lstTimers.findIdx? fun t => t.tid == tid with
  | some i =>
    obtain ⟨u,at_,inside,same⟩ := got_found old
    exact ⟨u,at_,List.mem_append_left _ inside,same⟩
  | none =>
    cases new : s.lstNewTimer.findIdx? fun t => t.tid == tid with
    | some i =>
      obtain ⟨u,at_,inside,same⟩ := got_found new
      exact ⟨u,at_,List.mem_append_right _ inside,same⟩
    | none =>
      rcases List.mem_append.mp member with inside | inside
      · have other := List.findIdx?_eq_none_iff.mp old t inside
        simp [id] at other
      · have other := List.findIdx?_eq_none_iff.mp new t inside
        simp [id] at other

theorem Distinct.of_ids (inv : s.Inv) (ids : (s.held.map Timer.tid).Nodup) : s.Distinct where
  ids := ids
  get := by
    intro t member
    obtain ⟨u,found,there,same⟩ := got_held member rfl
    rw [found,List.inj_on_of_nodup_map ids there member same]
  cancel := by
    intro t member
    rcases cancel_perm s t.tid with ⟨none,_⟩ | ⟨u,rest,found,same,changed⟩
    · exact absurd rfl (none t member)
    · have there : u ∈ s.held := same.mem_iff.mpr List.mem_cons_self
      cases List.inj_on_of_nodup_map ids there member found
      exact cancel_timer inv same changed

/-- No two timers held have numbers that are the same id. -/
def Apart (s : TimerMgr) : Prop :=
  ∀ n m, (s.timer n).isSome → (s.timer m).isSome → u32 (n+1) = u32 (m+1) → n = m

theorem Inv.isSome_iff (inv : s.Inv) {n : Nat} :
    (s.timer n).isSome ↔ ∃ t ∈ s.held, t.serial = n := by
  rw [Option.isSome_iff_exists]
  exact exists_congr fun t => inv.timer_iff

theorem ids_iff (inv : s.Inv) (numbered : s.Numbered) :
    (s.held.map Timer.tid).Nodup ↔ s.Apart := by
  have id (t : Timer) (member : t ∈ s.held) : t.tid = u32 (t.serial+1) :=
    numbered.tids _ t (inv.timer_iff.mpr ⟨member,rfl⟩)
  constructor
  · intro ids n m first second same
    obtain ⟨t,there,rfl⟩ := inv.isSome_iff.mp first
    obtain ⟨u,there',rfl⟩ := inv.isSome_iff.mp second
    rw [← id t there,← id u there'] at same
    rw [List.inj_on_of_nodup_map ids there there' same]
  · intro apart
    apply (List.nodup_map_iff_inj_on inv.distinct.of_map).mpr
    intro t there u there' same
    rw [id t there,id u there'] at same
    have number := apart _ _ (inv.isSome_iff.mpr ⟨t,there,rfl⟩)
      (inv.isSome_iff.mpr ⟨u,there',rfl⟩) same
    exact List.inj_on_of_nodup_map inv.distinct there there' number

/-- A timer is made only where none is held that was made a multiple of 2^32 timers before. -/
def Outlived (s : TimerMgr) (op : TimerOp) : Prop :=
  (s.makes op).isSome → ∀ t ∈ s.held, ¬ 2^32 ∣ s.made - t.serial

theorem u32_succ_eq {n m : Nat} (less : m ≤ n) : u32 (n+1) = u32 (m+1) ↔ 2^32 ∣ n - m := by
  unfold u32
  omega

theorem apart_step (inv : s.Inv) (apart : s.Apart) (stepped : s.step op = some s') :
    s'.Apart ↔ s.Outlived op := by
  have inv' := inv_step inv stepped
  have before {n : Nat} (none : s.makes op = none) (after : (s'.timer n).isSome) :
      (s.timer n).isSome := by
    obtain ⟨t,after⟩ := Option.isSome_iff_exists.mp after
    rcases step_timer inv stepped after with ⟨u,before,_⟩ | ⟨making,_⟩
    · rw [before]
      rfl
    · cases none.symm.trans making
  cases making : s.makes op with
  | none =>
    constructor
    · intro _ some
      rw [making] at some
      cases some
    · intro _ n m first second
      exact apart n m (before making first) (before making second)
  | some t =>
    obtain ⟨rfl,serial⟩ := makes_step making stepped
    have held {n : Nat} : ((s.createTimer t).timer n).isSome ↔
        n = s.made ∨ (s.timer n).isSome := by
      rw [inv'.isSome_iff,inv.isSome_iff,← serial]
      constructor
      · rintro ⟨u,member,rfl⟩
        rcases List.mem_cons.mp ((createTimer_held t).mem_iff.mp member) with rfl | old
        · exact Or.inl rfl
        · exact Or.inr ⟨u,old,rfl⟩
      · rintro (rfl | ⟨u,old,rfl⟩)
        · exact ⟨t,(createTimer_held t).mem_iff.mpr List.mem_cons_self,rfl⟩
        · exact ⟨u,(createTimer_held t).mem_iff.mpr (List.mem_cons_of_mem t old),rfl⟩
    constructor
    · intro after _ u member same
      have less := inv.ledger.made member
      have number := after s.made u.serial (held.mpr (Or.inl rfl))
        (held.mpr (Or.inr (inv.isSome_iff.mpr ⟨u,member,rfl⟩)))
        ((u32_succ_eq less.le).mpr same)
      exact less.ne number.symm
    · intro outlived
      have fresh {n : Nat} (old : (s.timer n).isSome) : u32 (s.made+1) ≠ u32 (n+1) := by
        obtain ⟨u,member,rfl⟩ := inv.isSome_iff.mp old
        intro same
        have less := inv.ledger.made member
        exact outlived (by rw [making]; rfl) u member ((u32_succ_eq less.le).mp same)
      intro n m first second same
      rcases held.mp first with rfl | old <;> rcases held.mp second with rfl | old'
      · rfl
      · exact absurd same (fresh old')
      · exact absurd same.symm (fresh old)
      · exact apart n m old old' same

/-- The ids are distinct throughout a run exactly when no timer outlives 2^32 creations. -/
theorem live_ids_distinct (ops : List TimerOp) (s : TimerMgr)
    (ran : Runs.run step new ops = some s) :
    Runs.Always step Distinct new ops ↔ Runs.Meets step Outlived new ops := by
  have known := And.intro inv_new numbered_new
  have keeps (s : TimerMgr) (op : TimerOp) (s' : TimerMgr) (before : s.Inv ∧ s.Numbered)
      (stepped : s.step op = some s') : s'.Inv ∧ s'.Numbered :=
    ⟨inv_step before.1 stepped,numbered_step before.1 before.2 stepped⟩
  have same (s : TimerMgr) (known : s.Inv ∧ s.Numbered) :
      s.Distinct ↔ (s.Inv ∧ s.Numbered) ∧ s.Apart := by
    constructor
    · exact fun distinct => ⟨known,(ids_iff known.1 known.2).mp distinct.ids⟩
    · exact fun sound => .of_ids known.1 ((ids_iff known.1 known.2).mpr sound.2)
  rw [Runs.always_congr (fun s => s.Inv ∧ s.Numbered) keeps same known]
  apply Runs.always_iff_meets (fun s => (s.Inv ∧ s.Numbered) ∧ s.Apart) _ _ ran
  · intro s op s' sound stepped
    rw [← apart_step sound.1.1 sound.2 stepped]
    exact and_iff_right (keeps s op s' sound.1 stepped)
  · exact ⟨known,fun n m none => by cases none⟩

/-- A run in which the second timer is made while the first is held. -/
theorem live_ids_distinct_two :
    Runs.Always step Distinct new [.createCb 1 0 (some 0) 0,.createCb 1 0 (some 1) 1] := by
  let ops : List TimerOp := [.createCb 1 0 (some 0) 0,.createCb 1 0 (some 1) 1]
  have ran : Runs.run step new ops = some ((Runs.run step new ops).getD new) := by decide
  apply (live_ids_distinct ops _ ran).mpr
  refine ⟨fun _ t none => absurd none List.not_mem_nil,fun s stepped => ⟨fun _ t held => ?_,?_⟩⟩
  · cases stepped
    cases List.mem_singleton.mp held
    decide
  · exact fun _ _ => trivial

/-- A timer that repeats, with its time counted from `k`. -/
def keeper (k : Nat) : Timer := ⟨0,none,k,1,1,0,false,none,0,some 0⟩

/-- A timer that runs once is made, and both run. -/
def shot (k : Nat) : List TimerOp :=
  [.createCb k 0 (some 1) 1,.update k,.visit,.ret,.visit,.ret,.leave]

/-- The repeating timer alone, after `k` others. -/
structure Steady (k : Nat) (s : TimerMgr) : Prop where
  old : s.lstTimers = [keeper k]
  new : s.lstNewTimer = []
  process : s.in_process = false
  idle : s.walk = .idle
  clock : s.clock = k
  made : s.made = k + 1
  unreleased : s.released = false

theorem steady_shot {k : Nat} {s : TimerMgr} (steady : Steady k s) (small : k + 1 < 2^64) :
    ∃ s', Runs.run step s (shot (k+1)) = some s' ∧ Steady (k+1) s' := by
  obtain ⟨maker,lists,aside,inside,walk,pass,clock,made,freed,log,free⟩ := s
  obtain ⟨old,new,process,idle,ticks,number,unreleased⟩ := steady
  dsimp only at old new process idle ticks number unreleased
  subst old new process idle number unreleased
  have below : k + 1 < 18446744073709551616 := small
  have time : (k + 1) % 18446744073709551616 = k + 1 := Nat.mod_eq_of_lt below
  simp [Runs.run,shot,step,outside,readTick,CreateTimerCb,createTimer,newTimer,ticks,below,visit,
    keeper,Timer.due,Timer.callable,u64,u32,u16,look,ret,after,erase,leave,Timer.SetOnce,
    Timer.SetInteval,Timer.new,time]
  constructor <;> rfl

/-- One timer that repeats, `n` others made and run, and one more made. -/
def outliving (n : Nat) : List TimerOp :=
  .createCb 0 1 (some 0) 0 :: (List.range n).flatMap (fun k => shot (k+1)) ++
    [.createCb n 1 (some 1) 1]

theorem steady_shots {n : Nat} (small : n < 2^64) :
    ∃ s, Runs.run step new (.createCb 0 1 (some 0) 0 ::
      (List.range n).flatMap fun k => shot (k+1)) = some s ∧ Steady n s := by
  induction n with
  | zero => exact ⟨_,rfl,rfl,rfl,rfl,rfl,rfl,rfl,rfl⟩
  | succ n ih =>
    obtain ⟨s,ran,steady⟩ := ih (Nat.lt_of_succ_lt small)
    obtain ⟨s',round,steady'⟩ := steady_shot steady small
    refine ⟨s',?_,steady'⟩
    rw [List.range_succ,List.flatMap_append,← List.cons_append,Runs.run_append,ran]
    rw [List.flatMap_singleton,Option.bind_some,round]

/-- The timer made 2^32 creations after one that is still there has its id. -/
theorem outlived_id_taken :
    ∃ s, Runs.run step new (outliving (2^32-1)) = some s ∧ ¬ s.Distinct := by
  obtain ⟨s,ran,steady⟩ := steady_shots (n := 2^32 - 1) (by decide)
  have numbered : s.Numbered := (Runs.run_pres (fun s => s.Inv ∧ s.Numbered)
    (fun s o s' known stepped => ⟨inv_step known.1 stepped,
      numbered_step known.1 known.2 stepped⟩) ⟨inv_new,numbered_new⟩ ran).2
  let t : Timer := {s.newTimer (2^32-1) 1 1 with cb := some 1}
  have out : s.outside = true := by
    rw [outside,steady.idle,steady.unreleased]
    rfl
  have time : s.readTick (2^32-1) := by
    rw [readTick,steady.clock]
    decide
  refine ⟨s.createTimer t,?_,?_⟩
  · rw [outliving,Runs.run_append,ran,Option.bind_some,Runs.run_cons,step,if_pos ⟨out,time⟩]
    rfl
  · intro distinct
    have ids := ((createTimer_held t).map Timer.tid).nodup_iff.mp distinct.ids
    rw [held,steady.old,steady.new] at ids
    have taken : t.tid = 1 := by
      change u32 (s.maker + 1) = 1
      rw [numbered.maker,steady.made]
      rfl
    apply (List.nodup_cons.mp ids).1
    rw [taken]
    exact List.mem_singleton.mpr rfl

end TimerMgr

end Pworld.Timing
