import Pworld.Timer.Fate

/-! Timers that run once. The parameter has 32 bits and the field 16: a parameter whose low
half is zero makes a timer that repeats. -/
namespace Pworld.Timing

namespace TimerMgr

variable {s s' : TimerMgr} {op : TimerOp} {n : Nat}

/-- The parameter `once` of a creation. -/
def onceOf : TimerOp → Option Nat
  | .createCb _ _ _ once => some once
  | .createFunc _ _ _ _ once => some once
  | _ => none

theorem makes_once {once : Nat} (given : onceOf op = some once) :
    ∃ t, s.makes op = some t ∧ t.once = u16 once := by
  cases op with
  | createCb | createFunc =>
    cases given
    exact ⟨_,rfl,rfl⟩
  | _ => cases given

/-- A timer that runs once: it has not run, or it is in its callback or gone. -/
structure OneShot (n : Nat) (s : TimerMgr) : Prop where
  made : n < s.made
  once : ∀ t, s.timer n = some t → t.once ≠ 0
  phase : s.starts n = 0 ∧ ¬ s.calling n ∨ s.starts n = 1 ∧ (s.timer n = none ∨ s.calling n)

theorem oneShot_step (inv : s.Inv) (shot : OneShot n s) (stepped : s.step op = some s') :
    OneShot n s' := by
  obtain ⟨made,once,phase⟩ := shot
  have made' := Nat.lt_of_lt_of_le made (made_mono stepped)
  cases step_fate inv stepped n with
  | kept timer starts calling =>
    refine ⟨made',?_,?_⟩
    · rwa [timer]
    · rwa [timer,starts,calling]
  | made _ number => exact absurd number made.ne
  | @marked t _ before after starts calling =>
    refine ⟨made',?_,?_⟩
    · intro u now
      cases after.symm.trans now
      exact once t before
    · rw [starts,calling,after]
      rw [before] at phase
      simpa using phase
  | @started t _ idle before _ _ after starts calling =>
    refine ⟨made',fun u now => ?_,?_⟩
    · cases after.symm.trans now
      exact once t before
    · rcases phase with ⟨zero,_⟩ | ⟨_,gone | called⟩
      · exact Or.inr ⟨by rw [starts,zero],Or.inr calling⟩
      · cases before.symm.trans gone
      · exact absurd called idle
  | @fired t _ before repeats => exact absurd repeats (once t before)
  | freed _ _ after starts quiet | released _ after starts quiet =>
    refine ⟨made',?_,?_⟩
    · intro u now
      cases after.symm.trans now
    · rw [starts]
      rcases phase with ⟨zero,_⟩ | ⟨one,_⟩
      · exact Or.inl ⟨zero,quiet⟩
      · exact Or.inr ⟨one,Or.inl after⟩

/-- A step taken while the timer is not marked, and not one that frees all of them. -/
def Uncancelled (n : Nat) (s : TimerMgr) (op : TimerOp) : Prop :=
  op ≠ .release ∧ ∀ t, s.timer n = some t → t.canceled = false

def Repeats (n : Nat) (s : TimerMgr) : Prop := ∃ t, s.timer n = some t ∧ t.once = 0

theorem repeats_step (inv : s.Inv) (repeats : Repeats n s) (free : Uncancelled n s op)
    (stepped : s.step op = some s') : Repeats n s' := by
  obtain ⟨t,there,zero⟩ := repeats
  cases step_fate inv stepped n with
  | kept timer => exact ⟨t,timer.trans there,zero⟩
  | made _ _ before => cases there.symm.trans before
  | marked _ before after | started _ _ before _ _ after | fired before _ after =>
    cases there.symm.trans before
    exact ⟨_,after,zero⟩
  | freed before why =>
    cases there.symm.trans before
    rcases why with ⟨canceled,_⟩ | ⟨once,_⟩
    · cases canceled.symm.trans (free.2 t there)
    · exact absurd zero once
  | released release => exact absurd release free.1

/-- What is promised of a timer made with the parameter `once`, in any state and whatever
comes after. -/
def Promised (once : Nat) : Prop :=
  ∀ ops s, Runs.run step new ops = some s → ∀ op s', onceOf op = some once →
    s.step op = some s' → ∀ ops' s'', Runs.run step s' ops' = some s'' →
    (once ≠ 0 → s''.starts s.made ≤ 1 ∧
      (s''.starts s.made = 1 → s''.timer s.made = none ∨ s''.calling s.made)) ∧
    (once = 0 → Runs.Meets step (Uncancelled s.made) s' ops' → (s''.timer s.made).isSome)

theorem promised_of_low {once : Nat} (low : once = 0 ∨ once % 2^16 ≠ 0) : Promised once := by
  intro ops s ran op s' given stepped ops' s'' later
  have inv := inv_run ran
  have inv' := inv_step inv stepped
  obtain ⟨t,makes,field⟩ := makes_once given
  obtain ⟨there,zero,quiet⟩ := makes_timer inv makes stepped
  constructor
  · intro once_
    have shot : OneShot s.made s' := by
      refine ⟨?_,fun u same => ?_,Or.inl ⟨zero,quiet⟩⟩
      · by_contra beyond
        cases there.symm.trans (inv'.timer_none (Nat.le_of_not_lt beyond))
      · cases there.symm.trans same
        rw [field]
        exact low.resolve_left once_
    have all := Runs.run_pres (fun s'' => s''.Inv ∧ OneShot s.made s'')
      (fun _ _ _ known stepped => ⟨inv_step known.1 stepped,oneShot_step known.1 known.2 stepped⟩)
      ⟨inv',shot⟩ later
    rcases all.2.phase with ⟨none,_⟩ | ⟨one,gone⟩
    · rw [none]
      exact ⟨Nat.zero_le 1,nofun⟩
    · exact ⟨one.le,fun _ => gone⟩
  · intro once_ free
    have repeats : Repeats s.made s' := ⟨t,there,by rw [field,once_]; rfl⟩
    have all := Runs.run_inv (fun s'' => s''.Inv ∧ Repeats s.made s'')
      (fun _ _ _ known free stepped =>
        ⟨inv_step known.1 stepped,repeats_step known.1 known.2 free stepped⟩)
      ⟨inv',repeats⟩ free later
    obtain ⟨t,there,_⟩ := all.2
    rw [there]
    rfl

/-- Two passes of `Update`, in both of which the callback is called. -/
def twice : List TimerOp := [.update 0,.visit,.ret,.leave,.update 0,.visit]

/-- A parameter without its high half makes the same timer. -/
theorem wide_once_repeats {once : Nat} (wide : once ≠ 0) (low : once % 2^16 = 0) :
    ¬ Promised once := by
  intro promised
  have same : new.CreateTimerCb 0 0 (some 0) once = new.CreateTimerCb 0 0 (some 0) 0 := by
    simp only [CreateTimerCb,newTimer,Timer.SetOnce,u16,low]
    rfl
  have stepped : new.step (.createCb 0 0 (some 0) once) =
      some (new.CreateTimerCb 0 0 (some 0) 0) := by
    have open_ : new.outside = true ∧ new.readTick 0 := by decide
    rw [step,if_pos open_,same]
  have later : (Runs.run step (new.CreateTimerCb 0 0 (some 0) 0) twice).map (starts · 0) =
      some 2 := by decide
  obtain ⟨s,ran,two⟩ := Option.map_eq_some_iff.mp later
  have one := ((promised [] new rfl _ _ rfl stepped twice s ran).1 wide).1
  exact absurd (two ▸ one) (by decide)

theorem once_promised (once : Nat) : Promised once ↔ once = 0 ∨ once % 2^16 ≠ 0 := by
  constructor
  · intro promised
    by_contra neither
    obtain ⟨wide,low⟩ := not_or.mp neither
    exact wide_once_repeats wide (not_not.mp low) promised
  · exact promised_of_low

theorem once_65536_not_promised : ¬ Promised 65536 := wide_once_repeats (by decide) rfl

end TimerMgr

end Pworld.Timing
