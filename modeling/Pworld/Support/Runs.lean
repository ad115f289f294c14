import Mathlib.Data.List.Basic

/-! Finite runs of a partial step function: `step s o = none` says that the step
`o` cannot be taken in `s`. An invariant is proved once per step and carried to
every run; a side condition on the steps is stated of the state each one starts
from. -/
namespace Pworld.Runs

universe u v w
variable {σ : Type u} {ο : Type v} (step : σ → ο → Option σ)

def run (s : σ) (os : List ο) : Option σ :=
  os.foldlM step s

/-- Every step of the run meets `ok` in the state it starts from. -/
def Meets (ok : σ → ο → Prop) : σ → List ο → Prop
  | _, [] => True
  | s, o::os => ok s o ∧ ∀ s', step s o = some s' → Meets ok s' os

/-- Every state reached along the run, the first one included, has `P`. -/
def Always (P : σ → Prop) : σ → List ο → Prop
  | s, [] => P s
  | s, o::os => P s ∧ ∀ s', step s o = some s' → Always P s' os

variable {step}

instance decidableMeets {ok : σ → ο → Prop} [∀ s o, Decidable (ok s o)] :
    ∀ (s : σ) (os : List ο), Decidable (Meets step ok s os)
  | _, [] => inferInstanceAs (Decidable True)
  | s, o::os =>
    match stepped : step s o with
    | none => decidable_of_iff (ok s o) (by simp [Meets,stepped])
    | some s' =>
      have : Decidable (Meets step ok s' os) := decidableMeets s' os
      decidable_of_iff (ok s o ∧ Meets step ok s' os) (by simp [Meets,stepped])

theorem run_cons (s : σ) (o : ο) (os : List ο) :
    run step s (o::os) = (step s o).bind fun s' => run step s' os := rfl

theorem run_append (s : σ) (os os' : List ο) :
    run step s (os ++ os') = (run step s os).bind fun s' => run step s' os' :=
  List.foldlM_append

theorem run_cons_some {s t : σ} {o : ο} {os : List ο} (ran : run step s (o::os) = some t) :
    ∃ s', step s o = some s' ∧ run step s' os = some t := by
  rw [run_cons] at ran
  exact Option.bind_eq_some_iff.mp ran

/-- The run rule: what every step that meets `ok` preserves holds at the end. -/
theorem run_inv {ok : σ → ο → Prop} (Inv : σ → Prop)
    (pres : ∀ s o s', Inv s → ok s o → step s o = some s' → Inv s')
    {s t : σ} {os : List ο} (inv : Inv s) (meets : Meets step ok s os)
    (ran : run step s os = some t) : Inv t := by
  induction os generalizing s with
  | nil => cases Option.some.inj ran; exact inv
  | cons o os ih =>
    obtain ⟨s',stepped,rest⟩ := run_cons_some ran
    exact ih (pres s o s' inv meets.1 stepped) (meets.2 s' stepped) rest

theorem run_pres (Inv : σ → Prop) (pres : ∀ s o s', Inv s → step s o = some s' → Inv s')
    {s t : σ} {os : List ο} (inv : Inv s) (ran : run step s os = some t) : Inv t := by
  induction os generalizing s with
  | nil => cases Option.some.inj ran; exact inv
  | cons o os ih =>
    obtain ⟨s',stepped,rest⟩ := run_cons_some ran
    exact ih (pres s o s' inv stepped) rest

theorem Always.head {P : σ → Prop} {s : σ} {os : List ο} (always : Always step P s os) : P s := by
  cases os with
  | nil => exact always
  | cons => exact always.1

theorem Always.last {P : σ → Prop} {s t : σ} {os : List ο} (always : Always step P s os)
    (ran : run step s os = some t) : P t := by
  induction os generalizing s with
  | nil => cases Option.some.inj ran; exact always
  | cons o os ih =>
    obtain ⟨s',stepped,rest⟩ := run_cons_some ran
    exact ih (always.2 s' stepped) rest

/-- What a step gives where the invariant holds, each step of a run gives. -/
theorem meets_of_inv {ok goal : σ → ο → Prop} (Inv : σ → Prop)
    (pres : ∀ s o s', Inv s → ok s o → step s o = some s' → Inv s')
    (gives : ∀ s o, Inv s → ok s o → goal s o) {s : σ} {os : List ο} (inv : Inv s)
    (meets : Meets step ok s os) : Meets step goal s os := by
  induction os generalizing s with
  | nil => trivial
  | cons o os ih =>
    refine ⟨gives s o inv meets.1,fun s' stepped => ?_⟩
    exact ih (pres s o s' inv meets.1 stepped) (meets.2 s' stepped)

theorem meets_of_pres {goal : σ → ο → Prop} (Inv : σ → Prop) (gives : ∀ s o, Inv s → goal s o)
    (pres : ∀ s o s', Inv s → step s o = some s' → Inv s') {s : σ} {os : List ο} (inv : Inv s) :
    Meets step goal s os := by
  induction os generalizing s with
  | nil => trivial
  | cons o os ih =>
    refine ⟨gives s o inv,fun s' stepped => ?_⟩
    exact ih (pres s o s' inv stepped)

/-- What the invariant gives holds throughout. -/
theorem always_of_meets {ok : σ → ο → Prop} (Inv P : σ → Prop) (gives : ∀ s, Inv s → P s)
    (pres : ∀ s o s', Inv s → ok s o → step s o = some s' → Inv s')
    {s : σ} {os : List ο} (inv : Inv s) (meets : Meets step ok s os) : Always step P s os := by
  induction os generalizing s with
  | nil => exact gives s inv
  | cons o os ih =>
    refine ⟨gives s inv,fun s' stepped => ?_⟩
    exact ih (pres s o s' inv meets.1 stepped) (meets.2 s' stepped)

theorem always_of_pres (Inv : σ → Prop) {P : σ → Prop} (gives : ∀ s, Inv s → P s)
    (pres : ∀ s o s', Inv s → step s o = some s' → Inv s') {s : σ} {os : List ο} (inv : Inv s) :
    Always step P s os := by
  induction os generalizing s with
  | nil => exact gives s inv
  | cons o os ih =>
    refine ⟨gives s inv,fun s' stepped => ?_⟩
    exact ih (pres s o s' inv stepped)

/-- A measure that no step raises pays for the steps that lower it. -/
theorem countP_le (Inv : σ → Prop) {os : List ο}
    (pres : ∀ s, ∀ o ∈ os, ∀ s', Inv s → step s o = some s' → Inv s') (own : ο → Bool)
    (measure : σ → Nat) (pays : ∀ s, ∀ o ∈ os, ∀ s', Inv s → step s o = some s' →
      measure s' + (if own o then 1 else 0) ≤ measure s) {s t : σ} (inv : Inv s)
    (ran : run step s os = some t) : os.countP own + measure t ≤ measure s := by
  induction os generalizing s with
  | nil =>
    cases ran
    exact Nat.le_of_eq (Nat.zero_add _)
  | cons o os ih =>
    obtain ⟨s',stepped,rest⟩ := run_cons_some ran
    have first : o ∈ o::os := List.mem_cons_self
    have paid := pays s o first s' inv stepped
    have later := ih (fun s p member => pres s p (List.mem_cons_of_mem o member))
      (fun s p member => pays s p (List.mem_cons_of_mem o member)) (pres s o first s' inv stepped)
      rest
    rw [List.countP_cons]
    omega

/-- A goal that stays is reached once its own steps have paid for the measure. -/
theorem reaches (Inv goal : σ → Prop) (pres : ∀ s o s', Inv s → step s o = some s' → Inv s')
    (stays : ∀ s o s', goal s → step s o = some s' → goal s') (own : ο → Bool)
    (measure : σ → Nat) (pays : ∀ s o s', Inv s → step s o = some s' →
      goal s' ∨ measure s' + (if own o then 1 else 0) ≤ measure s)
    (paid : ∀ s, Inv s → measure s = 0 → goal s) {s t : σ} {os : List ο} (inv : Inv s)
    (ran : run step s os = some t) (enough : measure s ≤ os.countP own) : goal t := by
  induction os generalizing s with
  | nil =>
    cases ran
    exact paid _ inv (Nat.eq_zero_of_le_zero enough)
  | cons o os ih =>
    obtain ⟨s',stepped,rest⟩ := run_cons_some ran
    rcases pays s o s' inv stepped with there | less
    · exact run_pres goal stays there rest
    · rw [List.countP_cons] at enough
      exact ih (pres s o s' inv stepped) rest (by omega)

/-- Two properties that agree wherever the invariant holds are had throughout together. -/
theorem always_congr {P Q : σ → Prop} (Inv : σ → Prop)
    (pres : ∀ s o s', Inv s → step s o = some s' → Inv s') (agree : ∀ s, Inv s → (P s ↔ Q s))
    {s : σ} {os : List ο} (inv : Inv s) : Always step P s os ↔ Always step Q s os := by
  induction os generalizing s with
  | nil => exact agree s inv
  | cons o os ih =>
    refine and_congr (agree s inv) (forall_congr' fun s' => ?_)
    exact forall_congr' fun stepped => ih (pres s o s' inv stepped)

/-- Where one step keeps the invariant exactly under `ok`, a whole run has it
throughout exactly when each of its steps meets `ok`. -/
theorem always_iff_meets {ok : σ → ο → Prop} (Inv : σ → Prop)
    (exact_step : ∀ s o s', Inv s → step s o = some s' → (Inv s' ↔ ok s o))
    {s t : σ} {os : List ο} (inv : Inv s) (ran : run step s os = some t) :
    Always step Inv s os ↔ Meets step ok s os := by
  induction os generalizing s with
  | nil => exact ⟨fun _ => trivial,fun _ => inv⟩
  | cons o os ih =>
    obtain ⟨s',stepped,rest⟩ := run_cons_some ran
    have step_iff := exact_step s o s' inv stepped
    have same (t : σ) (h : step s o = some t) : t = s' := Option.some.inj (h.symm.trans stepped)
    constructor
    · intro always
      have tail := always.2 s' stepped
      refine ⟨step_iff.mp tail.head,fun t h => ?_⟩
      rw [same t h]
      exact (ih tail.head rest).mp tail
    · intro meets
      have inv' := step_iff.mpr meets.1
      refine ⟨inv,fun t h => ?_⟩
      rw [same t h]
      exact (ih inv' rest).mpr (meets.2 s' stepped)

/-- Where a step can be taken with the invariant kept exactly under `ok`, a whole run can
exactly when each of its steps meets `ok`. -/
theorem returns_iff_meets {ok : σ → ο → Prop} (Inv : σ → Prop)
    (exact_step : ∀ s o, Inv s → ((∃ s', step s o = some s' ∧ Inv s') ↔ ok s o))
    {s : σ} {os : List ο} (inv : Inv s) :
    (∃ t, run step s os = some t) ∧ Always step Inv s os ↔ Meets step ok s os := by
  induction os generalizing s with
  | nil => exact ⟨fun _ => trivial,fun _ => ⟨⟨s,rfl⟩,inv⟩⟩
  | cons o os ih =>
    constructor
    · rintro ⟨⟨t,ran⟩,always⟩
      obtain ⟨s',stepped,rest⟩ := run_cons_some ran
      have tail := always.2 s' stepped
      refine ⟨(exact_step s o inv).mp ⟨s',stepped,tail.head⟩,fun s'' stepped' => ?_⟩
      cases Option.some.inj (stepped.symm.trans stepped')
      exact (ih tail.head).mp ⟨⟨t,rest⟩,tail⟩
    · intro meets
      obtain ⟨s',stepped,inv'⟩ := (exact_step s o inv).mpr meets.1
      obtain ⟨⟨t,rest⟩,tail⟩ := (ih inv').mpr (meets.2 s' stepped)
      refine ⟨⟨t,by rw [run_cons,stepped]; exact rest⟩,inv,fun s'' stepped' => ?_⟩
      cases Option.some.inj (stepped.symm.trans stepped')
      exact tail

/-- A step that does not meet `ok` loses `Good` for ever: a run ends with it exactly
when each of its steps meets `ok`. -/
theorem good_iff_meets {ok : σ → ο → Prop} (Inv Good : σ → Prop)
    (good : ∀ s, Inv s → Good s)
    (pres : ∀ s o s', Inv s → ok s o → step s o = some s' → Inv s')
    (back : ∀ s o s', step s o = some s' → Good s' → Good s)
    (lost : ∀ s o s', Inv s → step s o = some s' → Good s' → ok s o)
    {s t : σ} {os : List ο} (inv : Inv s) (ran : run step s os = some t) :
    Good t ↔ Meets step ok s os := by
  constructor
  · intro end_
    induction os generalizing s with
    | nil => trivial
    | cons o os ih =>
      obtain ⟨s',stepped,rest⟩ := run_cons_some ran
      have good' : Good s' := by
        clear ih inv stepped ran
        induction os generalizing s' with
        | nil => cases Option.some.inj rest; exact end_
        | cons o os ih =>
          obtain ⟨s'',stepped,rest⟩ := run_cons_some rest
          exact back _ _ _ stepped (ih s'' rest)
      have met := lost s o s' inv stepped good'
      refine ⟨met,fun s'' stepped' => ?_⟩
      cases Option.some.inj (stepped.symm.trans stepped')
      exact ih (pres s o s' inv met stepped) rest
  · intro meets
    exact good t (run_inv Inv pres inv meets ran)

/-- Where a step that does not meet `ok` leads to something that stays, a run that ends
without it met `ok` throughout. -/
theorem meets_of_not_lost {ok : σ → ο → Prop} (Inv Lost : σ → Prop)
    (pres : ∀ s o s', Inv s → ok s o → step s o = some s' → Inv s')
    (lost : ∀ s o s', Inv s → ¬ ok s o → step s o = some s' → Lost s')
    (stays : ∀ s o s', Lost s → step s o = some s' → Lost s')
    {s t : σ} {os : List ο} (inv : Inv s) (ran : run step s os = some t) (kept : ¬ Lost t) :
    Meets step ok s os := by
  induction os generalizing s with
  | nil => trivial
  | cons o os ih =>
    obtain ⟨s',stepped,rest⟩ := run_cons_some ran
    by_cases met : ok s o
    · refine ⟨met,fun s'' stepped' => ?_⟩
      cases Option.some.inj (stepped.symm.trans stepped')
      exact ih (pres s o s' inv met stepped) rest
    · exact absurd (run_pres Lost stays (lost s o s' inv met stepped) rest) kept

/-- More values at the end of a trace whose ranks do not fall. -/
theorem sorted_append {α : Type w} {rank : α → Nat} {as bs : List α} {a : α}
    (sorted : as.Pairwise fun x y => rank x ≤ rank y) (last : as.getLast? = some a) :
    (as ++ bs).Pairwise (fun x y => rank x ≤ rank y) ↔
      (a::bs).Pairwise fun x y => rank x ≤ rank y := by
  obtain ⟨front,rfl⟩ := List.getLast?_eq_some_iff.mp last
  constructor
  · intro whole
    rw [List.append_assoc] at whole
    exact (List.pairwise_append.mp whole).2.1
  · intro next
    obtain ⟨_,_,below⟩ := List.pairwise_append.mp sorted
    obtain ⟨above,ordered⟩ := List.pairwise_cons.mp next
    refine List.pairwise_append.mpr ⟨sorted,ordered,fun x old y later => ?_⟩
    rcases List.mem_append.mp old with older | self
    · exact Nat.le_trans (below x older a (List.mem_singleton.mpr rfl)) (above y later)
    · rw [List.mem_singleton.mp self]
      exact above y later

theorem sorted_concat {α : Type w} {rank : α → Nat} {as : List α} {a b : α}
    (sorted : as.Pairwise fun x y => rank x ≤ rank y) (last : as.getLast? = some a) :
    (as ++ [b]).Pairwise (fun x y => rank x ≤ rank y) ↔ rank a ≤ rank b :=
  (sorted_append sorted last).trans List.pairwise_pair

end Pworld.Runs
