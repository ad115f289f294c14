import Mathlib.Data.Sum.Basic

/-! Loops of imperative code as bounded iteration of a body. A body goes on with
a new state, leaves with a result, or does not return; `none` from `iterate`
means that the rounds given did not suffice. -/
namespace Pworld.Loop

universe u v
variable {σ : Type u} {ρ : Type v}

def iterate (body : σ → Option (σ ⊕ ρ)) : Nat → σ → Option ρ
  | 0, _ => none
  | n+1, s =>
    match body s with
    | none => none
    | some (.inl s') => iterate body n s'
    | some (.inr r) => some r

def whileDo (cond : σ → Bool) (f : σ → σ) : Nat → σ → Option σ :=
  iterate fun s => some (if cond s then .inl (f s) else .inr s)

theorem iterate_leave {body : σ → Option (σ ⊕ ρ)} {s : σ} {r : ρ} (n : Nat)
    (left : body s = some (.inr r)) : iterate body (n+1) s = some r := by
  simp [iterate,left]

theorem iterate_again {body : σ → Option (σ ⊕ ρ)} {s s' : σ} (n : Nat)
    (again : body s = some (.inl s')) : iterate body (n+1) s = iterate body n s' := by
  simp [iterate,again]

/-- The total-correctness rule: an invariant, a measure that each further round
lowers, and a postcondition of leaving. -/
theorem iterate_total {body : σ → Option (σ ⊕ ρ)} (Inv : σ → Prop) (Post : ρ → Prop)
    (size : σ → Nat)
    (round : ∀ s, Inv s →
      (∃ s', body s = some (.inl s') ∧ Inv s' ∧ size s' < size s) ∨
      ∃ r, body s = some (.inr r) ∧ Post r)
    {n : Nat} {s : σ} (inv : Inv s) (enough : size s < n) :
    ∃ r, iterate body n s = some r ∧ Post r := by
  induction n generalizing s with
  | zero => omega
  | succ n ih =>
    rcases round s inv with ⟨s',again,inv',smaller⟩ | ⟨r,left,post⟩
    · rw [iterate_again n again]
      exact ih inv' (by omega)
    · exact ⟨r,iterate_leave n left,post⟩

theorem iterate_partial {body : σ → Option (σ ⊕ ρ)} (Inv : σ → Prop) (Post : ρ → Prop)
    (again : ∀ s s', Inv s → body s = some (.inl s') → Inv s')
    (left : ∀ s r, Inv s → body s = some (.inr r) → Post r)
    {n : Nat} {s : σ} {r : ρ} (inv : Inv s) (done : iterate body n s = some r) : Post r := by
  induction n generalizing s with
  | zero => simp [iterate] at done
  | succ n ih =>
    cases first : body s with
    | none => simp [iterate,first] at done
    | some o =>
      cases o with
      | inl s' =>
        rw [iterate_again n first] at done
        exact ih (again s s' inv first) done
      | inr r' =>
        rw [iterate_leave n first] at done
        cases Option.some.inj done
        exact left s r inv first

/-- Fuel that suffices for each of a list, then for all of them at once. -/
theorem enough_for_all {α : Type u} {P : Nat → α → Prop} {xs : List α}
    (each : ∀ x ∈ xs, ∃ n, ∀ m, n ≤ m → P m x) : ∃ n, ∀ m, n ≤ m → ∀ x ∈ xs, P m x := by
  induction xs with
  | nil => exact ⟨0,fun _ _ _ member => absurd member List.not_mem_nil⟩
  | cons x xs ih =>
    obtain ⟨n,first⟩ := each x List.mem_cons_self
    obtain ⟨n',rest⟩ := ih fun y member => each y (List.mem_cons_of_mem x member)
    refine ⟨max n n',fun m le y member => ?_⟩
    rcases List.mem_cons.mp member with rfl | later
    · exact first m (Nat.le_trans (Nat.le_max_left _ _) le)
    · exact rest m (Nat.le_trans (Nat.le_max_right _ _) le) y later

end Pworld.Loop
