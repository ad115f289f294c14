import Mathlib.Data.List.Basic

/-! Deterministic machines that answer each request, compared by what they answer. -/
namespace Pworld.Machine

universe u v w x
variable {σ : Type u} {τ : Type v} {ο : Type w} {ρ : Type x}

def final (step : σ → ο → ρ × σ) (s : σ) (os : List ο) : σ :=
  os.foldl (fun s o => (step s o).2) s

def answers (step : σ → ο → ρ × σ) : σ → List ο → List ρ
  | _,[] => []
  | s,o::os => (step s o).1 :: answers step (step s o).2 os

theorem final_append (step : σ → ο → ρ × σ) (s : σ) (xs ys : List ο) :
    final step s (xs ++ ys) = final step (final step s xs) ys :=
  List.foldl_append

theorem answers_append (step : σ → ο → ρ × σ) (s : σ) (xs ys : List ο) :
    answers step s (xs ++ ys) = answers step s xs ++ answers step (final step s xs) ys := by
  induction xs generalizing s with
  | nil => rfl
  | cons o xs ih => rw [List.cons_append,answers,ih]; rfl

theorem answers_length (step : σ → ο → ρ × σ) (s : σ) (os : List ο) :
    (answers step s os).length = os.length := by
  induction os generalizing s with
  | nil => rfl
  | cons o os ih => rw [answers,List.length_cons,ih,List.length_cons]

/-- A simulation: related states give the same answer and stay related. -/
theorem answers_sim {step : σ → ο → ρ × σ} {step' : τ → ο → ρ × τ} (R : σ → τ → Prop)
    (sim : ∀ s t o, R s t → (step s o).1 = (step' t o).1 ∧ R (step s o).2 (step' t o).2)
    {s : σ} {t : τ} (related : R s t) (os : List ο) :
    answers step s os = answers step' t os ∧ R (final step s os) (final step' t os) := by
  induction os generalizing s t with
  | nil => exact ⟨rfl,related⟩
  | cons o os ih =>
    obtain ⟨same,next⟩ := sim s t o related
    obtain ⟨rest,last⟩ := ih next
    exact ⟨by rw [answers,answers,same,rest],last⟩

/-- Rounds of the same requests, with what holds after each of them. -/
theorem final_rounds {step : σ → ο → ρ × σ} (round : List ο) (P : Nat → σ → Prop) {n : Nat}
    (next : ∀ j s, j < n → P j s → P (j+1) (final step s round)) {s : σ} (first : P 0 s) :
    P n (final step s (List.replicate n round).flatten) := by
  induction n with
  | zero => exact first
  | succ n ih =>
    rw [List.replicate_succ',List.flatten_append,final_append,List.flatten_singleton]
    exact next n _ (by omega) (ih fun j s below => next j s (by omega))

end Pworld.Machine
