import Mathlib.Data.List.Basic

/-! Programs over a state that may stop before their end, and leave a state then too. One
way to stop is to have run out of fuel. -/
namespace Pworld

universe u

def Exec (σ ε : Type u) (β : Type u) := σ → Except ε β × σ

namespace Exec

variable {σ ε β γ : Type u}

instance : Monad (Exec σ ε) where
  pure b := fun s => (.ok b,s)
  bind m f := fun s =>
    match m s with
    | (.ok b,t) => f b t
    | (.error e,t) => (.error e,t)

def stop (e : ε) : Exec σ ε β := fun s => (.error e,s)

/-- `while (cond) body` over locals, for at most `n` evaluations of the condition. -/
def loop (pending : ε) (cond : β → Bool) (body : β → Exec σ ε β) : Nat → β → Exec σ ε β
  | 0, _ => stop pending
  | n+1, b => if cond b then body b >>= loop pending cond body n else pure b

section Run

variable {m : Exec σ ε β} {f : β → Exec σ ε γ} {s t : σ} {b : β} {e : ε}

theorem bind_ok (ran : m s = (.ok b,t)) : (m >>= f) s = f b t := by
  simp only [bind,ran]

theorem bind_error (ran : m s = (.error e,t)) : (m >>= f) s = (.error e,t) := by
  simp only [bind,ran]

theorem bind_cases (m : Exec σ ε β) (f : β → Exec σ ε γ) (s : σ) :
    (∃ b t, m s = (.ok b,t) ∧ (m >>= f) s = f b t) ∨
    ∃ e t, m s = (.error e,t) ∧ (m >>= f) s = (.error e,t) := by
  match ran : m s with
  | (.ok b,t) => exact .inl ⟨b,t,rfl,bind_ok ran⟩
  | (.error e,t) => exact .inr ⟨e,t,rfl,bind_error ran⟩

theorem bind_back {c : γ} (ran : (m >>= f) s = (.ok c,t)) :
    ∃ b u, m s = (.ok b,u) ∧ f b u = (.ok c,t) := by
  rcases bind_cases m f s with ⟨b,u,first,rest⟩ | ⟨e,u,_,stopped⟩
  · exact ⟨b,u,first,rest.symm.trans ran⟩
  · rw [stopped] at ran
    cases ran

end Run

section Loop

variable {pending : ε} {cond : β → Bool} {body : β → Exec σ ε β} {b : β} (n : Nat)

theorem loop_leave (done : cond b = false) :
    loop pending cond body (n+1) b = pure b := by
  rw [loop,if_neg (by rw [done]; exact Bool.false_ne_true)]

theorem loop_again (more : cond b = true) :
    loop pending cond body (n+1) b = body b >>= loop pending cond body n := by
  rw [loop,if_pos more]

end Loop

/-- Wherever the program stops, what it leaves is related to what it started from. -/
def Keeps (R : σ → σ → Prop) (m : Exec σ ε β) : Prop := ∀ s, R s (m s).2

section Keeps

variable {R : σ → σ → Prop} (refl : ∀ s, R s s) (trans : ∀ s t u, R s t → R t u → R s u)
include refl

theorem keeps_pure (b : β) : Keeps R (pure b : Exec σ ε β) := refl

theorem keeps_stop (e : ε) : Keeps R (stop e : Exec σ ε β) := refl

omit refl
include trans

theorem keeps_bind {m : Exec σ ε β} {f : β → Exec σ ε γ} (first : Keeps R m)
    (rest : ∀ b, Keeps R (f b)) : Keeps R (m >>= f) := by
  intro s
  have before := first s
  rcases bind_cases m f s with ⟨b,t,ran,same⟩ | ⟨e,t,ran,same⟩
  · rw [ran] at before
    rw [same]
    exact trans s t _ before (rest b t)
  · rw [ran] at before
    rw [same]
    exact before

include refl

theorem keeps_loop {pending : ε} {cond : β → Bool} {body : β → Exec σ ε β}
    (round : ∀ b, Keeps R (body b)) (n : Nat) (b : β) : Keeps R (loop pending cond body n b) := by
  induction n generalizing b with
  | zero => exact keeps_stop refl pending
  | succ n ih =>
    unfold loop
    split
    · exact keeps_bind trans (round b) ih
    · exact keeps_pure refl b

end Keeps

/-- `m'` has more fuel than `m`: where `m` does not run out of it, they do the same. -/
def Fueled (pending : ε) (m m' : Exec σ ε β) : Prop :=
  ∀ s, (m s).1 = .error pending ∨ m' s = m s

namespace Fueled

variable {pending : ε}

theorem refl (m : Exec σ ε β) : Fueled pending m m := fun _ => .inr rfl

theorem bind {m m' : Exec σ ε β} {f f' : β → Exec σ ε γ} (first : Fueled pending m m')
    (rest : ∀ b, Fueled pending (f b) (f' b)) : Fueled pending (m >>= f) (m' >>= f') := by
  intro s
  rcases bind_cases m f s with ⟨b,t,ran,same⟩ | ⟨e,t,ran,same⟩
  · rcases first s with out | more
    · rw [ran] at out
      cases out
    · rw [same,bind_ok (more.trans ran)]
      exact rest b t
  · rw [same]
    rcases first s with out | more
    · rw [ran] at out
      obtain rfl : e = pending := Except.error.inj out
      exact .inl rfl
    · exact .inr (bind_error (more.trans ran))

theorem loop {cond : β → Bool} {body body' : β → Exec σ ε β}
    (round : ∀ b, Fueled pending (body b) (body' b)) {n k : Nat} (le : n ≤ k) (b : β) :
    Fueled pending (loop pending cond body n b) (loop pending cond body' k b) := by
  induction n generalizing b k with
  | zero => exact fun _ => .inl rfl
  | succ n ih =>
    obtain ⟨k,rfl⟩ : ∃ j, k = j+1 := ⟨k-1,by omega⟩
    unfold Exec.loop
    split
    · exact bind (round b) (ih (by omega))
    · exact refl _

end Fueled

end Exec

end Pworld
