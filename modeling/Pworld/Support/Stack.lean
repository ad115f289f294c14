import Mathlib.Data.List.Basic

/-! Programs over a stack that others have values on too. The top is the head of the
list, and places are counted from it, from 1 on, as negative indices are. `none` is to go
below the last value, or to be left in a way that is not described. -/
namespace Pworld.Stack


variable {σ α β γ : Type}

abbrev Prog (σ α β : Type) := StateT (σ × List α) Option β

/-- The `n` values on top, the first pushed first, and the two below them. -/
theorem exists_args {n : Nat} {s : List α} (enough : n + 2 ≤ s.length) :
    ∃ (args : List α) (a b : α) (rest : List α), args.length = n ∧
      s = args.reverse ++ a::b::rest := by
  have low : n < s.length := by omega
  have next : n + 1 < s.length := by omega
  refine ⟨(s.take n).reverse,s[n],s[n+1],s.drop (n+2),?_,?_⟩
  · rw [List.length_reverse,List.length_take,Nat.min_eq_left (Nat.le_of_lt low)]
  · rw [List.reverse_reverse,List.getElem_cons_drop,List.getElem_cons_drop,List.take_append_drop]

namespace Prog

@[simp] theorem bind_run (m : Prog σ α β) (f : β → Prog σ α γ) (s : σ × List α) :
    (m >>= f) s = (m s).bind fun r => f r.1 r.2 := rfl

@[simp] theorem pure_run (b : β) (s : σ × List α) :
    (pure b : Prog σ α β) s = some (b,s) := rfl

@[simp] theorem map_run (f : β → γ) (m : Prog σ α β) (s : σ × List α) :
    (f <$> m) s = (m s).bind fun r => some (f r.1,r.2) := rfl

def undefined : Prog σ α β := fun _ => none

def get : Prog σ α σ := fun (h,s) => some (h,(h,s))

def modify (f : σ → σ) : Prog σ α Unit := fun (h,s) => some ((),(f h,s))

def push (a : α) : Prog σ α Unit := fun (h,s) => some ((),(h,a::s))

/-- The first of these is pushed first. -/
def pushAll (as : List α) : Prog σ α Unit := fun (h,s) => some ((),(h,as.reverse ++ s))

def pop (n : Nat) : Prog σ α Unit := fun (h,s) =>
  if n ≤ s.length then some ((),(h,s.drop n)) else none

/-- The values popped, in the order in which they were pushed. -/
def take (n : Nat) : Prog σ α (List α) := fun (h,s) =>
  if n ≤ s.length then some ((s.take n).reverse,(h,s.drop n)) else none

def peek (i : Nat) : Prog σ α α := fun (h,s) => (s[i-1]?).map fun a => (a,(h,s))

def remove (i : Nat) : Prog σ α Unit := fun (h,s) =>
  if i ≤ s.length then some ((),(h,s.eraseIdx (i-1))) else none

/-- The top is popped and takes the place of the value at `i`. -/
def replace (i : Nat) : Prog σ α Unit := fun (h,s) =>
  match s with
  | [] => none
  | a::rest => if i ≤ s.length then some ((),(h,(rest.set (i-2) a))) else none

/-- The value at `i` is changed in its place. -/
def set (i : Nat) (a : α) : Prog σ α Unit := fun (h,s) =>
  if i ≤ s.length then some ((),(h,s.set (i-1) a)) else none

/-- `while (cond) body`, for at most `n` evaluations of the condition. -/
def whileDo (cond : Prog σ α Bool) (body : Prog σ α Unit) : Nat → Prog σ α Unit
  | 0 => undefined
  | n+1 => do
    if ← cond then
      body
      whileDo cond body n
    else pure ()

section Run

variable (h : σ) (s : List α) (a b : α)

@[simp] theorem undefined_run (t : σ × List α) : (undefined : Prog σ α β) t = none := rfl
@[simp] theorem get_run : get (h,s) = some (h,(h,s)) := rfl
@[simp] theorem modify_run (f : σ → σ) : modify f (h,s) = some ((),(f h,s)) := rfl
@[simp] theorem push_run : push a (h,s) = some ((),(h,a::s)) := rfl
@[simp] theorem pushAll_run (as : List α) :
    pushAll as (h,s) = some ((),(h,as.reverse ++ s)) := rfl
@[simp] theorem peek_top : peek 1 (h,a::s) = some (a,(h,a::s)) := rfl
@[simp] theorem peek_second : peek 2 (h,a::b::s) = some (b,(h,a::b::s)) := rfl

theorem peek_append (as : List α) (i : Nat) :
    peek (as.length + (i+1)) (h,as ++ s) = (s[i]?).map fun a => (a,(h,as ++ s)) := by
  have same : (as ++ s)[as.length + i]? = s[i]? := by
    rw [List.getElem?_append_right (Nat.le_add_right _ _),Nat.add_sub_cancel_left]
  simp only [peek,Nat.add_succ_sub_one,same]

@[simp] theorem pop_append (as : List α) : pop as.length (h,as ++ s) = some ((),(h,s)) := by
  simp [pop]

@[simp] theorem pop_one : pop 1 (h,a::s) = some ((),(h,s)) := pop_append h s [a]
@[simp] theorem pop_two : pop 2 (h,a::b::s) = some ((),(h,s)) := pop_append h s [a,b]

@[simp] theorem remove_top : remove 1 (h,a::s) = some ((),(h,s)) := by
  simp [remove]

@[simp] theorem replace_second : replace 2 (h,a::b::s) = some ((),(h,a::s)) := by
  simp [replace]

@[simp] theorem take_one : take 1 (h,a::s) = some ([a],(h,s)) := by
  simp [take]

theorem take_append (as : List α) : take as.length (h,as ++ s) = some (as.reverse,(h,s)) := by
  simp [take]

end Run

/-- Ends with nothing pushed, popped or changed. -/
def Keeps (m : Prog σ α β) (s : σ × List α) : Prop := ∃ b h, m s = some (b,(h,s.2))

theorem keeps_iff {m : Prog σ α β} {s : σ × List α} {b : β} {t : σ × List α}
    (ran : m s = some (b,t)) : m.Keeps s ↔ t.2 = s.2 := by
  constructor
  · rintro ⟨b',h,same⟩
    rw [ran] at same
    cases same
    rfl
  · intro same
    exact ⟨b,t.1,by rw [ran,← same]⟩

theorem not_keeps {m : Prog σ α β} {s : σ × List α} (ran : m s = none) : ¬ m.Keeps s := by
  rintro ⟨b,h,same⟩
  rw [ran] at same
  cases same

/-- Code that is called has its arguments and nothing else on its own stack, of which the
last `n` values are its results. -/
def frame (body : Prog σ α Nat) (args : List α) : Prog σ α (List α) := fun (h,s) =>
  (body (h,args.reverse)).map fun (n,(h,t)) => ((t.take n).reverse,(h,s))

end Prog

end Pworld.Stack
