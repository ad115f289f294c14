import Mathlib.Data.List.TakeWhile

/-! Words divided by separators: the maximal runs of what is no separator, and how they are
taken from the front one after the other. -/
namespace Pworld.Tokens

universe u
variable {α : Type u} {sep : α → Bool}

/-- The maximal runs of values that are no separators. -/
def runs (sep : α → Bool) (l : List α) : List (List α) :=
  (l.splitOnP sep).filter fun run => !run.isEmpty

/-- The first of them, and what comes after the separator that ends it. -/
def next (sep : α → Bool) (l : List α) : Option (List α × List α) :=
  match l.dropWhile sep with
  | [] => none
  | c::rest => some (c::rest.takeWhile (!sep ·),(rest.dropWhile (!sep ·)).drop 1)

theorem runs_nil : runs sep [] = [] := by
  simp [runs]

theorem runs_sep {a : α} (is_sep : sep a = true) (l : List α) : runs sep (a::l) = runs sep l := by
  simp [runs,List.splitOnP_cons_eq_if_modifyHead,is_sep]

theorem runs_dropWhile (l : List α) : runs sep (l.dropWhile sep) = runs sep l := by
  induction l with
  | nil => rfl
  | cons a l ih =>
    by_cases is_sep : sep a = true
    · rw [List.dropWhile_cons_of_pos is_sep,ih,runs_sep is_sep]
    · rw [List.dropWhile_cons_of_neg is_sep]

theorem runs_word {w : List α} (word : ∀ a ∈ w, sep a = false) (some_ : w ≠ []) :
    runs sep w = [w] := by
  rw [runs,List.splitOnP_eq_singleton word]
  simpa using some_

theorem runs_append {a : α} (is_sep : sep a = true) (l l' : List α) :
    runs sep (l ++ a::l') = runs sep l ++ runs sep l' := by
  rw [runs,List.splitOnP_append_cons l l' is_sep,List.filter_append,runs,runs]

/-- All of them, by taking the first again and again. -/
theorem runs_next (l : List α) : runs sep l =
    match next sep l with
    | none => []
    | some (w,rest) => w::runs sep rest := by
  rw [← runs_dropWhile,next]
  cases front : l.dropWhile sep with
  | nil => exact runs_nil
  | cons c rest =>
    have first : sep c = false := by
      have head := List.head?_dropWhile_not sep l
      rw [front] at head
      simpa using head
    have word : ∀ a ∈ c::rest.takeWhile (!sep ·), sep a = false := by
      intro a member
      rcases List.mem_cons.mp member with rfl | later
      · exact first
      · simpa using List.mem_takeWhile_imp later
    have whole := List.takeWhile_append_dropWhile (p := (!sep ·)) (l := rest)
    show runs sep (c::rest) = (c::rest.takeWhile (!sep ·))::
      runs sep ((rest.dropWhile (!sep ·)).drop 1)
    cases behind : rest.dropWhile (!sep ·) with
    | nil =>
      rw [behind,List.append_nil] at whole
      rw [whole] at word ⊢
      rw [List.drop_nil,runs_nil]
      exact runs_word word (List.cons_ne_nil _ _)
    | cons a more =>
      have is_sep : sep a = true := by
        have head := List.head?_dropWhile_not (!sep ·) rest
        rw [behind] at head
        simpa using head
      rw [behind] at whole
      have split : c::rest = (c::rest.takeWhile (!sep ·)) ++ a::more := by
        rw [List.cons_append,whole]
      rw [congrArg (runs sep) split,runs_append is_sep,runs_word word (List.cons_ne_nil _ _)]
      rfl

theorem mem_of_mem_runs {l w : List α} {a : α} (run : w ∈ runs sep l) (member : a ∈ w) : a ∈ l := by
  have piece : w ∈ l.splitOnP sep := (List.mem_filter.mp run).1
  clear run
  induction l generalizing w with
  | nil =>
    rw [List.splitOnP_nil,List.mem_singleton] at piece
    rwa [piece] at member
  | cons b l ih =>
    rw [List.splitOnP_cons_eq_if_modifyHead] at piece
    split at piece
    · rcases List.mem_cons.mp piece with rfl | later
      · cases member
      · exact List.mem_cons_of_mem b (ih member later)
    · obtain ⟨first,others,split⟩ := List.exists_cons_of_ne_nil (List.splitOnP_ne_nil sep l)
      rw [split] at ih piece
      rcases List.mem_cons.mp piece with rfl | later
      · rcases List.mem_cons.mp member with rfl | inside
        · exact List.mem_cons_self
        · exact List.mem_cons_of_mem b (ih inside List.mem_cons_self)
      · exact List.mem_cons_of_mem b (ih member (List.mem_cons_of_mem _ later))

end Pworld.Tokens
