import Mathlib.Data.Int.SuccPred
import Mathlib.Data.List.Count

/-! The Gregorian calendar over all whole numbers of days, and how often one of the
borders that divide the time evenly is crossed. Day 0 is the first of January of the
year 1970, a Thursday. -/
namespace Pworld.Calendar

def leap (y : Int) : Bool := y % 4 = 0 ∧ (y % 100 ≠ 0 ∨ y % 400 = 0)

def yearLength (y : Int) : Nat := if leap y then 366 else 365

/-- The first day of a year. -/
def newYear (y : Int) : Int := 365 * (y-1) + (y-1) / 4 - (y-1) / 100 + (y-1) / 400 - 719162

def monthLengths (leap : Bool) : List Nat :=
  [31,if leap then 29 else 28,31,30,31,30,31,31,30,31,30,31]

/-- The piece that a place is in, and how far in. -/
def locate : List Nat → Nat → Nat × Nat
  | [],d => (0,d)
  | l::ls,d => if d < l then (0,d) else ((locate ls (d-l)).1+1,(locate ls (d-l)).2)

/-- By the four kinds of cycle, the last of which may be a day longer. -/
def year (day : Int) : Int :=
  let n := day + 719162
  let c := min 3 (n % 146097 / 36524)
  let r := n % 146097 - 36524 * c
  400 * (n / 146097) + 100 * c + 4 * (r / 1461) + min 3 (r % 1461 / 365) + 1

/-- The day of the year, from 0 on. -/
def yearDay (day : Int) : Nat := (day - newYear (year day)).toNat

/-- The month and the day of the month, both from 0 on. -/
def monthDay (day : Int) : Nat × Nat := locate (monthLengths (leap (year day))) (yearDay day)

/-- Sunday is 0. -/
def weekDay (day : Int) : Int := (day + 4) % 7

theorem newYear_succ (y : Int) : newYear (y+1) = newYear y + yearLength y := by
  unfold newYear yearLength leap
  split
  next is_leap =>
    simp only [decide_eq_true_eq] at is_leap
    omega
  next common =>
    simp only [decide_eq_true_eq] at common
    omega

theorem yearLength_pos (y : Int) : 0 < yearLength y := by
  unfold yearLength
  split
  · exact Nat.succ_pos _
  · exact Nat.succ_pos _

theorem newYear_mono {y z : Int} (le : y ≤ z) : newYear y ≤ newYear z := by
  have mono : Monotone newYear := by
    apply monotone_int_of_le_succ
    intro y
    rw [newYear_succ]
    omega
  exact mono le

theorem newYear_parts {q c f a : Int} (century : 0 ≤ c ∧ c ≤ 3) (four : 0 ≤ f ∧ f ≤ 24)
    (one : 0 ≤ a ∧ a ≤ 3) : newYear (400 * q + 100 * c + 4 * f + a + 1) =
      146097 * q + 36524 * c + 1461 * f + 365 * a - 719162 := by
  have fours : (400 * q + 100 * c + 4 * f + a) / 4 = 100 * q + 25 * c + f := by omega
  have hundreds : (400 * q + 100 * c + 4 * f + a) / 100 = 4 * q + c := by omega
  have cycles : (400 * q + 100 * c + 4 * f + a) / 400 = q := by omega
  rw [newYear,Int.add_sub_cancel,fours,hundreds,cycles]
  omega

/-- A day lies in its year. -/
theorem year_spec (day : Int) : newYear (year day) ≤ day ∧ day < newYear (year day + 1) := by
  have same : year day = 400 * ((day + 719162) / 146097) +
      100 * min 3 ((day + 719162) % 146097 / 36524) +
      4 * (((day + 719162) % 146097 - 36524 * min 3 ((day + 719162) % 146097 / 36524)) / 1461) +
      min 3 (((day + 719162) % 146097 - 36524 * min 3 ((day + 719162) % 146097 / 36524)) %
        1461 / 365) + 1 := rfl
  have whole : day = 146097 * ((day + 719162) / 146097) + (day + 719162) % 146097 - 719162 := by
    omega
  have cycle : 0 ≤ (day + 719162) % 146097 ∧ (day + 719162) % 146097 < 146097 := by omega
  generalize (day + 719162) / 146097 = q at same whole
  generalize (day + 719162) % 146097 = m at same whole cycle
  have century : 0 ≤ min 3 (m / 36524) ∧ min 3 (m / 36524) ≤ 3 := by omega
  have rest : 0 ≤ m - 36524 * min 3 (m / 36524) ∧ m - 36524 * min 3 (m / 36524) ≤ 36524 ∧
      (m - 36524 * min 3 (m / 36524) = 36524 → min 3 (m / 36524) = 3) := by omega
  have split : m = 36524 * min 3 (m / 36524) + (m - 36524 * min 3 (m / 36524)) := by omega
  generalize min 3 (m / 36524) = c at same century rest split
  generalize m - 36524 * c = r at same rest split
  have four : 0 ≤ r / 1461 ∧ r / 1461 ≤ 24 := by omega
  have one : 0 ≤ min 3 (r % 1461 / 365) ∧ min 3 (r % 1461 / 365) ≤ 3 := by omega
  have parts := newYear_parts (q := q) century four one
  rw [← same] at parts
  refine ⟨by omega,?_⟩
  rw [newYear_succ,parts,yearLength]
  split
  next => omega
  -- only the last day of a leap year is past the 365 days
  next common =>
    simp only [leap,same,decide_eq_true_eq] at common
    omega

/-- What a year is: the last one that has begun. -/
theorem newYear_le (y day : Int) : newYear y ≤ day ↔ y ≤ year day := by
  obtain ⟨begun,ends⟩ := year_spec day
  constructor
  · intro le
    by_contra late
    have before := newYear_mono (show year day + 1 ≤ y by omega)
    omega
  · intro le
    exact (newYear_mono le).trans begun

theorem year_eq {y day : Int} (begun : newYear y ≤ day) (ends : day < newYear (y+1)) :
    year day = y := by
  have low := (newYear_le y day).mp begun
  have high := (newYear_le (y+1) day).not.mp (by omega)
  omega

theorem year_next (day : Int) : year (day+1) = year day ∧ yearDay (day+1) = yearDay day + 1 ∨
    year (day+1) = year day + 1 ∧ yearDay (day+1) = 0 := by
  obtain ⟨begun,ends⟩ := year_spec day
  by_cases last : day + 1 = newYear (year day + 1)
  · have next : year (day+1) = year day + 1 := by
      apply year_eq (by omega)
      rw [last,newYear_succ (year day + 1)]
      have pos := yearLength_pos (year day + 1)
      omega
    refine .inr ⟨next,?_⟩
    rw [yearDay,next,last]
    omega
  · have same : year (day+1) = year day := year_eq (by omega) (by omega)
    refine .inl ⟨same,?_⟩
    rw [yearDay,yearDay,same]
    omega

theorem yearDay_lt (day : Int) : yearDay day < yearLength (year day) := by
  obtain ⟨begun,ends⟩ := year_spec day
  rw [newYear_succ] at ends
  unfold yearDay
  omega

/-- A new year is the day that `yearDay` starts again at. -/
theorem year_changed (day : Int) : year (day+1) ≠ year day ↔ yearDay (day+1) = 0 := by
  rcases year_next day with ⟨same,later⟩ | ⟨next,first⟩
  · rw [same,later]
    simp
  · rw [next,first]
    simp

theorem locate_zero {ls : List Nat} (pos : ∀ l ∈ ls, 0 < l) : locate ls 0 = (0,0) := by
  cases ls with
  | nil => rfl
  | cons l ls => exact if_pos (pos l List.mem_cons_self)

theorem locate_next {ls : List Nat} {d : Nat} (pos : ∀ l ∈ ls, 0 < l) (inside : d + 1 < ls.sum) :
    (locate ls (d+1)).1 ≠ (locate ls d).1 ↔ (locate ls (d+1)).2 = 0 := by
  induction ls generalizing d with
  | nil => exact absurd inside (Nat.not_lt_zero _)
  | cons l ls ih =>
    have pos' : ∀ l ∈ ls, 0 < l := fun l member => pos l (List.mem_cons_of_mem _ member)
    rw [List.sum_cons] at inside
    simp only [locate]
    rcases Nat.lt_trichotomy (d+1) l with before | last | after
    · rw [if_pos before,if_pos (by omega)]
      simp
    · rw [if_neg (by omega),if_pos (by omega),show d + 1 - l = 0 by omega,locate_zero pos']
      simp
    · rw [if_neg (by omega),if_neg (by omega),show d + 1 - l = d - l + 1 by omega]
      simpa using ih pos' (by omega)

theorem monthLengths_pos (leap : Bool) : ∀ l ∈ monthLengths leap, 0 < l := by
  cases leap <;> decide

theorem monthLengths_sum (y : Int) : (monthLengths (leap y)).sum = yearLength y := by
  unfold yearLength
  cases leap y <;> rfl

theorem month_changed (day : Int) :
    (year (day+1),(monthDay (day+1)).1) ≠ (year day,(monthDay day).1) ↔
      (monthDay (day+1)).2 = 0 := by
  have length := yearDay_lt (day+1)
  rw [← monthLengths_sum] at length
  unfold monthDay
  rcases year_next day with ⟨same,later⟩ | ⟨next,first⟩
  · rw [same,later] at length ⊢
    rw [← locate_next (monthLengths_pos _) length]
    simp
  · rw [next,first,locate_zero (monthLengths_pos _)]
    simp

/-- How many times in `(a,b]` a period begins, of those of the length `len` that are counted
from `-shift` on. -/
def borders (len shift a b : Int) : Nat :=
  (List.range (b - a).toNat).countP fun i : Nat => (a + 1 + i + shift) % len = 0

theorem div_next {len : Int} (pos : 0 < len) (t : Int) :
    (t+1) / len = t / len + if (t+1) % len = 0 then 1 else 0 := by
  have last := Int.mul_ediv_add_emod (t+1) len
  have low := Int.emod_nonneg (t+1) pos.ne'
  have high := Int.emod_lt_of_pos (t+1) pos
  split
  next whole =>
    have before : t / len = (t+1) / len - 1 := by
      rw [Int.ediv_eq_iff_of_pos pos,Int.sub_mul,Int.mul_comm]
      omega
    omega
  next inside =>
    have same : t / len = (t+1) / len := by
      rw [Int.ediv_eq_iff_of_pos pos,Int.mul_comm]
      omega
    omega

theorem borders_eq {len : Int} (pos : 0 < len) (shift : Int) {a b : Int} (le : a ≤ b) :
    (borders len shift a b : Int) = (b + shift) / len - (a + shift) / len := by
  induction b, le using Int.leInduction with
  | base => simp [borders]
  | succ b le ih =>
    have more : borders len shift a (b+1) =
        borders len shift a b + if (b + 1 + shift) % len = 0 then 1 else 0 := by
      have longer : (b + 1 - a).toNat = (b - a).toNat + 1 := by omega
      have last : a + 1 + ((b - a).toNat : Int) = b + 1 := by omega
      rw [borders,longer,List.range_succ,List.countP_append,List.countP_singleton,last,borders]
      simp only [decide_eq_true_eq]
    have next := div_next pos (b + shift)
    rw [show b + shift + 1 = b + 1 + shift by omega] at next
    rw [more,next]
    push_cast
    omega

end Pworld.Calendar
