import Pworld.Support.Ledger
import Mathlib.Data.List.Flatten
import Mathlib.Data.List.Range

/-! Objects that circulate between places. Each place is of a kind; an object is its
number, and numbers are given out in order. What is in the places later was there before
or has been made, and what is gone stays gone; nothing is gone where they are conserved. -/
namespace Pworld

universe u v
variable {κ : Type u}

structure Circulates (next next' : Nat) (before after : List (κ × Nat)) : Prop where
  le : next ≤ next'
  moved : ∃ made gone : List (κ × Nat), (made.map Prod.snd).Nodup ∧
    (∀ x ∈ made, next ≤ x.2 ∧ x.2 < next') ∧ (after ++ gone).Perm (before ++ made)

structure Conserves (next next' : Nat) (before after : List (κ × Nat)) : Prop where
  le : next ≤ next'
  moved : ∃ made : List (κ × Nat), (made.map Prod.snd).Perm (List.range' next (next'-next)) ∧
    after.Perm (before ++ made)

/-- Every object is in one place, and has been made. -/
structure Apart (next : Nat) (held : List (κ × Nat)) : Prop where
  once : (held.map Prod.snd).Nodup
  made : ∀ x ∈ held, x.2 < next

theorem Apart.empty (next : Nat) : Apart next ([] : List (κ × Nat)) :=
  ⟨List.nodup_nil,fun _ member => absurd member List.not_mem_nil⟩

/-- One holder among several, set apart from the others and the rest. -/
theorem perm_holder {a rest : List (κ × Nat)} {α : Type v} {f : α → List (κ × Nat)}
    {hs others : List α} {h : α} (perm : hs.Perm (h::others)) :
    (a ++ hs.flatMap f ++ rest).Perm (a ++ f h ++ (others.flatMap f ++ rest)) := by
  have split := perm.flatMap_right f
  rw [List.flatMap_cons] at split
  rw [← List.append_assoc,List.append_assoc a (f h)]
  exact (split.append_left a).append_right rest

namespace Conserves

variable {next next' next'' : Nat} {a b c d : List (κ × Nat)}

theorem of_perm (perm : b.Perm a) : Conserves next next a b := by
  refine ⟨Nat.le_refl _,[],?_,?_⟩
  · rw [Nat.sub_self]
    exact .refl _
  · rw [List.append_nil]
    exact perm

theorem of_count [DecidableEq κ] (same : ∀ x, b.count x = a.count x) : Conserves next next a b :=
  of_perm (List.perm_iff_count.mpr same)

theorem refl (next : Nat) (a : List (κ × Nat)) : Conserves next next a a := of_perm (.refl a)

theorem of_new (x : κ) (perm : b.Perm ((x,next)::a)) : Conserves next (next+1) a b := by
  refine ⟨Nat.le_succ _,[(x,next)],?_,perm.trans (List.perm_append_singleton _ _).symm⟩
  rw [Nat.add_sub_cancel_left]
  exact .refl _

theorem trans (first : Conserves next next' a b) (second : Conserves next' next'' b c) :
    Conserves next next'' a c := by
  obtain ⟨le,made,all,perm⟩ := first
  obtain ⟨le',made',all',perm'⟩ := second
  refine ⟨Nat.le_trans le le',made ++ made',?_,?_⟩
  · have numbers : List.range' next (next'-next) ++ List.range' next' (next''-next') =
        List.range' next (next''-next) := by
      have sum : next'-next + (next''-next') = next''-next := by omega
      have joined := List.range'_append_1 (s := next) (m := next'-next) (n := next''-next')
      rwa [Nat.add_sub_cancel' le,sum] at joined
    rw [List.map_append,← numbers]
    exact all.append all'
  · rw [← List.append_assoc]
    exact perm'.trans (perm.append_right made')

/-- Whatever else there is stays where it is. -/
theorem frame (rest : List (κ × Nat)) (moves : Conserves next next' a b)
    (before : c.Perm (a ++ rest)) (after : d.Perm (b ++ rest)) : Conserves next next' c d := by
  classical
  obtain ⟨le,made,all,perm⟩ := moves
  refine ⟨le,made,all,?_⟩
  apply List.perm_iff_count.mpr
  intro x
  have count := List.perm_iff_count.mp perm x
  have countBefore := List.perm_iff_count.mp before x
  have countAfter := List.perm_iff_count.mp after x
  simp only [List.count_append] at count countBefore countAfter ⊢
  omega

theorem set {α : Type v} {f : α → List (κ × Nat)} {hs : List α} {i : Nat} {h h' : α}
    (at_ : hs[i]? = some h) (rest : List (κ × Nat))
    (moves : Conserves next next' (a ++ f h) (b ++ f h')) :
    Conserves next next' (a ++ hs.flatMap f ++ rest) (b ++ (hs.set i h').flatMap f ++ rest) := by
  obtain ⟨others,before,after,_⟩ := set_perm at_
  exact moves.frame _ (perm_holder before) (perm_holder (after h'))

theorem circulates (moves : Conserves next next' a b) : Circulates next next' a b := by
  obtain ⟨le,made,all,perm⟩ := moves
  refine ⟨le,made,[],all.nodup_iff.mpr List.nodup_range',?_,?_⟩
  · intro x member
    have number := all.mem_iff.mp (List.mem_map_of_mem member)
    have range := List.mem_range'_1.mp number
    omega
  · rw [List.append_nil]
    exact perm

/-- Where every object made is in a place, it still is. -/
theorem all (moves : Conserves next next' a b) {first : Nat}
    (held : ∀ n, first ≤ n → n < next → n ∈ a.map Prod.snd) :
    ∀ n, first ≤ n → n < next' → n ∈ b.map Prod.snd := by
  obtain ⟨le,made,all,perm⟩ := moves
  intro n low high
  apply (perm.map Prod.snd).mem_iff.mpr
  rw [List.map_append]
  rcases Nat.lt_or_ge n next with old | new
  · exact List.mem_append_left _ (held n low old)
  · apply List.mem_append_right _ (all.mem_iff.mpr (List.mem_range'_1.mpr ⟨new,?_⟩))
    omega

end Conserves

namespace Circulates

variable {next next' next'' : Nat} {a b c d : List (κ × Nat)}

theorem of_gone (gone : List (κ × Nat)) (perm : (b ++ gone).Perm a) : Circulates next next a b :=
  ⟨Nat.le_refl _,[],gone,List.nodup_nil,fun _ member => absurd member List.not_mem_nil,by
    rw [List.append_nil]
    exact perm⟩

theorem trans (first : Circulates next next' a b) (second : Circulates next' next'' b c) :
    Circulates next next'' a c := by
  classical
  obtain ⟨le,made,gone,nodup,range,perm⟩ := first
  obtain ⟨le',made',gone',nodup',range',perm'⟩ := second
  refine ⟨Nat.le_trans le le',made ++ made',gone' ++ gone,?_,?_,?_⟩
  · rw [List.map_append]
    apply List.nodup_append.mpr
    refine ⟨nodup,nodup',?_⟩
    intro n here n' there same
    obtain ⟨x,member,rfl⟩ := List.mem_map.mp here
    obtain ⟨y,member',rfl⟩ := List.mem_map.mp there
    have low := (range x member).2
    have high := (range' y member').1
    omega
  · intro x member
    rcases List.mem_append.mp member with here | there
    · have range := range x here
      omega
    · have range := range' x there
      omega
  · apply List.perm_iff_count.mpr
    intro x
    have count := List.perm_iff_count.mp perm x
    have count' := List.perm_iff_count.mp perm' x
    simp only [List.count_append] at count count' ⊢
    omega

theorem old (moves : Circulates next next' a b) {x : κ × Nat} (member : x ∈ b) :
    x ∈ a ∨ next ≤ x.2 := by
  obtain ⟨_,made,gone,_,range,perm⟩ := moves
  have there := perm.mem_iff.mp (List.mem_append_left gone member)
  exact (List.mem_append.mp there).imp_right fun new => (range x new).1

theorem apart (moves : Circulates next next' a b) (apart : Apart next a) : Apart next' b := by
  obtain ⟨le,made,gone,nodup,range,perm⟩ := moves
  have all : ((a ++ made).map Prod.snd).Nodup := by
    rw [List.map_append]
    apply List.nodup_append.mpr
    refine ⟨apart.once,nodup,?_⟩
    intro n here n' there same
    obtain ⟨x,member,rfl⟩ := List.mem_map.mp here
    obtain ⟨y,member',rfl⟩ := List.mem_map.mp there
    have low := apart.made x member
    have high := (range y member').1
    omega
  constructor
  · have whole := (perm.map Prod.snd).nodup_iff.mpr all
    rw [List.map_append] at whole
    exact (List.nodup_append.mp whole).1
  · intro x member
    have there := perm.mem_iff.mp (List.mem_append_left gone member)
    rcases List.mem_append.mp there with here | new
    · exact Nat.lt_of_lt_of_le (apart.made x here) le
    · exact (range x new).2

/-- No object goes over to another kind of place. -/
theorem kind (moves : Circulates next next' a b) (apart : Apart next a) {x y : κ} {n : Nat}
    (before : (x,n) ∈ a) (after : (y,n) ∈ b) : x = y := by
  rcases moves.old after with same | new
  · exact congrArg Prod.fst (List.inj_on_of_nodup_map apart.once before same rfl)
  · exact absurd (apart.made _ before) (Nat.not_lt.mpr new)

end Circulates

end Pworld
