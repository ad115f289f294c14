import Mathlib.Data.List.Perm.Basic
import Mathlib.Data.List.Count
import Mathlib.Data.List.Range
import Mathlib.Data.List.Nodup
import Mathlib.Data.List.Forall2

/-! Objects that are made one after the other, are held in one place each while they
live, and are let go once. A log tells what happened to them; what a place says of
an object's past agrees with the part of the log that is about the object. -/
namespace Pworld

universe u v
variable {β : Type u} {ε : Type v}

/-- The part of a log that is about one object. -/
def history (about : ε → Nat) (log : List ε) (n : Nat) : List ε :=
  log.filter fun e => about e = n

section History

variable {about : ε → Nat}

theorem history_append (log es : List ε) (n : Nat) :
    history about (log ++ es) n = history about log n ++ history about es n :=
  List.filter_append ..

theorem history_own {es : List ε} {n : Nat} (own : ∀ e ∈ es, about e = n) :
    history about es n = es :=
  List.filter_eq_self.mpr fun e member => decide_eq_true (own e member)

theorem history_other {es : List ε} {n m : Nat} (own : ∀ e ∈ es, about e = n) (other : m ≠ n) :
    history about es m = [] :=
  List.filter_eq_nil_iff.mpr fun e member => by
    rw [decide_eq_true_eq,own e member]
    exact Ne.symm other

theorem count_history [BEq ε] [LawfulBEq ε] (log : List ε) (e : ε) :
    (history about log (about e)).count e = log.count e :=
  List.count_filter (decide_eq_true rfl)

end History

/-- `held` are the objects that live, wherever they are, `gone` the ones let go. -/
structure Ledger (id : β → Nat) (about : ε → Nat) (Live : β → List ε → Prop)
    (Dead : List ε → Prop) (held : List β) (gone : List Nat) (next : Nat) (log : List ε) : Prop where
  all : (held.map id ++ gone).Perm (List.range next)
  live : ∀ x ∈ held, Live x (history about log (id x))
  dead : ∀ n ∈ gone, Dead (history about log n)
  fresh : ∀ n, next ≤ n → history about log n = []

namespace Ledger

variable {id : β → Nat} {about : ε → Nat} {Live : β → List ε → Prop} {Dead : List ε → Prop}
  {held held' : List β} {gone : List Nat} {next : Nat} {log : List ε} {x y : β}

theorem empty : Ledger id about Live Dead [] [] 0 [] where
  all := .refl []
  live := fun _ member => absurd member List.not_mem_nil
  dead := fun _ member => absurd member List.not_mem_nil
  fresh := fun _ _ => rfl

theorem perm (same : held.Perm held') (ledger : Ledger id about Live Dead held gone next log) :
    Ledger id about Live Dead held' gone next log where
  all := ((same.map id).symm.append_right gone).trans ledger.all
  live := fun x member => ledger.live x (same.mem_iff.mpr member)
  dead := ledger.dead
  fresh := ledger.fresh

theorem nodup (ledger : Ledger id about Live Dead held gone next log) :
    (held.map id ++ gone).Nodup :=
  ledger.all.nodup_iff.mpr List.nodup_range

/-- Each object made is in one place, or let go once. -/
theorem once (ledger : Ledger id about Live Dead held gone next log) {n : Nat} (made : n < next) :
    (held.map id).count n + gone.count n = 1 := by
  have one : (List.range next).count n = 1 :=
    List.count_eq_one_of_mem List.nodup_range (List.mem_range.mpr made)
  rw [← one,← ledger.all.count_eq,List.count_append]

theorem made (ledger : Ledger id about Live Dead held gone next log) (member : x ∈ held) :
    id x < next :=
  List.mem_range.mp (ledger.all.mem_iff.mp (List.mem_append_left _ (List.mem_map_of_mem member)))

theorem apart (ledger : Ledger id about Live Dead (x::held) gone next log) :
    (∀ y ∈ held, id y ≠ id x) ∧ ∀ n ∈ gone, n ≠ id x := by
  have distinct := ledger.nodup
  rw [List.map_cons,List.cons_append,List.nodup_cons] at distinct
  constructor
  · intro y member same
    exact distinct.1 (List.mem_append_left _ (same ▸ List.mem_map_of_mem member))
  · intro n member same
    exact distinct.1 (List.mem_append_right _ (same ▸ member))

theorem make (ledger : Ledger id about Live Dead held gone next log) (es : List ε)
    (own : ∀ e ∈ es, about e = next) (new : id x = next) (live : Live x es) :
    Ledger id about Live Dead (x::held) gone (next+1) (log ++ es) where
  all := by
    rw [List.map_cons,List.cons_append,new,List.range_succ]
    exact (ledger.all.cons next).trans (List.perm_append_singleton next _).symm
  live := by
    intro y member
    rcases List.mem_cons.mp member with rfl | old
    · rw [new,history_append,ledger.fresh next (Nat.le_refl next),history_own own]
      exact live
    · have before := ledger.made old
      rw [history_append,history_other own (by omega),List.append_nil]
      exact ledger.live y old
  dead := by
    intro n member
    have before := List.mem_range.mp (ledger.all.mem_iff.mp (List.mem_append_right _ member))
    rw [history_append,history_other own (by omega),List.append_nil]
    exact ledger.dead n member
  fresh := by
    intro n beyond
    rw [history_append,history_other own (by omega),List.append_nil]
    exact ledger.fresh n (by omega)

/-- Something happens to one object, which may change place. -/
theorem replace (ledger : Ledger id about Live Dead (x::held) gone next log) (es : List ε)
    (own : ∀ e ∈ es, about e = id x) (same : id y = id x)
    (live : Live y (history about log (id x) ++ es)) :
    Ledger id about Live Dead (y::held) gone next (log ++ es) where
  all := by
    rw [List.map_cons,same,← List.map_cons]
    exact ledger.all
  live := by
    intro z member
    rcases List.mem_cons.mp member with rfl | old
    · rw [same,history_append,history_own own]
      exact live
    · rw [history_append,history_other own (ledger.apart.1 z old),List.append_nil]
      exact ledger.live z (List.mem_cons_of_mem _ old)
  dead := by
    intro n member
    rw [history_append,history_other own (ledger.apart.2 n member),List.append_nil]
    exact ledger.dead n member
  fresh := by
    intro n beyond
    have made := ledger.made List.mem_cons_self
    rw [history_append,history_other own (by omega),List.append_nil]
    exact ledger.fresh n beyond

theorem free (ledger : Ledger id about Live Dead (x::held) gone next log) (es : List ε)
    (own : ∀ e ∈ es, about e = id x) (dead : Dead (history about log (id x) ++ es)) :
    Ledger id about Live Dead held (gone ++ [id x]) next (log ++ es) where
  all := by
    refine List.Perm.trans ?_ ledger.all
    rw [List.map_cons,List.cons_append,← List.append_assoc]
    exact List.perm_append_singleton (id x) _
  live := by
    intro y member
    rw [history_append,history_other own (ledger.apart.1 y member),List.append_nil]
    exact ledger.live y (List.mem_cons_of_mem _ member)
  dead := by
    intro n member
    rcases List.mem_append.mp member with old | new
    · rw [history_append,history_other own (ledger.apart.2 n old),List.append_nil]
      exact ledger.dead n old
    · rw [List.mem_singleton.mp new,history_append,history_own own]
      exact dead
  fresh := by
    intro n beyond
    have made := ledger.made List.mem_cons_self
    rw [history_append,history_other own (by omega),List.append_nil]
    exact ledger.fresh n beyond

theorem free_all {xs : List β} (ledger : Ledger id about Live Dead (xs ++ held) gone next log)
    (es : β → List ε) (own : ∀ x, ∀ e ∈ es x, about e = id x)
    (dead : ∀ x ∈ xs, ∀ h, Live x h → Dead (h ++ es x)) :
    Ledger id about Live Dead held (gone ++ xs.map id) next (log ++ xs.flatMap es) := by
  induction xs generalizing gone log with
  | nil => simpa using ledger
  | cons x xs ih =>
    have here := dead x List.mem_cons_self _ (ledger.live x List.mem_cons_self)
    have rest := ih (ledger.free (es x) (own x) here)
      fun y member => dead y (List.mem_cons_of_mem x member)
    rwa [List.append_assoc,List.append_assoc] at rest

end Ledger

/-- Objects of which only the number and the place are kept. -/
def Account (held gone : List Nat) (next : Nat) : Prop :=
  Ledger id (fun _ : Nat => 0) (fun _ _ => True) (fun _ => True) held gone next []

namespace Account

variable {held held' gone : List Nat} {next n : Nat}

theorem empty : Account [] [] 0 := Ledger.empty

theorem perm (same : held.Perm held') (account : Account held gone next) :
    Account held' gone next := Ledger.perm same account

theorem make (account : Account held gone next) : Account (next::held) gone (next+1) :=
  Ledger.make account [] (fun _ member => absurd member List.not_mem_nil) rfl trivial

theorem free_all {ns : List Nat} (account : Account (ns ++ held) gone next) :
    Account held (gone ++ ns) next := by
  have freed := Ledger.free_all account (fun _ => [])
    (fun _ _ member => absurd member List.not_mem_nil) fun _ _ _ _ => trivial
  have silent : ns.flatMap (fun _ => ([] : List Nat)) = [] :=
    List.flatMap_eq_nil_iff.mpr fun _ _ => rfl
  rwa [silent,List.map_id] at freed

theorem once (account : Account held gone next) (made : n < next) :
    held.count n + gone.count n = 1 := by
  have once := Ledger.once account made
  rwa [List.map_id] at once

theorem held_only (account : Account held gone next) (member : n ∈ held) :
    n < next ∧ n ∉ gone := by
  have made : n < next := Ledger.made account member
  refine ⟨made,fun there => ?_⟩
  have here := List.count_pos_iff.mpr member
  have past := List.count_pos_iff.mpr there
  have one := account.once made
  omega

theorem all_gone (account : Account [] gone next) (made : n < next) : n ∈ gone := by
  have one := account.once made
  exact List.count_pos_iff.mp (by simp at one; omega)

end Account

/-- A list with one of its elements taken apart from the rest. -/
theorem set_perm {α : Type u} {as : List α} {i : Nat} {a : α} (at_ : as[i]? = some a) :
    ∃ rest, as.Perm (a::rest) ∧ (∀ b, (as.set i b).Perm (b::rest)) ∧ (as.eraseIdx i).Perm rest := by
  obtain ⟨inside,same⟩ := List.getElem?_eq_some_iff.mp at_
  refine ⟨as.take i ++ as.drop (i+1),?_,fun b => ?_,?_⟩
  · conv => lhs; rw [← List.take_append_drop i as,← List.getElem_cons_drop inside,same]
    exact List.perm_middle
  · rw [List.set_eq_take_append_cons_drop,if_pos inside]
    exact List.perm_middle
  · rw [List.eraseIdx_eq_take_drop_succ]

/-- The objects in the hands of some parties, when one party takes a step. -/
theorem filterMap_set_perm {α : Type u} {γ : Type v} {f : α → Option γ} {as : List α} {i : Nat}
    {a : α} (at_ : as[i]? = some a) : ∃ rest, (as.filterMap f).Perm ((f a).toList ++ rest) ∧
      ∀ b, ((as.set i b).filterMap f).Perm ((f b).toList ++ rest) := by
  have cons (b : α) (bs : List α) : (b::bs).filterMap f = (f b).toList ++ bs.filterMap f := by
    rw [List.filterMap_cons]
    cases f b <;> rfl
  obtain ⟨rest,before,after,_⟩ := set_perm at_
  refine ⟨rest.filterMap f,?_,fun b => ?_⟩
  · rw [← cons]
    exact before.filterMap f
  · rw [← cons]
    exact (after b).filterMap f

/-- Lists related place by place have a related element for each of the other's. -/
theorem forall₂_mem {α : Type u} {γ : Type v} {R : α → γ → Prop} {as : List α} {cs : List γ}
    (rel : List.Forall₂ R as cs) : (∀ a ∈ as, ∃ c ∈ cs, R a c) ∧ ∀ c ∈ cs, ∃ a ∈ as, R a c := by
  induction rel with
  | nil => exact ⟨fun a member => by simp at member,fun c member => by simp at member⟩
  | @cons a c as cs first _ ih =>
    constructor
    · intro a' member
      rcases List.mem_cons.mp member with rfl | rest
      · exact ⟨c,List.mem_cons_self,first⟩
      · obtain ⟨c',there,same⟩ := ih.1 a' rest
        exact ⟨c',List.mem_cons_of_mem _ there,same⟩
    · intro c' member
      rcases List.mem_cons.mp member with rfl | rest
      · exact ⟨a,List.mem_cons_self,first⟩
      · obtain ⟨a',there,same⟩ := ih.2 c' rest
        exact ⟨a',List.mem_cons_of_mem _ there,same⟩

theorem forall₂_set {α : Type u} {R : α → α → Prop} (same : ∀ a, R a a) {as : List α} {i : Nat}
    {a b : α} (at_ : as[i]? = some a) (rel : R a b) : List.Forall₂ R as (as.set i b) := by
  induction as generalizing i with
  | nil => exact .nil
  | cons c as ih =>
    cases i with
    | zero =>
      cases Option.some.inj at_
      exact .cons rel (List.forall₂_same.mpr fun c _ => same c)
    | succ i => exact .cons (same c) (ih at_)

end Pworld
