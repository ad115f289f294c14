import Pworld.Script.Neutral

/-! Values under a dotted path. The getters find them where the path is not too long for a
signed 8-bit index and does not end early at a table past the first. -/
namespace Pworld.Script

namespace LuaLib

variable {ω V β : Type} (L : LuaLib ω V)

/-- The value under a path of keys, each but the last that of a table. -/
def under (w : ω) : V → List String → Option V
  | _, [] => none
  | t, [k] => some (L.field w t k)
  | t, d::ds => if L.isTable (L.field w t d) then under w (L.field w t d) ds else none

def valueAt (conv : V → Option β) (zero : β) (w : ω) (t : V) (ds : List String) : Option β :=
  match L.under w t ds with
  | some v => conv v
  | none => some zero

/-- The value under the path is returned, and everything is as it was. -/
def Gets (m : Api ω V β) (conv : V → Option β) (zero : β) (h : Host ω) (t : V) (s : List V)
    (expr : String) : Prop :=
  ∃ b, L.valueAt conv zero h.world t (dirs expr) = some b ∧ m (h,t::s) = some (b,(h,t::s))

/-- The parts of the path that the index reaches, and the last. -/
def reached (expr : String) : List String := entrance expr ++ [(dirs expr).getLastD ""]

/-- The path has a part and stops, if it does, at the first one, and what is under the parts
that are reached has a value, the one under the whole path. -/
structure Straight (conv : V → Option β) (zero : β) (w : ω) (t : V) (expr : String) : Prop where
  parts : dirs expr ≠ []
  stops : (L.walk w t (entrance expr)).2 = true ∨ (L.walk w t (entrance expr)).1 = []
  value : (L.valueAt conv zero w t (reached expr)).isSome
  same : (dirs expr).length ≤ 127 ∨
    L.valueAt conv zero w t (reached expr) = L.valueAt conv zero w t (dirs expr)

theorem reached_eq {expr : String} (parts : dirs expr ≠ []) (short : (dirs expr).length ≤ 127) :
    reached expr = dirs expr := by
  have index : (int8 (dirs expr).length - 1).toNat = (dirs expr).length - 1 := by
    have small : int8 (dirs expr).length = (dirs expr).length := by
      have low : (BitVec.ofNat 8 (dirs expr).length).toNat = (dirs expr).length :=
        Nat.mod_eq_of_lt (by omega)
      rw [int8,BitVec.toInt_eq_toNat_of_lt (by omega),low]
    omega
  rw [reached,entrance,index,← List.dropLast_eq_take,List.getLastD_eq_getLast?,
    List.getLast?_eq_getLast_of_ne_nil parts]
  exact List.dropLast_append_getLast parts

theorem under_concat (w : ω) (t : V) (ds : List String) (k : String) :
    L.under w t (ds ++ [k]) =
      if (L.walk w t ds).2 then some (L.field w ((L.walk w t ds).1.getLastD t) k) else none := by
  induction ds generalizing t with
  | nil => rfl
  | cons d ds ih =>
    have step : L.under w t (d::(ds ++ [k])) =
        if L.isTable (L.field w t d) then L.under w (L.field w t d) (ds ++ [k]) else none := by
      cases ds <;> rfl
    rw [List.cons_append,step]
    by_cases entered : L.isTable (L.field w t d) = true
    · simp only [entered,if_true,ih,walk]
      cases (L.walk w (L.field w t d) ds).1 with
      | nil => rfl
      | cons => rfl
    · simp [entered,walk]

theorem int8_le (n : Nat) : int8 n ≤ n := by
  have low : (BitVec.ofNat 8 n).toNat = n % 256 := BitVec.toNat_ofNat ..
  rw [int8,BitVec.toInt_eq_toNat_cond,low]
  split <;> omega

/-- Of a path that stops at its first part there is nothing under the parts reached, nor
under all of them. -/
theorem under_stopped {w : ω} {t : V} {expr : String}
    (stopped : L.walk w t (entrance expr) = ([],false)) :
    L.under w t (reached expr) = none ∧ L.under w t (dirs expr) = none := by
  constructor
  · rw [reached,under_concat,stopped]
    rfl
  · -- the first part is entered, so another one follows
    have index := int8_le (dirs expr).length
    have inside : entrance expr = (dirs expr).take (int8 (dirs expr).length - 1).toNat := rfl
    rw [inside] at stopped
    cases path : dirs expr with
    | nil => rfl
    | cons d ds =>
      rw [path,List.length_cons] at stopped index
      cases ds with
      | nil =>
        have none : (int8 ([] : List String).length.succ - 1).toNat = 0 := by decide
        rw [none] at stopped
        cases stopped
      | cons e es =>
        cases count : (int8 (e::es).length.succ - 1).toNat with
        | zero =>
          rw [count] at stopped
          cases stopped
        | succ k =>
          rw [count,List.take_succ_cons] at stopped
          by_cases entered : L.isTable (L.field w t d) = true
          · simp [walk,entered] at stopped
          · simp [under,entered]

theorem getDeep_iff (conv : V → Option β) (zero : β) (h : Host ω) (t : V)
    (table : L.isTable t = true) (s : List V) (expr : String) :
    L.Gets (L.getDeep (L.getValue conv) zero expr) conv zero h t s expr ↔
      L.Straight conv zero h.world t expr := by
  by_cases parts : dirs expr = []
  · constructor
    · rintro ⟨b,_,ran⟩
      rw [getDeep,if_pos parts] at ran
      cases ran
    · exact fun straight => absurd parts straight.parts
  · rcases went : L.walk h.world t (entrance expr) with ⟨tables,whole⟩
    have ran := L.getDeep_run table h s conv zero parts went
    have same : (dirs expr).length ≤ 127 →
        L.valueAt conv zero h.world t (reached expr) = L.valueAt conv zero h.world t (dirs expr) :=
      fun short => by rw [reached_eq parts short]
    cases whole with
    | true =>
      have value : L.valueAt conv zero h.world t (reached expr) =
          conv (L.field h.world (tables.getLastD t) ((dirs expr).getLastD "")) := by
        rw [valueAt,reached,under_concat,went]
        rfl
      rw [if_pos rfl,← value] at ran
      constructor
      · rintro ⟨b,found,returned⟩
        obtain ⟨b',reached',equal⟩ := Option.map_eq_some_iff.mp (ran.symm.trans returned)
        cases equal
        exact ⟨parts,Or.inl (by rw [went]),by rw [reached']; rfl,
          Or.inr (reached'.trans found.symm)⟩
      · intro straight
        obtain ⟨b,reached'⟩ := Option.isSome_iff_exists.mp straight.value
        have whole := straight.same.elim same id
        exact ⟨b,whole.symm.trans reached',by rw [ran,reached']; rfl⟩
    | false =>
      rw [if_neg Bool.false_ne_true] at ran
      by_cases first : tables = []
      · subst first
        obtain ⟨short,long⟩ := L.under_stopped went
        have nothing : L.valueAt conv zero h.world t (dirs expr) = some zero := by
          rw [valueAt,long]
        have nothing' : L.valueAt conv zero h.world t (reached expr) = some zero := by
          rw [valueAt,short]
        rw [if_pos rfl] at ran
        apply iff_of_true
        · exact ⟨zero,nothing,ran⟩
        · exact ⟨parts,Or.inr (by rw [went]),by rw [nothing']; rfl,
            Or.inr (nothing'.trans nothing.symm)⟩
      · rw [if_neg first] at ran
        apply iff_of_false
        · rintro ⟨b,_,returned⟩
          rw [ran] at returned
          split at returned
          · -- the stack has lost 255 values
            have stack := congrArg (fun r => r.2.2.length) (Option.some.inj returned)
            simp only [List.length_drop,List.length_cons] at stack
            omega
          · cases returned
        · intro straight
          rcases straight.stops with whole | none
          · rw [went] at whole
            cases whole
          · rw [went] at none
            exact first none

/-- A getter by path returns what is under the path, and leaves all as it was, exactly for
straight paths. -/
theorem dotted_paths (h : Host ω) (t : V) (table : L.isTable t = true) (s : List V)
    (expr : String) :
    (L.Gets (L.GetNumberDeep expr) (fun v => some (L.tonumber v)) 0 h t s expr ↔
      L.Straight (fun v => some (L.tonumber v)) 0 h.world t expr) ∧
    (L.Gets (L.GetStringDeep expr) L.tostring [] h t s expr ↔
      L.Straight L.tostring [] h.world t expr) :=
  ⟨L.getDeep_iff _ 0 h t table s expr,L.getDeep_iff L.tostring [] h t table s expr⟩

end LuaLib

namespace Shipped

open LuaLib (entrance)

/-- The configuration of the repository, after its file was run. -/
def configured : Host Bool := {atStart with world := true}

theorem dotted_paths_configured :
    lib.Gets (lib.GetStringDeep "e.e3.fuck") lib.tostring [] configured (.table "SystemConfig") []
      "e.e3.fuck" := by
  apply (lib.dotted_paths configured (.table "SystemConfig") rfl [] "e.e3.fuck").2.mpr
  exact ⟨by decide,Or.inl (by decide),by decide,Or.inl (by decide)⟩

/-- There is `e`, and nothing is `x` in it. -/
theorem missing_part_unwound_twice :
    ¬ lib.Gets (lib.GetNumberDeep "e.x.y") (fun v => some (lib.tonumber v)) 0 configured
        (.table "SystemConfig") [] "e.x.y" ∧
      ¬ lib.Gets (lib.GetStringDeep "e.x.y") lib.tostring [] configured
        (.table "SystemConfig") [] "e.x.y" := by
  have bent : ¬ ((lib.walk true (.table "SystemConfig") (entrance "e.x.y")).2 = true ∨
      (lib.walk true (.table "SystemConfig") (entrance "e.x.y")).1 = []) := by decide
  constructor
  · intro gets
    exact bent ((lib.getDeep_iff _ 0 configured _ rfl [] "e.x.y").mp gets).stops
  · intro gets
    exact bent ((lib.getDeep_iff lib.tostring [] configured _ rfl [] "e.x.y").mp gets).stops

end Shipped

end Pworld.Script
