import Pworld.Db.Statement
import Mathlib.Data.Nat.Digits.Defs

/-! The rows of a query come as text. `GetInt32` and `GetInt64` read it with `strtoul`, whatever
the sign of the column. -/
namespace Pworld.Db

/-- How wide an `unsigned long` is. -/
inductive Platform where
  | linux
  | windows
  deriving DecidableEq,Repr

def Platform.long : Platform → Nat
  | .linux => 64
  | .windows => 32

def isspace (c : UInt8) : Bool := c = 32 || (9 ≤ c && c ≤ 13)

def isdigit (c : UInt8) : Bool := 48 ≤ c && c ≤ 57

def digit (acc : Nat) (c : UInt8) : Nat := 10 * acc + (c.toNat - 48)

/-- `strtoul` or `strtoull` in base 10, with so many bits. -/
def strtoul (w : Nat) (s : Bytes) : Nat :=
  let s := s.dropWhile isspace
  let minus := s.head? = some 45
  let s := if s.head? = some 45 ∨ s.head? = some 43 then s.tail else s
  let n := (s.takeWhile isdigit).foldl digit 0
  if 2^w ≤ n then 2^w - 1
  else if minus then (2^w - n) % 2^w
  else n

/-- A conversion to a signed type of so many bits. -/
def signed (w : Nat) (n : Nat) : Int := (n : Int).bmod (2^w)

structure MysqlQueryResult where
  rest : List (List Value)  -- what `mysql_fetch_row` has not returned
  _num_fields : Nat
  _row : Option (List Value)
  deriving DecidableEq,Repr

namespace MysqlQueryResult

def NextRow (r : MysqlQueryResult) : Bool × MysqlQueryResult :=
  match r.rest with
  | [] => (false,{r with _row := none})
  | row::rest => (true,{r with rest := rest, _row := some row})

/-- `_row[idx]`, which is `none` where `_row` is null. -/
def cell (r : MysqlQueryResult) (idx : Nat) : Option Value := r._row.bind (·[idx]?)

def getInteger (r : MysqlQueryResult) (idx w bits : Nat) : Option Int :=
  if idx ≥ r._num_fields then some 0
  else (r.cell idx).map fun value => match value with
    | none => 0
    -- the text is followed by a zero
    | some text => signed bits (strtoul w (text ++ [0]))

def GetInt32 (r : MysqlQueryResult) (p : Platform) (idx : Nat) : Option Int :=
  r.getInteger idx p.long 32

def GetInt64 (r : MysqlQueryResult) (idx : Nat) : Option Int := r.getInteger idx 64 64

/-- After so many calls of `NextRow`. -/
def after (r : MysqlQueryResult) : Nat → MysqlQueryResult
  | 0 => r
  | k+1 => (r.after k).NextRow.2

end MysqlQueryResult

/-- The digits of a number, behind zeros where the column is filled with them. -/
def decimal (zeros n : Nat) : Bytes :=
  List.replicate zeros 48 ++
    if n = 0 then [48] else (Nat.digits 10 n).reverse.map fun d => UInt8.ofNat (48 + d)

/-- What the server sends for an integer. -/
def integer (zeros : Nat) (v : Int) : Bytes :=
  (if v < 0 then [45] else []) ++ decimal zeros v.natAbs

/-- A result with these integers in its columns. -/
def query {m n : Nat} (zeros : Nat) (t : Fin m → Fin n → Option Int) : MysqlQueryResult where
  rest := List.ofFn fun k => List.ofFn fun idx => (t k idx).map (integer zeros)
  _num_fields := n
  _row := none

/-- What is read for an integer. -/
def readAs (w bits : Nat) (v : Int) : Int := if 2^w ≤ v.natAbs then -1 else v.bmod (2^bits)

theorem fold_digits (acc : Nat) (ds : List Nat) (small : ∀ d ∈ ds, d < 10) :
    (ds.reverse.map fun d => UInt8.ofNat (48 + d)).foldl digit acc =
      10^ds.length * acc + Nat.ofDigits 10 ds := by
  induction ds with
  | nil => simp [Nat.ofDigits]
  | cons d ds ih =>
    have low := small d List.mem_cons_self
    have value : (UInt8.ofNat (48 + d)).toNat = 48 + d := by
      rw [UInt8.toNat_ofNat']
      omega
    rw [List.reverse_cons,List.map_append,List.foldl_append,
      ih fun e member => small e (List.mem_cons_of_mem d member)]
    simp only [List.map_cons,List.map_nil,List.foldl_cons,List.foldl_nil,digit,value,
      Nat.ofDigits_cons,List.length_cons,Nat.pow_succ]
    rw [Nat.add_sub_cancel_left]
    ring

theorem decimal_value (zeros n : Nat) : (decimal zeros n).foldl digit 0 = n := by
  have front : (List.replicate zeros (48 : UInt8)).foldl digit 0 = 0 := by
    induction zeros with
    | zero => rfl
    | succ zeros ih => exact ih
  rw [decimal,List.foldl_append,front]
  split
  next zero =>
    rw [zero]
    rfl
  next =>
    rw [fold_digits 0 _ fun d member => Nat.digits_lt_base (by decide) member,Nat.ofDigits_digits]
    omega

theorem decimal_digits (zeros n : Nat) : ∀ c ∈ decimal zeros n, isdigit c = true := by
  intro c member
  rcases List.mem_append.mp member with zero | more
  · rw [(List.mem_replicate.mp zero).2]
    rfl
  · split at more
    next => simp only [List.mem_singleton] at more; rw [more]; rfl
    next =>
      obtain ⟨d,there,rfl⟩ := List.mem_map.mp more
      have low := Nat.digits_lt_base (by decide : 1 < 10) (List.mem_reverse.mp there)
      have value : (UInt8.ofNat (48 + d)).toNat = 48 + d := by
        rw [UInt8.toNat_ofNat']
        omega
      simp only [isdigit,Bool.and_eq_true,decide_eq_true_eq,UInt8.le_iff_toNat_le,value]
      exact ⟨Nat.le_add_right 48 d,Nat.add_le_add_left (Nat.le_of_lt_succ low) 48⟩

theorem decimal_cons (zeros n : Nat) :
    ∃ c cs, decimal zeros n = c::cs ∧ isdigit c = true := by
  have digits := decimal_digits zeros n
  cases text : decimal zeros n with
  | nil =>
    exfalso
    unfold decimal at text
    rw [List.append_eq_nil_iff] at text
    split at text
    next => cases text.2
    next other =>
      rw [List.map_eq_nil_iff,List.reverse_eq_nil_iff,Nat.digits_eq_nil_iff_eq_zero] at text
      exact other text.2
  | cons c cs =>
    rw [text] at digits
    exact ⟨c,cs,rfl,digits c List.mem_cons_self⟩

theorem takeWhile_decimal (zeros n : Nat) :
    (decimal zeros n ++ [0]).takeWhile isdigit = decimal zeros n := by
  rw [List.takeWhile_append_of_pos (decimal_digits zeros n)]
  show _ ++ [] = _
  rw [List.append_nil]

theorem digit_plain {c : UInt8} (digit : isdigit c = true) :
    isspace c = false ∧ c ≠ 45 ∧ c ≠ 43 := by
  simp only [isdigit,Bool.and_eq_true,decide_eq_true_eq,UInt8.le_iff_toNat_le] at digit
  have low : 48 ≤ c.toNat := digit.1
  refine ⟨?_,?_,?_⟩
  · simp only [isspace,Bool.or_eq_false_iff,decide_eq_false_iff_not,Bool.and_eq_false_iff,
      UInt8.le_iff_toNat_le]
    refine ⟨fun same => ?_,.inr fun high => ?_⟩
    · rw [same] at low
      exact absurd low (by decide)
    · have high : c.toNat ≤ 13 := high
      omega
  · rintro rfl
    exact absurd low (by decide)
  · rintro rfl
    exact absurd low (by decide)

theorem strtoul_integer (w zeros : Nat) (v : Int) :
    strtoul w (integer zeros v ++ [0]) =
      if 2^w ≤ v.natAbs then 2^w - 1
      else if v < 0 then (2^w - v.natAbs) % 2^w
      else v.natAbs := by
  obtain ⟨c,cs,text,digit⟩ := decimal_cons zeros v.natAbs
  obtain ⟨space,minus,plus⟩ := digit_plain digit
  have value := decimal_value zeros v.natAbs
  have taken := takeWhile_decimal zeros v.natAbs
  by_cases negative : v < 0
  · have front : (integer zeros v ++ [0]).dropWhile isspace = 45::(decimal zeros v.natAbs ++ [0]) := by
      rw [integer,if_pos negative]
      rfl
    unfold strtoul
    simp only [front,List.head?_cons,true_or,if_true,List.tail_cons,taken,value,negative]
  · have front : (integer zeros v ++ [0]).dropWhile isspace = decimal zeros v.natAbs ++ [0] := by
      rw [integer,if_neg negative,List.nil_append,text,List.cons_append,List.dropWhile_cons,space]
      rfl
    have head : (decimal zeros v.natAbs ++ [0]).head? = some c := by rw [text]; rfl
    unfold strtoul
    simp only [front,head,Option.some.injEq,minus,plus,or_false,if_false,taken,value,negative]

theorem bmod_around {w bits : Nat} (wide : bits ≤ w) (v : Int) :
    (v + ((2^w : Nat) : Int)).bmod (2^bits) = v.bmod (2^bits) := by
  have power : (2^w : Nat) = 2^bits * 2^(w - bits) := by
    rw [← Nat.pow_add]
    congr 1
    omega
  rw [power,Int.natCast_mul]
  exact Int.add_mul_bmod_self_left v (2^bits) _

theorem signed_integer {w bits : Nat} (wide : bits ≤ w) (some_ : 1 < bits) (zeros : Nat) (v : Int) :
    signed bits (strtoul w (integer zeros v ++ [0])) = readAs w bits v := by
  have two : 2^2 ≤ 2^bits := Nat.pow_le_pow_right (by decide) some_
  rw [strtoul_integer,signed,readAs]
  split
  next =>
    have last : ((2^w - 1 : Nat) : Int) = -1 + ((2^w : Nat) : Int) := by
      have := Nat.one_le_two_pow (n := w)
      omega
    rw [last,bmod_around wide]
    exact Int.bmod_eq_of_le_mul_two (by omega) (by omega)
  next fits =>
    split
    next negative =>
      have around : (2^w - v.natAbs) % 2^w = 2^w - v.natAbs := Nat.mod_eq_of_lt (by omega)
      have below : ((2^w - v.natAbs : Nat) : Int) = v + ((2^w : Nat) : Int) := by omega
      rw [around,below,bmod_around wide]
    next positive =>
      have same : (v.natAbs : Int) = v := by omega
      rw [same]

/-- An integer of the type is read as it is. -/
theorem readAs_inside {w bits : Nat} (wide : bits ≤ w) {v : Int} (low : -(2^bits : Nat) ≤ v * 2)
    (high : v * 2 < (2^bits : Nat)) : readAs w bits v = v := by
  have power : 2^bits ≤ 2^w := Nat.pow_le_pow_right (by decide) wide
  rw [readAs,if_neg (by omega)]
  exact Int.bmod_eq_of_le_mul_two low high

section

variable {m n : Nat} (zeros : Nat) (t : Fin m → Fin n → Option Int)

theorem after_query (k : Nat) : (query zeros t).after k =
    {(query zeros t) with
      rest := (query zeros t).rest.drop k
      _row := if k = 0 then none else (query zeros t).rest[k-1]?} := by
  induction k with
  | zero => rfl
  | succ k ih =>
    show ((query zeros t).after k).NextRow.2 = _
    rw [ih]
    unfold MysqlQueryResult.NextRow
    cases left : (query zeros t).rest.drop k with
    | nil =>
      have short := List.drop_eq_nil_iff.mp left
      simp only [if_neg (Nat.succ_ne_zero k),Nat.add_sub_cancel,List.getElem?_eq_none short]
      rw [List.drop_of_length_le (Nat.le_succ_of_le short)]
    | cons row rest =>
      have inside : k < (query zeros t).rest.length := by
        by_contra short
        rw [List.drop_of_length_le (Nat.le_of_not_lt short)] at left
        cases left
      rw [List.drop_eq_getElem_cons inside] at left
      cases left
      simp [List.getElem?_eq_getElem inside]

theorem after_row (k : Nat) : ((query zeros t).after k)._row =
    if k = 0 then none else (query zeros t).rest[k-1]? := by
  rw [after_query]

theorem after_fields (k : Nat) : ((query zeros t).after k)._num_fields = n := by
  rw [after_query]
  rfl

theorem getInteger_row (k : Fin m) (idx : Fin n) {w bits : Nat} (wide : bits ≤ w)
    (some_ : 1 < bits) : ((query zeros t).after (k+1)).getInteger idx w bits =
      some (((t k idx).map (readAs w bits)).getD 0) := by
  have row : (query zeros t).rest[k.val]? =
      some (List.ofFn fun idx => (t k idx).map (integer zeros)) := by
    simp [query]
  rw [MysqlQueryResult.getInteger,MysqlQueryResult.cell,after_fields,after_row,
    if_neg (Nat.not_le.mpr idx.isLt),if_neg (Nat.succ_ne_zero _),Nat.add_sub_cancel,row]
  simp only [Option.bind_some,List.getElem?_ofFn,idx.isLt,↓reduceDIte,Option.map_some]
  cases t k idx with
  | none => rfl
  | some v => exact congrArg some (signed_integer wide some_ zeros v)

/-- Without a row there is nothing to be read, and the pointer to it is null. -/
theorem getInteger_outside {j : Nat} (outside : j = 0 ∨ m < j) (idx : Fin n) (w bits : Nat) :
    ((query zeros t).after j).getInteger idx w bits = none := by
  have row : (if j = 0 then none else (query zeros t).rest[j-1]?) = none := by
    rcases outside with rfl | past
    · rfl
    · rw [if_neg (by omega)]
      apply List.getElem?_eq_none
      rw [query,List.length_ofFn]
      omega
  rw [MysqlQueryResult.getInteger,MysqlQueryResult.cell,after_fields,after_row,
    if_neg (Nat.not_le.mpr idx.isLt),row]
  rfl

theorem nextRow_query (j : Nat) : ((query zeros t).after j).NextRow.1 = decide (j < m) := by
  rw [after_query,MysqlQueryResult.NextRow]
  have length : (query zeros t).rest.length = m := List.length_ofFn
  cases left : (query zeros t).rest.drop j with
  | nil =>
    have short := List.drop_eq_nil_iff.mp left
    rw [length] at short
    exact (decide_eq_false (Nat.not_lt.mpr short)).symm
  | cons =>
    have inside : j < m := by
      by_contra short
      rw [List.drop_of_length_le (by omega)] at left
      cases left
    exact (decide_eq_true inside).symm

end

/-- Each row once, in order. An integer column is read as it is where it is of the type, and
around the range of the type where it is not, up to the range of the text function. A getter
called without a row goes through a null pointer. -/
theorem query_integers (p : Platform) (zeros : Nat) {m n : Nat} (t : Fin m → Fin n → Option Int)
    (idx : Fin n) :
    (∀ j, ((query zeros t).after j).NextRow.1 = decide (j < m)) ∧
    (∀ k : Fin m, ((query zeros t).after (k+1)).GetInt32 p idx =
        some (((t k idx).map (readAs p.long 32)).getD 0) ∧
      ((query zeros t).after (k+1)).GetInt64 idx =
        some (((t k idx).map (readAs 64 64)).getD 0)) ∧
    (∀ (k : Fin m) (v : Int), t k idx = some v →
      (-2^31 ≤ v → v < 2^31 → ((query zeros t).after (k+1)).GetInt32 p idx = some v) ∧
      (-2^63 ≤ v → v < 2^63 → ((query zeros t).after (k+1)).GetInt64 idx = some v)) ∧
    ∀ j, j = 0 ∨ m < j → ((query zeros t).after j).GetInt32 p idx = none ∧
      ((query zeros t).after j).GetInt64 idx = none := by
  have long : 32 ≤ p.long := by cases p <;> decide
  have int32 (k : Fin m) : ((query zeros t).after (k+1)).GetInt32 p idx =
      some (((t k idx).map (readAs p.long 32)).getD 0) :=
    getInteger_row zeros t k idx long (by decide)
  have int64 (k : Fin m) : ((query zeros t).after (k+1)).GetInt64 idx =
      some (((t k idx).map (readAs 64 64)).getD 0) :=
    getInteger_row zeros t k idx (Nat.le_refl 64) (by decide)
  refine ⟨nextRow_query zeros t,fun k => ⟨int32 k,int64 k⟩,fun k v at_ => ⟨?_,?_⟩,?_⟩
  · intro low high
    rw [int32,at_,Option.map_some,Option.getD_some,readAs_inside long (by omega) (by omega)]
  · intro low high
    rw [int64,at_,Option.map_some,Option.getD_some,
      readAs_inside (Nat.le_refl 64) (by omega) (by omega)]
  · exact fun j outside => ⟨getInteger_outside zeros t outside idx _ _,
      getInteger_outside zeros t outside idx _ _⟩

end Pworld.Db
