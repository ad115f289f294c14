import Pworld.Support.Bytes
import Pworld.Support.Loop
import Pworld.Support.Tokens
import Mathlib.Data.List.Basic

/-! `CommandInput::_parse_command` on Linux: the words of a line are copied into slots of one
array, and the first of them selects a command. -/
namespace Pworld.Input

open Tokens

def PARAM_CNT : Nat := 10
def PARAM_LEN : Nat := 16

/-- `argv` is the whole array, row after row. -/
structure cmd_input (F : Type) where
  argc : Nat
  argv : Bytes
  func : Option F
  deriving DecidableEq,Repr

/-- The name is the string in its block. -/
structure cmd_config (F : Type) where
  name : Bytes
  func : F
  plain : 0 ∉ name
  fits : name.length < PARAM_LEN

/-- How `_parse_command` ends: without a `cmd_input`, with one that no command is for, with a
call of the command, or with one more in `m_lstCmdInput`, where it returns true. -/
inductive Parsed (F : Type) where
  | empty
  | unknown (ci : cmd_input F)
  | called (ci : cmd_input F)
  | queued (ci : cmd_input F)

def tolower (c : UInt8) : UInt8 := if 65 ≤ c ∧ c ≤ 90 then c + 32 else c

def strcasecmp : Bytes → Bytes → Int
  | [],[] => 0
  | [],b::_ => -((tolower b).toNat : Int)
  | a::_,[] => (tolower a).toNat
  | a::as,b::bs =>
    if tolower a = tolower b then strcasecmp as bs
    else (tolower a).toNat - ((tolower b).toNat : Int)

-- " \t,.\r\n"
def seps (c : UInt8) : Bool := c ∈ ([32,9,44,46,13,10] : Bytes)

/-- What `strncpy` writes. -/
def padded (n : Nat) (s : Bytes) : Bytes := s.take n ++ List.replicate (n - s.length) 0

/-- The string that begins at an address of the array, unless it leaves it. -/
def stringAt (mem : Bytes) (off : Nat) : Option Bytes :=
  if 0 ∈ mem.drop off then some ((mem.drop off).takeWhile (· ≠ 0)) else none

namespace cmd_input

variable {F : Type}

def new : cmd_input F := ⟨0,List.replicate (PARAM_CNT * PARAM_LEN) 0,none⟩

/-- One round of the loop, in which a word is copied. -/
def put (ci : cmd_input F) (token : Bytes) : cmd_input F :=
  {ci with
    argc := ci.argc + 1
    argv := Bytes.overwrite ci.argv (PARAM_LEN * ci.argc) (padded PARAM_LEN token)}

def slot (ci : cmd_input F) (i : Nat) : Bytes := (ci.argv.drop (PARAM_LEN * i)).take PARAM_LEN

end cmd_input

variable {F : Type}

def tokenBody : cmd_input F × Option (Bytes × Bytes) →
    Option ((cmd_input F × Option (Bytes × Bytes)) ⊕ cmd_input F)
  | (ci,none) => some (.inr ci)
  | (ci,some (token,next_token)) =>
    if ci.argc ≥ PARAM_CNT then some (.inr ci)
    else some (.inl (ci.put token,next seps next_token))

-- "quit", "help" and "list"
def immediate : List Bytes := [[113,117,105,116],[104,101,108,112],[108,105,115,116]]

/-- The line is given without its terminator. Where a string leaves the array it is `none`. -/
def _parse_command (m_vecCmdConfig : List (cmd_config F)) (szCmdLine : Bytes) :
    Option (Parsed F) :=
  if szCmdLine.length = 0 then some .empty
  else
    let szCmdLine := if szCmdLine.getLast? = some 10 then szCmdLine.dropLast else szCmdLine
    if szCmdLine.length = 0 then some .empty
    else do
      let ci ← Loop.iterate tokenBody (PARAM_CNT + 1) (.new,next seps szCmdLine)
      let name ← stringAt ci.argv 0
      match m_vecCmdConfig.find? fun cc => strcasecmp name cc.name = 0 with
      | none => some (.unknown ci)
      | some cc =>
        let ci := {ci with func := some cc.func}
        if immediate.any fun cmd => strcasecmp cmd name = 0 then some (.called ci)
        else some (.queued ci)

/-- The `cmd_input` that was made. -/
def Parsed.input : Parsed F → Option (cmd_input F)
  | .empty => none
  | .unknown ci | .called ci | .queued ci => some ci

def words (line : Bytes) : List Bytes := runs seps line

/-- As many arguments as there are words, each of them a string in its own slot. -/
structure Right (m_vecCmdConfig : List (cmd_config F)) (line : Bytes) (ci : cmd_input F) :
    Prop where
  argc : ci.argc = min PARAM_CNT (words line).length
  argv : ∀ i w, i < ci.argc → (words line)[i]? = some w →
    0 ∈ ci.slot i ∧ (ci.slot i).takeWhile (· ≠ 0) = w.take (PARAM_LEN-1)
  func : ∃ name, stringAt ci.argv 0 = some name ∧
    ci.func = (m_vecCmdConfig.find? fun cc => name.map tolower = cc.name.map tolower).map
      cmd_config.func

/-- What is made of a line is right; nothing is made where there are no words. -/
def Parses (m_vecCmdConfig : List (cmd_config F)) (line : Bytes) : Prop :=
  ∃ parsed, _parse_command m_vecCmdConfig line = some parsed ∧
    (parsed.input = none → words line = []) ∧
    ∀ ci, parsed.input = some ci → Right m_vecCmdConfig line ci

theorem tolower_ne_zero {c : UInt8} (some_ : c ≠ 0) : tolower c ≠ 0 := by
  unfold tolower
  split
  next upper =>
    intro zero
    have value := congrArg UInt8.toNat zero
    have high := UInt8.le_iff_toNat_le.mp upper.2
    rw [UInt8.toNat_add] at value
    simp at value high
    omega
  next => exact some_

theorem strcasecmp_zero {a b : Bytes} (plain : 0 ∉ a) (plain' : 0 ∉ b) :
    strcasecmp a b = 0 ↔ a.map tolower = b.map tolower := by
  induction a generalizing b with
  | nil =>
    cases b with
    | nil => simp [strcasecmp]
    | cons y b =>
      have some_ := tolower_ne_zero (List.ne_of_not_mem_cons plain').symm
      have toNat : (tolower y).toNat ≠ 0 := fun zero => some_ (UInt8.toNat_inj.mp zero)
      simp only [strcasecmp,List.map_nil,List.map_cons]
      simpa using toNat
  | cons x a ih =>
    cases b with
    | nil =>
      have some_ := tolower_ne_zero (List.ne_of_not_mem_cons plain).symm
      have toNat : (tolower x).toNat ≠ 0 := fun zero => some_ (UInt8.toNat_inj.mp zero)
      simp only [strcasecmp,List.map_nil,List.map_cons]
      simpa using toNat
    | cons y b =>
      rw [strcasecmp,List.map_cons,List.map_cons,List.cons.injEq]
      split
      next same =>
        rw [ih (List.not_mem_of_not_mem_cons plain) (List.not_mem_of_not_mem_cons plain')]
        simp [same]
      next other =>
        have apart : (tolower x).toNat ≠ (tolower y).toNat :=
          fun same => other (UInt8.toNat_inj.mp same)
        simp only [other,false_and,iff_false]
        omega

section

variable {n : Nat} {w : Bytes}

theorem padded_length (n : Nat) (s : Bytes) : (padded n s).length = n := by
  rw [padded,List.length_append,List.length_take,List.length_replicate]
  omega

/-- A word that fills its slot is not terminated in it. -/
theorem zero_mem_padded (plain : 0 ∉ w) : 0 ∈ padded n w ↔ w.length < n := by
  rw [padded,List.mem_append,List.mem_replicate]
  have taken : 0 ∉ w.take n := fun member => plain (List.mem_of_mem_take member)
  rw [or_iff_right taken]
  constructor
  · rintro ⟨some_,_⟩
    omega
  · intro short
    exact ⟨by omega,rfl⟩

theorem takeWhile_padded (plain : 0 ∉ w) (short : w.length < n) (rest : Bytes) :
    (padded n w ++ rest).takeWhile (· ≠ 0) = w := by
  have whole : w.take n = w := List.take_of_length_le (Nat.le_of_lt short)
  obtain ⟨k,same⟩ := Nat.exists_eq_add_of_lt short
  have zeros : n - w.length = k + 1 := by omega
  have word : ∀ a ∈ w, decide (a ≠ 0) = true := by
    intro a member
    rw [decide_eq_true_eq]
    rintro rfl
    exact plain member
  rw [padded,whole,zeros,List.append_assoc,List.takeWhile_append_of_pos word,List.replicate_succ,
    List.cons_append]
  simp

end

/-- The array after these words were copied. -/
def filled (ws : List Bytes) : Bytes :=
  ws.flatMap (padded PARAM_LEN) ++ List.replicate (PARAM_LEN * (PARAM_CNT - ws.length)) 0

theorem flatMap_padded_length (ws : List Bytes) :
    (ws.flatMap (padded PARAM_LEN)).length = PARAM_LEN * ws.length := by
  induction ws with
  | nil => rfl
  | cons w ws ih =>
    rw [List.flatMap_cons,List.length_append,padded_length,ih,List.length_cons,Nat.mul_succ,
      Nat.add_comm]

theorem filled_put (ws : List Bytes) (w : Bytes) :
    Bytes.overwrite (filled ws) (PARAM_LEN * ws.length) (padded PARAM_LEN w) =
      filled (ws ++ [w]) := by
  have fewer : PARAM_LEN * (PARAM_CNT - ws.length) - PARAM_LEN =
      PARAM_LEN * (PARAM_CNT - (ws ++ [w]).length) := by
    rw [List.length_append,List.length_singleton,Nat.sub_add_eq,Nat.mul_sub_one]
  rw [Bytes.overwrite,padded_length,← flatMap_padded_length,filled,List.take_left,
    ← List.drop_drop,List.drop_left,List.drop_replicate,fewer,filled,List.flatMap_append,
    List.flatMap_singleton]

theorem filled_drop (ws : List Bytes) {i : Nat} {w : Bytes} (at_ : ws[i]? = some w) :
    ∃ rest, (filled ws).drop (PARAM_LEN * i) = padded PARAM_LEN w ++ rest := by
  obtain ⟨inside,here⟩ := List.getElem?_eq_some_iff.mp at_
  have split : ws = ws.take i ++ w::ws.drop (i+1) := by
    rw [← here,List.getElem_cons_drop,List.take_append_drop]
  have length : (ws.take i).length = i := List.length_take_of_le (Nat.le_of_lt inside)
  have front := flatMap_padded_length (ws.take i)
  rw [length] at front
  rw [filled]
  generalize List.replicate (PARAM_LEN * (PARAM_CNT - ws.length)) (0 : UInt8) = zeros
  rw [split,List.flatMap_append,← front,List.append_assoc,List.drop_left,List.flatMap_cons,
    List.append_assoc]
  exact ⟨_,rfl⟩

/-- These words were copied, and no command is chosen yet. -/
structure Copied (ws : List Bytes) (ci : cmd_input F) : Prop where
  argc : ci.argc = ws.length
  argv : ci.argv = filled ws
  func : ci.func = none

/-- The words from the one in hand on. -/
def following : Option (Bytes × Bytes) → List Bytes
  | none => []
  | some (token,next_token) => token::words next_token

theorem following_next (line : Bytes) : following (next seps line) = words line := by
  rw [words,runs_next]
  cases next seps line <;> rfl

theorem loop_copies (line : Bytes) :
    ∃ ci : cmd_input F, Loop.iterate tokenBody (PARAM_CNT + 1) (.new,next seps line) = some ci ∧
      Copied ((words line).take PARAM_CNT) ci := by
  refine Loop.iterate_total (fun s : cmd_input F × Option (Bytes × Bytes) =>
    ∃ ws, Copied ws s.1 ∧ ws.length ≤ PARAM_CNT ∧ words line = ws ++ following s.2)
    (Copied ((words line).take PARAM_CNT)) (fun s => PARAM_CNT - s.1.argc) ?_ ?_
    (Nat.lt_succ_of_le (Nat.sub_le _ _))
  · rintro ⟨ci,token⟩ ⟨ws,copied,room,all⟩
    cases token with
    | none =>
      refine .inr ⟨ci,rfl,?_⟩
      rw [all]
      simpa [following,List.take_of_length_le room] using copied
    | some token =>
      obtain ⟨token,next_token⟩ := token
      by_cases full : ci.argc ≥ PARAM_CNT
      · refine .inr ⟨ci,if_pos full,?_⟩
        have length : ws.length = PARAM_CNT := Nat.le_antisymm room (copied.argc ▸ full)
        rw [all,List.take_left' length]
        exact copied
      · refine .inl ⟨_,if_neg full,⟨ws ++ [token],⟨?_,?_,copied.func⟩,?_,?_⟩,?_⟩
        · rw [List.length_append,← copied.argc]
          rfl
        · rw [← filled_put,← copied.argc,← copied.argv]
          rfl
        · rw [List.length_append,List.length_singleton]
          rw [copied.argc] at full
          omega
        · rw [all,List.append_assoc,following_next]
          rfl
        · show PARAM_CNT - (ci.argc + 1) < PARAM_CNT - ci.argc
          omega
  · exact ⟨[],⟨rfl,rfl,rfl⟩,Nat.zero_le _,(following_next line).symm⟩

theorem words_newline {line : Bytes} (last : line.getLast? = some 10) :
    words line.dropLast = words line := by
  have split : line.dropLast ++ [10] = line := List.dropLast_append_getLast? 10 last
  rw [words,words,← congrArg (runs seps) split,runs_append rfl,runs_nil,List.append_nil]

theorem slot_copied {ws : List Bytes} {ci : cmd_input F} (copied : Copied ws ci) {i : Nat}
    {w : Bytes} (at_ : ws[i]? = some w) : ci.slot i = padded PARAM_LEN w := by
  obtain ⟨rest,dropped⟩ := filled_drop ws at_
  rw [cmd_input.slot,copied.argv,dropped,List.take_left' (padded_length _ _)]

theorem stringAt_copied {ws : List Bytes} {ci : cmd_input F} (copied : Copied ws ci)
    (plain : ∀ w ∈ ws, 0 ∉ w) (short : ∀ w ∈ ws, w.length < PARAM_LEN) :
    stringAt ci.argv 0 = some (ws.headD []) := by
  rw [stringAt,copied.argv,List.drop_zero]
  cases ws with
  | nil => rfl
  | cons w ws =>
    have at_ : (w::ws)[0]? = some w := rfl
    obtain ⟨rest,dropped⟩ := filled_drop (w::ws) at_
    rw [Nat.mul_zero,List.drop_zero] at dropped
    have zero : 0 ∈ padded PARAM_LEN w :=
      (zero_mem_padded (plain w List.mem_cons_self)).mpr (short w List.mem_cons_self)
    rw [dropped,if_pos (List.mem_append_left _ zero),
      takeWhile_padded (plain w List.mem_cons_self) (short w List.mem_cons_self)]
    rfl

/-- The words that are copied fit into their slots with a terminator. -/
def Short (line : Bytes) : Prop := ∀ w ∈ (words line).take PARAM_CNT, w.length < PARAM_LEN

/-- The line without its newline. -/
def stripped (line : Bytes) : Bytes := if line.getLast? = some 10 then line.dropLast else line

theorem words_stripped (line : Bytes) : words (stripped line) = words line := by
  unfold stripped
  split
  next last => exact words_newline last
  next => rfl

theorem parse_empty (m_vecCmdConfig : List (cmd_config F)) {line : Bytes}
    (empty : stripped line = []) :
    _parse_command m_vecCmdConfig line = some .empty ∧ words line = [] := by
  have none_ : words line = [] := by
    rw [← words_stripped,empty,words,runs_nil]
  refine ⟨?_,none_⟩
  unfold _parse_command
  split
  next => rfl
  next => exact if_pos (congrArg List.length empty)

/-- The commands are gone through with whatever the first argument is read as. -/
theorem parse_copied (m_vecCmdConfig : List (cmd_config F)) {line : Bytes}
    (some_ : stripped line ≠ []) :
    ∃ ci : cmd_input F, Copied ((words line).take PARAM_CNT) ci ∧
      (stringAt ci.argv 0 = none → _parse_command m_vecCmdConfig line = none) ∧
      ∀ name, stringAt ci.argv 0 = some name →
        ∃ parsed, _parse_command m_vecCmdConfig line = some parsed ∧
          parsed.input = some {ci with func :=
            (m_vecCmdConfig.find? fun cc => strcasecmp name cc.name = 0).map cmd_config.func} := by
  obtain ⟨ci,ran,copied⟩ := @loop_copies F (stripped line)
  rw [words_stripped] at copied
  have line_some : line.length ≠ 0 := by
    intro empty
    apply some_
    rw [List.eq_nil_of_length_eq_zero empty]
    rfl
  have length : (stripped line).length ≠ 0 :=
    fun empty => some_ (List.eq_nil_of_length_eq_zero empty)
  have opens : _parse_command m_vecCmdConfig line = (stringAt ci.argv 0).bind fun name =>
      match m_vecCmdConfig.find? fun cc => strcasecmp name cc.name = 0 with
      | none => some (.unknown ci)
      | some cc =>
        if immediate.any fun cmd => strcasecmp cmd name = 0 then
          some (.called {ci with func := some cc.func})
        else some (.queued {ci with func := some cc.func}) := by
    rw [_parse_command,if_neg line_some]
    show (if (stripped line).length = 0 then _ else _) = _
    rw [if_neg length]
    show (Loop.iterate tokenBody (PARAM_CNT + 1)
      (cmd_input.new,next seps (stripped line))).bind _ = _
    rw [ran]
    rfl
  refine ⟨ci,copied,?_,?_⟩
  · intro outside
    rw [opens,outside]
    rfl
  · intro name read
    rw [opens,read,Option.bind_some]
    cases m_vecCmdConfig.find? fun cc => strcasecmp name cc.name = 0 with
    | none =>
      refine ⟨_,rfl,?_⟩
      rw [Option.map_none,← copied.func]
      rfl
    | some cc =>
      dsimp only
      split
      · exact ⟨_,rfl,rfl⟩
      · exact ⟨_,rfl,rfl⟩

section

variable (m_vecCmdConfig : List (cmd_config F)) {line : Bytes} (plain : 0 ∉ line)
include plain

theorem words_plain : ∀ w ∈ (words line).take PARAM_CNT, 0 ∉ w := by
  intro w member zero
  exact plain (mem_of_mem_runs (List.mem_of_mem_take member) zero)

theorem short_of_parses (parses : Parses m_vecCmdConfig line) : Short line := by
  obtain ⟨parsed,ran,_,right⟩ := parses
  by_cases empty : stripped line = []
  · intro w member
    rw [(parse_empty m_vecCmdConfig empty).2] at member
    cases List.mem_of_mem_take member
  · obtain ⟨ci,copied,outside,inside⟩ := parse_copied m_vecCmdConfig empty
    cases read : stringAt ci.argv 0 with
    | none => cases (outside read).symm.trans ran
    | some name =>
      obtain ⟨parsed',ran',input⟩ := inside name read
      cases ran.symm.trans ran'
      intro w member
      obtain ⟨i,at_⟩ := List.mem_iff_getElem?.mp member
      have taken := at_
      rw [List.getElem?_take] at taken
      split at taken
      next =>
        have first : i < ci.argc := by
          rw [copied.argc]
          exact (List.getElem?_eq_some_iff.mp at_).1
        have zero : 0 ∈ ci.slot i := ((right _ input).argv i w first taken).1
        rw [slot_copied copied at_] at zero
        exact (zero_mem_padded (words_plain plain w member)).mp zero
      next => cases taken

theorem parses_of_short (short : Short line) : Parses m_vecCmdConfig line := by
  by_cases empty : stripped line = []
  · obtain ⟨ran,none_⟩ := parse_empty m_vecCmdConfig empty
    refine ⟨_,ran,fun _ => none_,fun ci made => ?_⟩
    cases made
  · obtain ⟨ci,copied,_,inside⟩ := parse_copied m_vecCmdConfig empty
    have read := stringAt_copied copied (words_plain plain) short
    obtain ⟨parsed,ran,input⟩ := inside _ read
    refine ⟨parsed,ran,fun none_ => ?_,fun ci' made => ?_⟩
    · cases none_.symm.trans input
    · cases input.symm.trans made
      refine ⟨?_,?_,_,read,?_⟩
      · exact copied.argc.trans List.length_take
      · intro i w first at_
        have inside : i < ((words line).take PARAM_CNT).length := copied.argc ▸ first
        have taken : ((words line).take PARAM_CNT)[i]? = some w := by
          rw [List.length_take] at inside
          rw [List.getElem?_take,if_pos (Nat.lt_of_lt_of_le inside (Nat.min_le_left _ _)),at_]
        have member := List.mem_of_getElem? taken
        have no_zero := words_plain plain w member
        have slot : cmd_input.slot ci i = padded PARAM_LEN w := slot_copied copied taken
        have string := takeWhile_padded no_zero (short w member) []
        rw [List.append_nil] at string
        show 0 ∈ ci.slot i ∧ (ci.slot i).takeWhile (· ≠ 0) = _
        rw [slot,string,List.take_of_length_le (Nat.le_sub_one_of_lt (short w member))]
        exact ⟨(zero_mem_padded no_zero).mpr (short w member),rfl⟩
      · have no_zero : 0 ∉ ((words line).take PARAM_CNT).headD [] := by
          cases first : (words line).take PARAM_CNT with
          | nil => exact List.not_mem_nil
          | cons w ws => exact words_plain plain w (first ▸ List.mem_cons_self)
        have same (cc : cmd_config F) :
            strcasecmp (((words line).take PARAM_CNT).headD []) cc.name = 0 ↔
              (((words line).take PARAM_CNT).headD []).map tolower = cc.name.map tolower :=
          strcasecmp_zero no_zero cc.plain
        simp only [same]

end

/-- A line is parsed as it should be exactly where none of its first ten words is longer than
15 characters. -/
theorem parse_command_right (m_vecCmdConfig : List (cmd_config F)) (line : Bytes)
    (plain : 0 ∉ line) : Parses m_vecCmdConfig line ↔ Short line :=
  ⟨short_of_parses m_vecCmdConfig plain,parses_of_short m_vecCmdConfig plain⟩

def quit : cmd_config Nat := ⟨[113,117,105,116],0,by decide,by decide⟩

-- " Quit,now\n"
theorem parse_command_right_quit : Parses [quit] [32,81,117,105,116,44,110,111,119,10] :=
  (parse_command_right [quit] _ (by decide)).mpr (by unfold Short; decide +kernel)

/-- Sixteen times the letter a and, after a blank, one b: the first argument has both words. -/
theorem long_word_runs_on : ¬ Parses [quit] (List.replicate 16 97 ++ [32,98]) ∧
    stringAt ((cmd_input.new (F := Nat)).put (List.replicate 16 97) |>.put [98]).argv 0 =
      some (List.replicate 16 97 ++ [98]) := by
  refine ⟨fun parses => ?_,by decide +kernel⟩
  have short := short_of_parses [quit] (by decide) parses
  exact absurd (short (List.replicate 16 97) (by decide +kernel)) (by decide)

end Pworld.Input
