import Pworld.Input.CommandInput
import Pworld.Support.Runs

/-! The console: one thread reads lines and parses them, another runs the commands that were
queued, and a mutex keeps the two off the list. -/
namespace Pworld.Input

/-- The members that `CommandInput` adds itself, and those of its subclass. -/
inductive Func where
  | OnQuit
  | OnHelp
  | OnList
  | other (address : Nat)
  deriving DecidableEq,Repr

def cmd_quit : Bytes := [113,117,105,116]
def cmd_help : Bytes := [104,101,108,112]
def cmd_list : Bytes := [108,105,115,116]
def cmd_ask : Bytes := [63]

/-- What the constructor of `CommandInput` adds. -/
def general : List (cmd_config Func) :=
  [⟨cmd_quit,.OnQuit,by decide,by decide⟩,⟨cmd_help,.OnHelp,by decide,by decide⟩,
    ⟨cmd_list,.OnList,by decide,by decide⟩,⟨cmd_ask,.OnList,by decide,by decide⟩]

/-- `m_vecCmdConfig`, with what the constructor of the subclass has added. -/
def table (added : List (cmd_config Nat)) : List (cmd_config Func) :=
  general ++ added.map fun cc => ⟨cc.name,.other cc.func,cc.plain,cc.fits⟩

def CMD_MAX_CHAR : Nat := 128

/-- At the end of the input the buffer is left as it is, which is all zeros. -/
def fgets (n : Nat) (stdin : Bytes) : Bytes × Bytes :=
  let size := min (n-1) ((stdin.takeWhile (· ≠ 10)).length + 1)
  (stdin.take size,stdin.drop size)

/-- What `_parse_command` makes of the buffer. -/
def outcome (added : List (cmd_config Nat)) (szBuff : Bytes) : Option (Parsed Func) :=
  _parse_command (table added) (szBuff.takeWhile (· ≠ 0))

structure Console where
  m_bRunning : Bool
  m_lstCmdInput : List (cmd_input Func)
  updating : Option Nat  -- `Update` has the mutex, and has run so many
  stdin : Bytes
  lines : List Bytes  -- what was read into `szBuff`
  called : List (cmd_input Func)  -- by the thread that reads
  ran : List (cmd_input Func)  -- by `Update`
  deriving DecidableEq

inductive ConsoleOp where
  | read
  | lock
  | exec
  | unlock
  deriving DecidableEq,Repr

namespace Console

-- `Run` has set `m_bRunning`
def start (stdin : Bytes) : Console := ⟨true,[],none,stdin,[],[],[]⟩

def step (added : List (cmd_config Nat)) (s : Console) : ConsoleOp → Option Console
  | .read =>
    if s.m_bRunning then
      let (szBuff,stdin) := fgets CMD_MAX_CHAR s.stdin
      let s := {s with stdin := stdin, lines := s.lines ++ [szBuff]}
      match outcome added szBuff with
      | none => none
      | some .empty => some s
      | some (.unknown _) => some s
      | some (.called ci) => some {s with
          called := s.called ++ [ci]
          m_bRunning := s.m_bRunning && ci.func != some .OnQuit}
      -- waits for the mutex
      | some (.queued ci) =>
        if s.updating.isNone then some {s with m_lstCmdInput := s.m_lstCmdInput ++ [ci]} else none
    else none
  | .lock => if s.updating.isNone then some {s with updating := some 0} else none
  | .exec =>
    match s.updating with
    | none => none
    | some i => (s.m_lstCmdInput[i]?).map fun ci => {s with
        updating := some (i+1)
        ran := s.ran ++ [ci]
        m_bRunning := s.m_bRunning && ci.func != some .OnQuit}
  | .unlock =>
    if s.updating = some s.m_lstCmdInput.length then
      some {s with updating := none, m_lstCmdInput := []}
    else none

end Console

def calls (added : List (cmd_config Nat)) (szBuff : Bytes) : List (cmd_input Func) :=
  match outcome added szBuff with
  | some (.called ci) => [ci]
  | _ => []

def queues (added : List (cmd_config Nat)) (szBuff : Bytes) : List (cmd_input Func) :=
  match outcome added szBuff with
  | some (.queued ci) => [ci]
  | _ => []

def quits (added : List (cmd_config Nat)) (szBuff : Bytes) : Bool :=
  (calls added szBuff).any fun ci => ci.func == some .OnQuit

/-- The first `n` buffers that are read from an input, and what is left of it. -/
def chop (input : Bytes) : Nat → List Bytes × Bytes
  | 0 => ([],input)
  | n+1 =>
    let (lines,rest) := chop input n
    (lines ++ [(fgets CMD_MAX_CHAR rest).1],(fgets CMD_MAX_CHAR rest).2)

/-- The buffer after so many have been read. -/
def piece (input : Bytes) (k : Nat) : Bytes := (fgets CMD_MAX_CHAR (chop input k).2).1

/-- Every command of the lines read is run once, in the order of the lines, or waits in the list;
those that are called do not wait. The last line read stops the console, or none does. -/
structure Orderly (added : List (cmd_config Nat)) (input : Bytes) (s : Console) : Prop where
  read : (s.lines,s.stdin) = chop input s.lines.length
  called : s.called = s.lines.flatMap (calls added)
  queued : s.ran ++ s.m_lstCmdInput.drop (s.updating.getD 0) = s.lines.flatMap (queues added)
  stops : s.m_bRunning = false ↔ ∃ szBuff, s.lines.getLast? = some szBuff ∧ quits added szBuff
  goes_on : ∀ szBuff ∈ s.lines.dropLast, ¬ quits added szBuff

/-- One round of the loop of `Run`, with what is left of the input. -/
def runBody (added : List (cmd_config Nat)) (stdin : Bytes) : Option (Bytes ⊕ Bytes) :=
  let (szBuff,stdin) := fgets CMD_MAX_CHAR stdin
  (outcome added szBuff).map fun _ =>
    if quits added szBuff then .inr stdin else .inl stdin

/-- A command that is queued was found, and is none of those that are called. -/
theorem parse_queued {F : Type} {m_vecCmdConfig : List (cmd_config F)} {line : Bytes}
    {ci : cmd_input F} (queued : _parse_command m_vecCmdConfig line = some (.queued ci)) :
    ∃ name cc, 0 ∉ name ∧
      m_vecCmdConfig.find? (fun cc => strcasecmp name cc.name = 0) = some cc ∧
      ci.func = some cc.func ∧ (immediate.any fun cmd => strcasecmp cmd name = 0) = false := by
  unfold _parse_command at queued
  split at queued
  next => cases queued
  next =>
    dsimp only at queued
    generalize (if line.getLast? = some 10 then line.dropLast else line) = line at queued
    split at queued
    next => cases queued
    next =>
      obtain ⟨made,_,queued⟩ := Option.bind_eq_some_iff.mp queued
      obtain ⟨name,read,queued⟩ := Option.bind_eq_some_iff.mp queued
      split at queued
      next => cases queued
      next cc found =>
        split at queued
        next => cases queued
        next other =>
          cases queued
          refine ⟨name,cc,?_,found,rfl,eq_false_of_ne_true other⟩
          unfold stringAt at read
          split at read
          next =>
            cases read
            intro zero
            simpa using List.mem_takeWhile_imp zero
          next => cases read

/-- The command that stops the console is not queued. -/
theorem queues_onQuit {added : List (cmd_config Nat)} {szBuff : Bytes} {ci : cmd_input Func}
    (queued : ci ∈ queues added szBuff) : ci.func ≠ some .OnQuit := by
  unfold queues at queued
  split at queued
  next parsed =>
    cases List.mem_singleton.mp queued
    obtain ⟨name,cc,plain,found,func,other⟩ := parse_queued parsed
    intro onQuit
    rw [func] at onQuit
    have member := List.mem_of_find?_eq_some found
    have same := List.find?_some found
    have first : cc.name = cmd_quit := by
      have onQuit := Option.some.inj onQuit
      rcases List.mem_append.mp member with own | more
      · simp only [general,List.mem_cons,List.not_mem_nil,or_false] at own
        rcases own with rfl | rfl | rfl | rfl
        · rfl
        · cases onQuit
        · cases onQuit
        · cases onQuit
      · obtain ⟨from_,_,rfl⟩ := List.mem_map.mp more
        cases onQuit
    rw [decide_eq_true_eq,first,strcasecmp_zero plain (by decide)] at same
    have none_ := List.any_eq_false.mp other cmd_quit List.mem_cons_self
    rw [decide_eq_true_eq,strcasecmp_zero (by decide) plain] at none_
    exact none_ same.symm
  next => cases queued

theorem chop_left (input : Bytes) (n : Nat) : (chop input n).2.length ≤ input.length - n := by
  induction n with
  | zero => exact Nat.le_refl _
  | succ n ih =>
    show ((chop input n).2.drop _).length ≤ _
    rw [List.length_drop,CMD_MAX_CHAR]
    omega

theorem quits_ne_nil {added : List (cmd_config Nat)} {szBuff : Bytes}
    (quit : quits added szBuff = true) : szBuff ≠ [] := by
  rintro rfl
  cases quit

/-- A line that is read adds to what was called or to what waits. -/
theorem read_cases {added : List (cmd_config Nat)} {s s' : Console}
    (stepped : Console.step added s .read = some s') :
    s.m_bRunning = true ∧ ∃ szBuff, szBuff = (fgets CMD_MAX_CHAR s.stdin).1 ∧
      s'.stdin = (fgets CMD_MAX_CHAR s.stdin).2 ∧ s'.lines = s.lines ++ [szBuff] ∧
      s'.called = s.called ++ calls added szBuff ∧ s'.ran = s.ran ∧
      s'.m_lstCmdInput = s.m_lstCmdInput ++ queues added szBuff ∧ s'.updating = s.updating ∧
      (queues added szBuff ≠ [] → s.updating = none) ∧
      s'.m_bRunning = !quits added szBuff := by
  simp only [Console.step] at stepped
  split at stepped
  next running =>
    refine ⟨running,_,rfl,?_⟩
    generalize fgets CMD_MAX_CHAR s.stdin = got at stepped ⊢
    obtain ⟨szBuff,stdin⟩ := got
    unfold quits calls queues
    split at stepped
    next => cases stepped
    next parsed =>
      cases stepped
      simp [parsed,running]
    next parsed =>
      cases stepped
      simp [parsed,running]
    next parsed =>
      cases stepped
      simp [parsed,running,bne]
    next parsed =>
      split at stepped
      next free =>
        cases stepped
        simp [parsed,running,Option.isNone_iff_eq_none.mp free]
      next => cases stepped
  next => cases stepped

theorem orderly_step (added : List (cmd_config Nat)) (input : Bytes) (s : Console)
    (op : ConsoleOp) (s' : Console) (orderly : Orderly added input s)
    (stepped : Console.step added s op = some s') : Orderly added input s' := by
  obtain ⟨read,called,queued,stops,goes_on⟩ := orderly
  cases op with
  | read =>
    obtain ⟨running,szBuff,got,stdin,lines,called',ran,list,updating,free,running'⟩ :=
      read_cases stepped
    have left := congrArg Prod.snd read
    have front := congrArg Prod.fst read
    dsimp only at left front
    refine ⟨?_,?_,?_,?_,?_⟩
    · rw [lines,stdin,List.length_append,List.length_singleton,chop]
      dsimp only
      rw [← left,← front,got]
    · rw [called',called,lines,List.flatMap_append,List.flatMap_singleton]
    · rw [ran,list,updating,lines,List.flatMap_append,List.flatMap_singleton,← queued]
      by_cases none_ : queues added szBuff = []
      · rw [none_,List.append_nil,List.append_nil]
      · rw [free none_,Option.getD_none,List.drop_zero,List.drop_zero,List.append_assoc]
    · rw [running',lines,List.getLast?_concat]
      simp
    · rw [lines,List.dropLast_concat]
      intro old member quit
      rcases List.eq_nil_or_concat s.lines with none_ | ⟨front,last,split⟩
      · rw [none_] at member
        cases member
      · rw [List.concat_eq_append] at split
        rw [split] at member goes_on stops
        rcases List.mem_append.mp member with earlier | self
        · exact goes_on old (by rwa [List.dropLast_concat]) quit
        · cases List.mem_singleton.mp self
          have stopped := stops.mpr ⟨_,List.getLast?_concat,quit⟩
          rw [running] at stopped
          cases stopped
  | lock =>
    simp only [Console.step] at stepped
    split at stepped
    next free =>
      cases stepped
      rw [Option.isNone_iff_eq_none.mp free] at queued
      exact ⟨read,called,queued,stops,goes_on⟩
    next => cases stepped
  | exec =>
    simp only [Console.step] at stepped
    split at stepped
    next => cases stepped
    next i at_ =>
      obtain ⟨ci,here,rfl⟩ := Option.map_eq_some_iff.mp stepped
      obtain ⟨inside,here⟩ := List.getElem?_eq_some_iff.mp here
      rw [at_,Option.getD_some,← List.getElem_cons_drop inside,here] at queued
      have other : ci.func ≠ some .OnQuit := by
        have member : ci ∈ s.lines.flatMap (queues added) := by
          rw [← queued]
          exact List.mem_append_right _ List.mem_cons_self
        obtain ⟨szBuff,_,from_⟩ := List.mem_flatMap.mp member
        exact queues_onQuit from_
      refine ⟨read,called,?_,?_,goes_on⟩
      · rw [← queued]
        simp
      · rw [← stops]
        simp [other]
  | unlock =>
    simp only [Console.step] at stepped
    split at stepped
    next at_ =>
      cases stepped
      rw [at_,Option.getD_some,List.drop_length] at queued
      exact ⟨read,called,queued,stops,goes_on⟩
    next => cases stepped

/-- In whatever order the two threads take turns. -/
theorem console_orderly (added : List (cmd_config Nat)) (input : Bytes) (ops : List ConsoleOp) :
    Runs.Always (Console.step added) (Orderly added input) (.start input) ops :=
  Runs.always_of_pres (Orderly added input) (fun _ orderly => orderly)
    (orderly_step added input) ⟨rfl,rfl,rfl,by simp [Console.start],by simp [Console.start]⟩

theorem runBody_chop (added : List (cmd_config Nat)) (input : Bytes) (k : Nat) :
    runBody added (chop input k).2 = (outcome added (piece input k)).map fun _ =>
      if quits added (piece input k) then .inr (chop input (k+1)).2
      else .inl (chop input (k+1)).2 := rfl

/-- `Run` returns exactly where a line quits, and the lines before it are parsed. It does not
return at the end of the input. -/
theorem run_returns_iff (added : List (cmd_config Nat)) (input : Bytes) :
    (∃ n stdin, Loop.iterate (runBody added) n input = some stdin) ↔
      ∃ k < input.length, quits added (piece input k) ∧
        ∀ j < k, (outcome added (piece input j)).isSome := by
  constructor
  · rintro ⟨n,stdin,returned⟩
    refine Loop.iterate_partial (fun stdin => ∃ k, stdin = (chop input k).2 ∧
      ∀ j < k, (outcome added (piece input j)).isSome) (fun _ => ∃ k < input.length,
      quits added (piece input k) ∧ ∀ j < k, (outcome added (piece input j)).isSome) ?_ ?_
      ⟨0,rfl,fun j before => absurd before (Nat.not_lt_zero j)⟩ returned
    · rintro _ stdin' ⟨k,rfl,parsed⟩ again
      rw [runBody_chop] at again
      obtain ⟨what,made,left⟩ := Option.map_eq_some_iff.mp again
      split at left
      next => cases left
      next =>
        refine ⟨k+1,(Sum.inl.inj left).symm,fun j before => ?_⟩
        rcases Nat.lt_succ_iff_lt_or_eq.mp before with earlier | rfl
        · exact parsed j earlier
        · exact Option.isSome_of_eq_some made
    · rintro _ stdin' ⟨k,rfl,parsed⟩ returned
      rw [runBody_chop] at returned
      obtain ⟨what,made,left⟩ := Option.map_eq_some_iff.mp returned
      split at left
      next quit =>
        refine ⟨k,?_,quit,parsed⟩
        have some_ : (chop input k).2 ≠ [] := by
          intro empty
          apply quits_ne_nil quit
          rw [piece,empty]
          rfl
        have := List.length_pos_iff.mpr some_
        have := chop_left input k
        omega
      next => cases left
  · rintro ⟨k,_,quit,parsed⟩
    have from_ (m : Nat) : m ≤ k → ∃ n stdin,
        Loop.iterate (runBody added) n (chop input (k-m)).2 = some stdin := by
      induction m with
      | zero =>
        intro _
        rw [Nat.sub_zero]
        have made : (outcome added (piece input k)).isSome := by
          unfold quits calls at quit
          split at quit
          next parsed => exact Option.isSome_of_eq_some parsed
          next => cases quit
        obtain ⟨what,made⟩ := Option.isSome_iff_exists.mp made
        refine ⟨1,(chop input (k+1)).2,Loop.iterate_leave 0 ?_⟩
        rw [runBody_chop,made,Option.map_some,if_pos quit]
      | succ m ih =>
        intro le
        obtain ⟨n,stdin,returned⟩ := ih (by omega)
        obtain ⟨what,made⟩ := Option.isSome_iff_exists.mp (parsed (k-(m+1)) (by omega))
        have next_ : k - (m+1) + 1 = k - m := by omega
        by_cases quit : quits added (piece input (k-(m+1)))
        · refine ⟨1,(chop input (k-(m+1)+1)).2,Loop.iterate_leave 0 ?_⟩
          rw [runBody_chop,made,Option.map_some,if_pos quit]
        · refine ⟨n+1,stdin,?_⟩
          have again : runBody added (chop input (k-(m+1))).2 =
              some (.inl (chop input (k-m)).2) := by
            rw [runBody_chop,made,Option.map_some,if_neg quit,next_]
          rwa [Loop.iterate_again n again]
    have := from_ k (Nat.le_refl k)
    rwa [Nat.sub_self] at this

end Pworld.Input
