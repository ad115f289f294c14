import Pworld.Script.LuaEngine

/-! `LuaReader` on the shared stack, and `LoadSystemConfig`, which reads with it. -/
namespace Pworld.Script.LuaLib

open Stack

variable {ω V : Type} (L : LuaLib ω V)

/-- The table is at `i` and the key on top. -/
def lua_rawget (i : Nat) : Api ω V Unit := do
  let t ← Prog.peek i
  match ← Prog.take 1 with
  | [k] =>
    if L.isTable t then Prog.push (L.rawget (← Prog.get).world t k)
    else Prog.undefined
  | _ => Prog.undefined

def DoFile [DecidableEq V] (filename : String) : Api ω V Bool := do
  let ret ← if ← load (L.loadfile · filename) then pure true else L.lua_pcall 0 none none
  if ret then
    error (.doFile (L.tostring (← Prog.peek 1)))
    Prog.pop 1
    pure false
  else pure true

def EnterTable (key : String) : Api ω V Bool := do
  Prog.push (L.pushstring key)
  L.lua_rawget 2
  if !L.isTable (← Prog.peek 1) then
    Prog.pop 1
    pure false
  else pure true

def EnterGlobalTable : Api ω V Bool := do
  Prog.push L.globals
  pure true

def LeaveTable : Api ω V Unit := Prog.pop 1

/-- The getters differ in what they make of the value; `none` is not described. -/
def getValue {β : Type} (conv : V → Option β) (key : String) : Api ω V β := do
  Prog.push (L.pushstring key)
  L.lua_rawget 2
  match conv (← Prog.peek 1) with
  | none => Prog.undefined
  | some ret =>
    Prog.pop 1
    pure ret

def GetNumber (key : String) : Api ω V (BitVec 64) := L.getValue (fun v => some (L.tonumber v)) key
def GetBoolean (key : String) : Api ω V Bool := L.getValue (fun v => some (L.toboolean v)) key
def GetInteger (key : String) : Api ω V Int := L.getValue (fun v => some (L.tointeger v)) key

-- `std::string` of a null pointer
def GetString (key : String) : Api ω V Bytes := L.getValue L.tostring key

/-- `strtok_s` with "." -/
def dirs (expr : String) : List String :=
  ((expr.toList.splitOn '.').filter (· ≠ [])).map String.ofList

def int8 (n : Nat) : Int := (BitVec.ofNat 8 n).toInt

/-- Stops at the first that is no table. `cnt` is a `uint8`. -/
def enterTables : List String → Nat → Api ω V (Bool × Nat)
  | [], cnt => pure (true,cnt)
  | d::ds, cnt => do
    if ← L.EnterTable d then enterTables ds ((cnt+1) % 256)
    else pure (false,cnt)

/-- `while (cnt--) LeaveTable();` leaves `cnt` at 255. -/
def leaveTables : Nat → Api ω V Nat
  | 0 => pure 255
  | cnt+1 => do
    LeaveTable
    leaveTables cnt

def GetStringDeep (expr : String) : Api ω V Bytes := do
  let dirs := dirs expr
  if dirs = [] then Prog.undefined
  else
    let (enter,cnt) ← L.enterTables (dirs.take (int8 dirs.length - 1).toNat) 0
    let (ret,cnt) ←
      if enter then do
        let ret ← L.GetString (dirs.getLastD "")
        pure (ret,cnt)
      else if cnt ≠ 0 then do
        let cnt ← leaveTables cnt
        pure ([],cnt)
      else pure ([],cnt)
    let _ ← leaveTables cnt
    pure ret

/-- What both of the getters by path do, for what they get and what they begin with. -/
def getDeep {β : Type} (get : String → Api ω V β) (zero : β) (expr : String) : Api ω V β := do
  let dirs := dirs expr
  if dirs = [] then Prog.undefined
  else
    let (enter,cnt) ← L.enterTables (dirs.take (int8 dirs.length - 1).toNat) 0
    let (ret,cnt) ←
      if enter then do
        let ret ← get (dirs.getLastD "")
        pure (ret,cnt)
      else if cnt ≠ 0 then do
        let cnt ← leaveTables cnt
        pure (zero,cnt)
      else pure (zero,cnt)
    let _ ← leaveTables cnt
    pure ret

def GetNumberDeep (expr : String) : Api ω V (BitVec 64) := L.getDeep L.GetNumber 0 expr

theorem GetStringDeep_eq (expr : String) : L.GetStringDeep expr = L.getDeep L.GetString [] expr :=
  rfl

def uint16 (n : Int) : Nat := (n % 2^16).toNat

def setString (key : String) (set : SystemConfig → Bytes → SystemConfig) : Api ω V Unit := do
  let str ← L.GetString key
  Prog.modify fun h => {h with config := set h.config str}

def setPort (key : String) (set : SystemConfig → Nat → SystemConfig) : Api ω V Unit := do
  let n ← L.GetInteger key
  Prog.modify fun h => {h with config := set h.config (uint16 n)}

def readTests : Api ω V Unit := do
  let _ ← L.GetInteger "a"
  let _ ← L.GetBoolean "b"
  let _ ← L.GetString "c"
  let _ ← L.GetNumber "d"

def readAddresses : Api ω V Unit := do
  L.setString "listen_ip" fun sc str => {sc with listen_ip := str}
  L.setPort "listen_pt" fun sc n => {sc with listen_pt := n}
  L.setString "connect_ip" fun sc str => {sc with connect_ip := str}
  L.setPort "connect_pt" fun sc n => {sc with connect_pt := n}

def readDb : Api ω V Unit := do
  L.setString "host" fun sc str => {sc with db_host := str}
  L.setString "user" fun sc str => {sc with db_user := str}
  L.setString "pwd" fun sc str => {sc with db_pwd := str}
  L.setString "name" fun sc str => {sc with db_name := str}
  L.setPort "port" fun sc n => {sc with db_port := n}
  L.setString "chat_set" fun sc str => {sc with db_chat_set := str}

def enterTests : Api ω V Unit := do
  if ← L.EnterTable "SystemConfig" then
    L.readTests
    let _ ← L.GetStringDeep "e.e3.fuck"
    LeaveTable

def enterDb : Api ω V Unit := do
  if ← L.EnterTable "db" then
    L.readDb
    LeaveTable

-- this table is not left
def enterConfig : Api ω V Unit := do
  if ← L.EnterTable "SystemConfig" then
    L.readAddresses
    L.enterDb

def fromGlobals (body : Api ω V Unit) : Api ω V Unit := do
  if ← L.EnterGlobalTable then
    body
    LeaveTable

def LoadSystemConfig [DecidableEq V] : Api ω V Unit := do
  if !(← L.DoFile "./world/system_config.lua") then error .loadConfig
  else
    L.fromGlobals L.enterTests
    L.fromGlobals L.enterConfig

def field (w : ω) (t : V) (key : String) : V := L.rawget w t (L.pushstring key)

section Top

variable {t : V} (table : L.isTable t = true) (h : Host ω) (s : List V)
include table

theorem rawget_run (key : String) :
    L.lua_rawget 2 (h,L.pushstring key::t::s) =
      some ((),(h,L.field h.world t key::t::s)) := by
  simp [lua_rawget,table,field]

theorem getValue_run {β : Type} (conv : V → Option β) (key : String) :
    L.getValue conv key (h,t::s) =
      (conv (L.field h.world t key)).map fun ret => (ret,(h,t::s)) := by
  simp only [getValue,Prog.bind_run,Prog.push_run,Option.bind_some,L.rawget_run table,
    Prog.peek_top]
  cases conv (L.field h.world t key) with
  | none => rfl
  | some ret => rfl

theorem EnterTable_run (key : String) :
    L.EnterTable key (h,t::s) = some (L.isTable (L.field h.world t key),
      (h,if L.isTable (L.field h.world t key) then L.field h.world t key::t::s else t::s)) := by
  simp only [EnterTable,Prog.bind_run,Prog.push_run,Option.bind_some,L.rawget_run table,
    Prog.peek_top]
  by_cases entered : L.isTable (L.field h.world t key) = true
  · simp [entered]
  · simp [entered]

end Top

/-- `m` reads from the table `t` on top, which it leaves there with the world as it was,
exactly if `P` holds. -/
def Reads {β : Type} (m : Api ω V β) (w : ω) (t : V) (P : Prop) : Prop :=
  ∀ h s, h.world = w →
    (P ∧ ∃ b h', h'.world = w ∧ m (h,t::s) = some (b,(h',t::s))) ∨ ¬ P ∧ m (h,t::s) = none

section Reads

variable {β γ : Type} {w : ω} {t : V} {P Q : Prop}

theorem Reads.congr {m : Api ω V β} (reads : Reads m w t P) (iff : P ↔ Q) : Reads m w t Q := by
  intro h s world
  rw [← iff]
  exact reads h s world

theorem Reads.bind {m : Api ω V β} {f : β → Api ω V γ} (first : Reads m w t P)
    (second : ∀ b, Reads (f b) w t Q) : Reads (m >>= f) w t (P ∧ Q) := by
  intro h s world
  rw [Prog.bind_run]
  rcases first h s world with ⟨holds,b,h',world',ran⟩ | ⟨fails,ran⟩
  · rw [ran,Option.bind_some]
    rcases second b h' s world' with ⟨holds',c,h'',world'',ran'⟩ | ⟨fails',ran'⟩
    · exact .inl ⟨⟨holds,holds'⟩,c,h'',world'',ran'⟩
    · exact .inr ⟨fun both => fails' both.2,ran'⟩
  · exact .inr ⟨fun both => fails both.1,by rw [ran]; rfl⟩

theorem Reads.modify {f : Host ω → Host ω} (same : ∀ h, (f h).world = h.world) :
    Reads (Prog.modify f : Api ω V Unit) w t True := fun h _ world =>
  .inl ⟨trivial,(),f h,(same h).trans world,rfl⟩

theorem Reads.pure (b : β) : Reads (Pure.pure b : Api ω V β) w t True := fun h _ world =>
  .inl ⟨trivial,b,h,world,rfl⟩

theorem getValue_reads (table : L.isTable t = true) (conv : V → Option β) (key : String) :
    Reads (L.getValue conv key) w t ((conv (L.field w t key)).isSome = true) := by
  rintro h s rfl
  rw [L.getValue_run table]
  cases conv (L.field h.world t key) with
  | none => exact .inr ⟨Bool.false_ne_true,rfl⟩
  | some b => exact .inl ⟨rfl,b,h,rfl,rfl⟩

/-- A string or a number, from which `std::string` is made. -/
def Text (w : ω) (t : V) (key : String) : Prop := (L.tostring (L.field w t key)).isSome = true

theorem setString_reads (table : L.isTable t = true) (key : String)
    (set : SystemConfig → Bytes → SystemConfig) :
    Reads (L.setString key set) w t (L.Text w t key) :=
  Reads.congr ((L.getValue_reads table L.tostring key).bind fun str =>
    .modify (f := fun h => {h with config := set h.config str}) fun _ => rfl)
    (and_iff_left trivial)

theorem setPort_reads (table : L.isTable t = true) (key : String)
    (set : SystemConfig → Nat → SystemConfig) : Reads (L.setPort key set) w t True :=
  Reads.congr ((L.getValue_reads table (fun v => some (L.tointeger v)) key).bind fun n =>
    .modify (f := fun h => {h with config := set h.config (uint16 n)}) fun _ => rfl)
    (iff_of_true ⟨rfl,trivial⟩ trivial)

theorem readTests_reads (table : L.isTable t = true) : Reads L.readTests w t (L.Text w t "c") := by
  have reads := ((L.getValue_reads (w := w) table (fun v => some (L.tointeger v)) "a").bind
    fun _ => (L.getValue_reads table (fun v => some (L.toboolean v)) "b").bind
    fun _ => (L.getValue_reads table L.tostring "c").bind
    fun _ => (L.getValue_reads table (fun v => some (L.tonumber v)) "d").bind
    fun _ => Reads.pure ())
  apply Reads.congr reads
  simp [Text]

theorem readAddresses_reads (table : L.isTable t = true) :
    Reads L.readAddresses w t (L.Text w t "listen_ip" ∧ L.Text w t "connect_ip") := by
  have reads := ((L.setString_reads (w := w) table "listen_ip"
      fun sc str => {sc with listen_ip := str}).bind
    fun _ => (L.setPort_reads table "listen_pt" fun sc n => {sc with listen_pt := n}).bind
    fun _ => (L.setString_reads table "connect_ip" fun sc str => {sc with connect_ip := str}).bind
    fun _ => L.setPort_reads table "connect_pt" fun sc n => {sc with connect_pt := n})
  apply Reads.congr reads
  rw [true_and,and_true]

def DbTexts (w : ω) (t : V) : Prop :=
  ∀ key ∈ ["host","user","pwd","name","chat_set"], L.Text w t key

theorem readDb_reads (table : L.isTable t = true) : Reads L.readDb w t (L.DbTexts w t) := by
  have reads := ((L.setString_reads (w := w) table "host"
      fun sc str => {sc with db_host := str}).bind
    fun _ => (L.setString_reads table "user" fun sc str => {sc with db_user := str}).bind
    fun _ => (L.setString_reads table "pwd" fun sc str => {sc with db_pwd := str}).bind
    fun _ => (L.setString_reads table "name" fun sc str => {sc with db_name := str}).bind
    fun _ => (L.setPort_reads table "port" fun sc n => {sc with db_port := n}).bind
    fun _ => L.setString_reads table "chat_set" fun sc str => {sc with db_chat_set := str})
  apply Reads.congr reads
  simp [DbTexts]

/-- A table that is entered is left again. -/
theorem enterDb_reads (table : L.isTable t = true) :
    Reads L.enterDb w t
      (L.isTable (L.field w t "db") = true → L.DbTexts w (L.field w t "db")) := by
  rintro h s rfl
  unfold enterDb
  rw [Prog.bind_run,L.EnterTable_run table,Option.bind_some]
  by_cases entered : L.isTable (L.field h.world t "db") = true
  · simp only [entered,if_true,Prog.bind_run,forall_const]
    rcases L.readDb_reads entered h (t::s) rfl with ⟨holds,b,h',world,ran⟩ | ⟨fails,ran⟩
    · exact .inl ⟨holds,(),h',world,by rw [ran,Option.bind_some]; exact Prog.pop_one _ _ _⟩
    · exact .inr ⟨fails,by rw [ran]; rfl⟩
  · refine .inl ⟨fun entered' => absurd entered' entered,(),h,rfl,?_⟩
    simp only [entered]
    rfl

end Reads

/-- The tables that a path goes through, and whether all its parts are tables. -/
def walk (w : ω) : V → List String → List V × Bool
  | _, [] => ([],true)
  | t, d::ds =>
    let v := L.field w t d
    if L.isTable v then (v::(walk w v ds).1,(walk w v ds).2) else ([],false)

section Deep

variable {t : V} (table : L.isTable t = true) (h : Host ω) (s : List V)

include table in
theorem enterTables_run (ds : List String) {cnt : Nat} (small : cnt + ds.length < 256) :
    L.enterTables ds cnt (h,t::s) =
      some (((L.walk h.world t ds).2,cnt + (L.walk h.world t ds).1.length),
        (h,(L.walk h.world t ds).1.reverse ++ t::s)) := by
  induction ds generalizing t s cnt with
  | nil => rfl
  | cons d ds ih =>
    rw [List.length_cons] at small
    rw [enterTables,Prog.bind_run,L.EnterTable_run table,Option.bind_some]
    by_cases entered : L.isTable (L.field h.world t d) = true
    · have next : (cnt+1) % 256 = cnt + 1 := Nat.mod_eq_of_lt (by omega)
      simp only [entered,if_true,next]
      rw [ih entered (t::s) (by omega)]
      simp only [walk,entered,if_true,List.length_cons,List.reverse_cons,List.append_assoc,
        List.singleton_append,Nat.add_assoc,Nat.add_comm 1]
    · simp [entered,walk]

include table in
theorem walk_top (w : ω) (ds : List String) :
    ∃ last below, (L.walk w t ds).1.reverse ++ t::s = last::below ∧ L.isTable last = true ∧
      last = (L.walk w t ds).1.getLastD t := by
  induction ds generalizing t s with
  | nil => exact ⟨t,s,rfl,table,rfl⟩
  | cons d ds ih =>
    by_cases entered : L.isTable (L.field w t d) = true
    · obtain ⟨last,below,same,isTable,eq⟩ := ih entered (t::s)
      refine ⟨last,below,?_,isTable,?_⟩
      · simpa [walk,entered] using same
      · rw [eq]
        simp only [walk,entered,if_true]
        cases (L.walk w (L.field w t d) ds).1 with
        | nil => rfl
        | cons => rfl
    · refine ⟨t,s,?_,table,?_⟩
      · simp [walk,entered]
      · simp [walk,entered]

theorem leaveTables_run (cnt : Nat) :
    leaveTables cnt (h,s) = if cnt ≤ s.length then some (255,(h,s.drop cnt)) else none := by
  induction cnt generalizing s with
  | zero => rfl
  | succ cnt ih =>
    rw [leaveTables,Prog.bind_run]
    cases s with
    | nil => rfl
    | cons a s =>
      rw [LeaveTable,Prog.pop_one,Option.bind_some,ih]
      simp only [List.length_cons,Nat.add_le_add_iff_right,List.drop_succ_cons]

def entrance (expr : String) : List String :=
  (dirs expr).take (int8 (dirs expr).length - 1).toNat

theorem entrance_length (expr : String) : (entrance expr).length < 256 := by
  have high := BitVec.toInt_lt (x := BitVec.ofNat 8 (dirs expr).length)
  rw [entrance,List.length_take]
  unfold int8
  omega

include table in
/-- A path that ends at something else than a table, but not at its first part, takes 255
values off the stack. -/
theorem getDeep_run {β : Type} (conv : V → Option β) (zero : β) {expr : String}
    (parts : dirs expr ≠ []) {tables : List V} {whole : Bool}
    (went : L.walk h.world t (entrance expr) = (tables,whole)) :
    L.getDeep (L.getValue conv) zero expr (h,t::s) =
      if whole then
        (conv (L.field h.world (tables.getLastD t) ((dirs expr).getLastD ""))).map
          fun ret => (ret,(h,t::s))
      else if tables = [] then some (zero,(h,t::s))
      else if 255 ≤ s.length + 1 then some (zero,(h,(t::s).drop 255)) else none := by
  have small : 0 + (entrance expr).length < 256 := by
    have short := entrance_length expr
    omega
  have entered := L.enterTables_run table h s (entrance expr) small
  obtain ⟨last,below,top,isTable,eq⟩ := L.walk_top table s h.world (entrance expr)
  rw [went] at entered top eq
  have left : leaveTables tables.length (h,tables.reverse ++ t::s) = some (255,(h,t::s)) := by
    rw [leaveTables_run,if_pos (by simp),← List.length_reverse,List.drop_left]
  simp only [getDeep,if_neg parts,Prog.bind_run]
  rw [entrance] at entered
  rw [entered,Option.bind_some]
  simp only [Nat.zero_add] at eq top ⊢
  cases whole with
  | true =>
    simp only [if_true,Prog.bind_run]
    rw [top,L.getValue_run isTable,← top,eq]
    cases conv (L.field h.world (tables.getLastD t) ((dirs expr).getLastD "")) with
    | none => rfl
    | some ret =>
      simp only [Option.map_some,Option.bind_some,Prog.pure_run]
      rw [left]
      rfl
  | false =>
    cases tables with
    | nil => rfl
    | cons v vs =>
      have cnt : (v::vs).length ≠ 0 := by simp
      simp only [Bool.false_eq_true,if_false,if_pos cnt,Prog.bind_run,reduceCtorEq]
      rw [left]
      simp only [Option.bind_some,Prog.pure_run]
      rw [leaveTables_run,List.length_cons]
      split
      · rfl
      · rfl

include table in
theorem GetStringDeep_run {expr : String} (parts : dirs expr ≠ []) {tables : List V}
    {whole : Bool} (went : L.walk h.world t (entrance expr) = (tables,whole)) :
    L.GetStringDeep expr (h,t::s) =
      if whole then
        (L.tostring (L.field h.world (tables.getLastD t) ((dirs expr).getLastD ""))).map
          fun str => (str,(h,t::s))
      else if tables = [] then some ([],(h,t::s))
      else if 255 ≤ s.length + 1 then some ([],(h,(t::s).drop 255)) else none := by
  rw [GetStringDeep_eq]
  exact L.getDeep_run table h s L.tostring [] parts went

end Deep

def settings (w : ω) : V := L.field w L.globals "SystemConfig"

/-- `e` is a table and `e.e3` is not: `GetStringDeep` leaves 255 tables too many. -/
def Cut (w : ω) (c : V) : Prop :=
  L.isTable (L.field w c "e") = true ∧ L.isTable (L.field w (L.field w c "e") "e3") ≠ true

def TestTexts (w : ω) (c : V) : Prop :=
  L.Text w c "c" ∧ (L.isTable (L.field w c "e") = true →
    L.isTable (L.field w (L.field w c "e") "e3") = true →
      L.Text w (L.field w (L.field w c "e") "e3") "fuck")

def ConfigTexts (w : ω) (c : V) : Prop :=
  (L.Text w c "listen_ip" ∧ L.Text w c "connect_ip") ∧
    (L.isTable (L.field w c "db") = true → L.DbTexts w (L.field w c "db"))

section Blocks

variable (h : Host ω) (s : List V)

theorem fromGlobals_run (body : Api ω V Unit) :
    L.fromGlobals body (h,s) = (body (h,L.globals::s)).bind fun r => LeaveTable r.2 := rfl

theorem deep_run {c : V} (table : L.isTable c = true) :
    L.GetStringDeep "e.e3.fuck" (h,c::s) =
      if L.isTable (L.field h.world c "e") = true then
        if L.isTable (L.field h.world (L.field h.world c "e") "e3") = true then
          (L.tostring (L.field h.world (L.field h.world (L.field h.world c "e") "e3") "fuck")).map
            fun str => (str,(h,c::s))
        else if 255 ≤ s.length + 1 then some ([],(h,(c::s).drop 255)) else none
      else some ([],(h,c::s)) := by
  have parts : dirs "e.e3.fuck" = ["e","e3","fuck"] := by decide
  have inside : entrance "e.e3.fuck" = ["e","e3"] := by decide
  rw [L.GetStringDeep_run table h s (by rw [parts]; simp) rfl,inside,parts]
  by_cases e : L.isTable (L.field h.world c "e") = true
  · by_cases e3 : L.isTable (L.field h.world (L.field h.world c "e") "e3") = true
    · simp [walk,e,e3]
    · simp [walk,e,e3]
  · simp [walk,e]

theorem enterTests_none (table : ¬ L.isTable (L.settings h.world) = true) :
    L.fromGlobals L.enterTests (h,s) = some ((),(h,s)) := by
  rw [fromGlobals_run,enterTests,Prog.bind_run,L.EnterTable_run L.globals_table,Option.bind_some]
  simp only [settings] at table
  simp only [table]
  rfl

theorem enterConfig_none (table : ¬ L.isTable (L.settings h.world) = true) :
    L.fromGlobals L.enterConfig (h,s) = some ((),(h,s)) := by
  rw [fromGlobals_run,enterConfig,Prog.bind_run,L.EnterTable_run L.globals_table,Option.bind_some]
  simp only [settings] at table
  simp only [table]
  rfl

variable (table : L.isTable (L.settings h.world) = true)
include table

theorem enterConfig_table :
    (L.ConfigTexts h.world (L.settings h.world) ∧ ∃ h', h'.world = h.world ∧
      L.fromGlobals L.enterConfig (h,s) = some ((),(h',L.globals::s))) ∨
    ¬ L.ConfigTexts h.world (L.settings h.world) ∧ L.fromGlobals L.enterConfig (h,s) = none := by
  have reads := (L.readAddresses_reads table (w := h.world)).bind fun _ => L.enterDb_reads table
  rw [fromGlobals_run,enterConfig,Prog.bind_run,L.EnterTable_run L.globals_table,Option.bind_some]
  simp only [settings] at table reads ⊢
  simp only [table,if_true]
  rcases reads h (L.globals::s) rfl with ⟨holds,_,h',world,ran⟩ | ⟨fails,ran⟩
  · exact .inl ⟨holds,h',world,by rw [ran]; rfl⟩
  · exact .inr ⟨fails,by rw [ran]; rfl⟩

/-- The first block leaves the stack as it was, or takes 255 values off it. -/
theorem enterTests_table :
    (L.TestTexts h.world (L.settings h.world) ∧ ∃ h', h'.world = h.world ∧
      (¬ L.Cut h.world (L.settings h.world) ∧
          L.fromGlobals L.enterTests (h,s) = some ((),(h',s)) ∨
        L.Cut h.world (L.settings h.world) ∧ 255 ≤ s.length ∧
          L.fromGlobals L.enterTests (h,s) = some ((),(h',s.drop 255)))) ∨
    (L.TestTexts h.world (L.settings h.world) → L.Cut h.world (L.settings h.world) ∧
        s.length < 255) ∧ L.fromGlobals L.enterTests (h,s) = none := by
  rw [fromGlobals_run,enterTests,Prog.bind_run,L.EnterTable_run L.globals_table,Option.bind_some]
  have table' := table
  simp only [settings] at table' ⊢
  simp only [table',if_true,Prog.bind_run]
  rcases L.readTests_reads table' h (L.globals::s) rfl with ⟨holds,_,h',world,ran⟩ | ⟨fails,ran⟩
  · rw [ran,Option.bind_some,L.deep_run h' (L.globals::s) table',world]
    generalize L.field h.world L.globals "SystemConfig" = c at holds
    by_cases e : L.isTable (L.field h.world c "e") = true
    · by_cases e3 : L.isTable (L.field h.world (L.field h.world c "e") "e3") = true
      · rw [if_pos e,if_pos e3]
        cases text : L.tostring
            (L.field h.world (L.field h.world (L.field h.world c "e") "e3") "fuck") with
        | none =>
          refine .inr ⟨fun texts => absurd (texts.2 e e3) ?_,rfl⟩
          rw [Text,text]
          exact Bool.false_ne_true
        | some str =>
          refine .inl ⟨⟨holds,fun _ _ => ?_⟩,h',world,.inl ⟨fun cut => cut.2 e3,rfl⟩⟩
          rw [Text,text]
          rfl
      · rw [if_pos e,if_neg e3,List.length_cons]
        by_cases enough : 255 ≤ s.length
        · refine .inl ⟨⟨holds,fun _ entered => absurd entered e3⟩,h',world,
            .inr ⟨⟨e,e3⟩,enough,?_⟩⟩
          rw [if_pos (by omega)]
          have two : s.drop 253 = s[253]::s[254]::s.drop 255 := by
            rw [List.getElem_cons_drop,List.getElem_cons_drop]
          show (LeaveTable (h',s.drop 253)).bind _ = _
          rw [two]
          rfl
        · refine .inr ⟨fun _ => ⟨⟨e,e3⟩,by omega⟩,?_⟩
          split
          · show (LeaveTable (h',s.drop 253)).bind _ = none
            have few : (s.drop 253).length < 2 := by
              rw [List.length_drop]
              omega
            match rest : s.drop 253 with
            | [] => rfl
            | [_] => rfl
            | _::_::_ =>
              rw [rest,List.length_cons,List.length_cons] at few
              omega
          · rfl
    · rw [if_neg e]
      exact .inl ⟨⟨holds,fun entered => absurd entered e⟩,h',world,
        .inl ⟨fun cut => e cut.1,rfl⟩⟩
  · refine .inr ⟨fun texts => absurd texts.1 fails,?_⟩
    rw [ran]
    rfl

end Blocks

/-- The file fails, or it returns nothing and sets nothing to be read. What is left is
an accident: it returns 254 values, the path is cut, and what is on top is put back. -/
def Settles (w : ω) (s : List V) : Prop :=
  match L.loadfile w "./world/system_config.lua" with
  | (_,.error _) => True
  | (w,.ok chunk) =>
    match L.call w chunk [] with
    | (_,.error _) => True
    | (w,.ok rets) =>
      (L.isTable (L.settings w) ≠ true ∧ rets = []) ∨
      L.isTable (L.settings w) = true ∧ L.TestTexts w (L.settings w) ∧
        L.ConfigTexts w (L.settings w) ∧ L.Cut w (L.settings w) ∧
        rets.length = 254 ∧ s.head? = some L.globals

/-- One more value on 254 others, of which 255 are then taken off. -/
theorem globals_put_back {g : V} {rets s : List V} (enough : 255 ≤ rets.length + s.length) :
    g::(rets.reverse ++ s).drop 255 = s ↔ rets.length = 254 ∧ s.head? = some g := by
  constructor
  · intro same
    have length := congrArg List.length same
    simp only [List.length_cons,List.length_drop,List.length_append,List.length_reverse] at length
    have rest : (rets.reverse ++ s).drop 255 = s.drop 1 := by
      rw [List.drop_append,List.drop_eq_nil_of_le (by rw [List.length_reverse]; omega),
        List.nil_append]
      congr 1
      rw [List.length_reverse]
      omega
    exact ⟨by omega,by rw [← same]; rfl⟩
  · rintro ⟨length,top⟩
    obtain ⟨below,rfl⟩ : ∃ below, s = g::below := List.head?_eq_some_iff.mp top
    rw [List.drop_append,List.drop_eq_nil_of_le (by rw [List.length_reverse]; omega),
      List.nil_append,List.length_reverse,length]
    rfl

section Load

variable [DecidableEq V] (h : Host ω) (s : List V)

theorem DoFile_load {filename : String} {w : ω} {e : V}
    (loaded : L.loadfile h.world filename = (w,.error e)) :
    ∃ h', L.DoFile filename (h,s) = some (false,(h',s)) := by
  refine ⟨{h with world := w, log := h.log ++ [.doFile (L.tostring e)]},?_⟩
  simp [DoFile,load_error (f := (L.loadfile · filename)) loaded]

theorem DoFile_error {filename : String} {w w' : ω} {chunk e : V}
    (loaded : L.loadfile h.world filename = (w,.ok chunk))
    (called : L.call w chunk [] = (w',.error e)) :
    ∃ h', L.DoFile filename (h,s) = some (false,(h',s)) := by
  obtain ⟨v,w'',ended⟩ := L.protect_error none none {h with world := w} s called
    fun own => by cases own
  refine ⟨{h with world := w'', log := h.log ++ [.doFile (L.tostring v)]},?_⟩
  simp [DoFile,load_ok (f := (L.loadfile · filename)) loaded,lua_pcall,ended]

theorem DoFile_ok {filename : String} {w w' : ω} {chunk : V} {rets : List V}
    (loaded : L.loadfile h.world filename = (w,.ok chunk))
    (called : L.call w chunk [] = (w',.ok rets)) :
    L.DoFile filename (h,s) = some (true,({h with world := w'},rets.reverse ++ s)) := by
  have ended := L.protect_ok none none {h with world := w} s called
  simp [DoFile,load_ok (f := (L.loadfile · filename)) loaded,lua_pcall,ended,adjust]

variable {h s} in
theorem LoadSystemConfig_failed {h' : Host ω}
    (failed : L.DoFile "./world/system_config.lua" (h,s) = some (false,(h',s))) :
    L.LoadSystemConfig (h,s) = some ((),({h' with log := h'.log ++ [.loadConfig]},s)) := by
  simp [LoadSystemConfig,failed]

variable {h s} in
theorem LoadSystemConfig_done {t : Host ω × List V}
    (done : L.DoFile "./world/system_config.lua" (h,s) = some (true,t)) :
    L.LoadSystemConfig (h,s) = (L.fromGlobals L.enterTests t).bind fun r =>
      L.fromGlobals L.enterConfig r.2 := by
  simp [LoadSystemConfig,done]

/-- Where there is something to be read, the globals are left on the stack. -/
theorem LoadSystemConfig_table {w w' : ω} {chunk : V} {rets : List V}
    (loaded : L.loadfile h.world "./world/system_config.lua" = (w,.ok chunk))
    (called : L.call w chunk [] = (w',.ok rets))
    (table : L.isTable (L.settings w') = true) :
    ((L.TestTexts w' (L.settings w') ∧ L.ConfigTexts w' (L.settings w')) ∧ ∃ h',
      (¬ L.Cut w' (L.settings w') ∧
          L.LoadSystemConfig (h,s) = some ((),(h',L.globals::(rets.reverse ++ s))) ∨
        L.Cut w' (L.settings w') ∧ 255 ≤ rets.length + s.length ∧
          L.LoadSystemConfig (h,s) =
            some ((),(h',L.globals::(rets.reverse ++ s).drop 255)))) ∨
    (L.TestTexts w' (L.settings w') ∧ L.ConfigTexts w' (L.settings w') →
        L.Cut w' (L.settings w') ∧ rets.length + s.length < 255) ∧
      L.LoadSystemConfig (h,s) = none := by
  rw [L.LoadSystemConfig_done (L.DoFile_ok h s loaded called)]
  have length : (rets.reverse ++ s).length = rets.length + s.length := by simp
  rcases L.enterTests_table {h with world := w'} (rets.reverse ++ s) table with
    ⟨texts,h₁,world,ran⟩ | ⟨fails,ran⟩
  · have table₁ : L.isTable (L.settings h₁.world) = true := world.symm ▸ table
    have second (t : List V) := L.enterConfig_table h₁ t table₁
    simp only [world] at second
    rcases ran with ⟨whole,ran⟩ | ⟨cut,enough,ran⟩
    · rw [ran,Option.bind_some]
      rcases second (rets.reverse ++ s) with ⟨strings,h₂,_,ran₂⟩ | ⟨fails,ran₂⟩
      · exact .inl ⟨⟨texts,strings⟩,h₂,.inl ⟨whole,ran₂⟩⟩
      · exact .inr ⟨fun both => absurd both.2 fails,ran₂⟩
    · rw [ran,Option.bind_some]
      rw [length] at enough
      rcases second ((rets.reverse ++ s).drop 255) with ⟨strings,h₂,_,ran₂⟩ | ⟨fails,ran₂⟩
      · exact .inl ⟨⟨texts,strings⟩,h₂,.inr ⟨cut,enough,ran₂⟩⟩
      · exact .inr ⟨fun both => absurd both.2 fails,ran₂⟩
  · rw [length] at fails
    exact .inr ⟨fun both => fails both.1,by rw [ran]; rfl⟩

theorem LoadSystemConfig_keeps : L.LoadSystemConfig.Keeps (h,s) ↔ L.Settles h.world s := by
  rcases loaded : L.loadfile h.world "./world/system_config.lua" with ⟨w,e | chunk⟩
  · obtain ⟨h',failed⟩ := L.DoFile_load h s loaded
    apply iff_of_true ⟨_,_,L.LoadSystemConfig_failed failed⟩
    simp only [Settles,loaded]
  · rcases called : L.call w chunk [] with ⟨w',e | rets⟩
    · obtain ⟨h',failed⟩ := L.DoFile_error h s loaded called
      apply iff_of_true ⟨_,_,L.LoadSystemConfig_failed failed⟩
      simp only [Settles,loaded,called]
    · simp only [Settles,loaded,called]
      by_cases table : L.isTable (L.settings w') = true
      · simp only [table,ne_eq,not_true,false_and,false_or,true_and]
        rcases L.LoadSystemConfig_table h s loaded called table with
          ⟨⟨texts,strings⟩,h',⟨whole,ran⟩ | ⟨cut,enough,ran⟩⟩ | ⟨fails,ran⟩
        · rw [Prog.keeps_iff ran]
          refine iff_of_false (fun same => ?_) fun settles => whole settles.2.2.1
          have length := congrArg List.length same
          simp only [List.length_cons,List.length_append,List.length_reverse] at length
          omega
        · rw [Prog.keeps_iff ran,globals_put_back enough]
          exact ⟨fun both => ⟨texts,strings,cut,both⟩,fun settles => settles.2.2.2⟩
        · apply iff_of_false (Prog.not_keeps ran)
          intro settles
          have short := (fails ⟨settles.1,settles.2.1⟩).2
          obtain ⟨below,rfl⟩ := List.head?_eq_some_iff.mp settles.2.2.2.2
          rw [settles.2.2.2.1,List.length_cons] at short
          omega
      · have done := L.DoFile_ok h s loaded called
        have ran : L.LoadSystemConfig (h,s) =
            some ((),({h with world := w'},rets.reverse ++ s)) := by
          rw [L.LoadSystemConfig_done done,L.enterTests_none _ _ table,Option.bind_some,
            L.enterConfig_none _ _ table]
        rw [Prog.keeps_iff ran]
        simp only [table,ne_eq,not_false_iff,true_and,Bool.false_eq_true,false_and,or_false]
        rw [List.append_left_eq_self,List.reverse_eq_nil_iff]

end Load

end Pworld.Script.LuaLib
