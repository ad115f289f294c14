import Pworld.Script.SystemConfig
import Pworld.Support.Runs

/-! The entry points in any order on one stack, and when they leave it as it was. -/
namespace Pworld.Script

open Stack

inductive Entry where
  | ExecFile (fn : String)
  | ExecString (str : String)
  | cb_script_timer (_ctx : CtxObj) (cb : String) (sp : ByteBuffer)
  | LoadSystemConfig

namespace LuaLib

variable {ω V : Type} [DecidableEq V] (L : LuaLib ω V) (junk : Nat → Nat) (fuel : Nat)

def step (s : Host ω × List V) : Entry → Option (Host ω × List V)
  | .ExecFile fn => (L.ExecFile fn s).map Prod.snd
  | .ExecString str => (L.ExecString str s).map Prod.snd
  | .cb_script_timer _ctx cb sp => (L.cb_script_timer junk fuel _ctx cb sp s).map Prod.snd
  | .LoadSystemConfig => (L.LoadSystemConfig s).map Prod.snd

/-- When an entry point pops what it pushes, and no more. -/
def Tidy (s : Host ω × List V) : Entry → Prop
  | .ExecFile fn => L.Silent (L.loadfile · fn) s.1.world
  | .ExecString str => L.Silent (L.loadstring · str) s.1.world
  | .cb_script_timer _ctx cb sp => L.Calls junk fuel _ctx cb sp s.1.world
  | .LoadSystemConfig => L.Settles s.1.world s.2

theorem step_tidy (s : Host ω × List V) (e : Entry) :
    (∃ t, L.step junk fuel s e = some t ∧ t.2 = s.2) ↔ L.Tidy junk fuel s e := by
  have keeps {β : Type} (m : Api ω V β) :
      (∃ t, (m s).map Prod.snd = some t ∧ t.2 = s.2) ↔ m.Keeps s := by
    constructor
    · rintro ⟨t,mapped,same⟩
      obtain ⟨⟨b,t'⟩,ran,rfl⟩ := Option.map_eq_some_iff.mp mapped
      exact (Prog.keeps_iff ran).mpr same
    · rintro ⟨b,h,ran⟩
      exact ⟨(h,s.2),by rw [ran]; rfl,rfl⟩
  cases e with
  | ExecFile fn => exact (keeps _).trans (L.exec_keeps _ _ s.1 s.2)
  | ExecString str => exact (keeps _).trans (L.exec_keeps _ _ s.1 s.2)
  | cb_script_timer _ctx cb sp =>
    exact (keeps _).trans (L.cb_script_timer_keeps junk fuel _ctx cb sp s.1 s.2)
  | LoadSystemConfig => exact (keeps _).trans (L.LoadSystemConfig_keeps s.1 s.2)

/-- Any sequence of entry points returns with the stack as it was all along exactly if
each of them is tidy. -/
theorem stack_neutral (h : Host ω) (stack : List V) (es : List Entry) :
    (∃ t, Runs.run (L.step junk fuel) (h,stack) es = some t) ∧
        Runs.Always (L.step junk fuel) (fun t => t.2 = stack) (h,stack) es ↔
      Runs.Meets (L.step junk fuel) (L.Tidy junk fuel) (h,stack) es := by
  refine Runs.returns_iff_meets _ (fun s e same => ?_) rfl
  rw [← L.step_tidy junk fuel s e,same]

end LuaLib

/-- A few values of a library with the configuration file of the repository. -/
inductive Shipped where
  | nil
  | globals
  | onLuaError
  | number (n : Nat)
  | text (s : String)
  | table (path : String)
  | function (body : String)
  deriving DecidableEq

namespace Shipped

def entries : String → List (String × Shipped)
  | "SystemConfig" => [("a",.number 100),("c",.text "f"),("d",.number 1003),("e",.table "e"),
      ("db",.table "db"),("listen_ip",.text "0.0.0.0"),("listen_pt",.number 19850),
      ("connect_ip",.text "127.0.0.1"),("connect_pt",.number 60000)]
  | "e" => [("e3",.table "e3")]
  | "e3" => [("fuck",.text "f")]
  | "db" => [("host",.text "127.0.0.1"),("user",.text "zcg"),("pwd",.text "zcg"),
      ("name",.text "world"),("port",.number 3306),("chat_set",.text "gbk")]
  | "zcg" => [("dump_locals",.function "dump_locals")]
  | _ => []

def get (entries : List (String × Shipped)) (key : String) : Shipped :=
  (entries.lookup key).getD .nil

/-- The globals; `world` says whether the file has been run. -/
def globalEntries (world : Bool) : List (String × Shipped) :=
  [("zcg",.table "zcg"),("glof",.function "glof")] ++
    if world then [("SystemConfig",.table "SystemConfig")] else []

theorem get_other {es : List (String × Shipped)} (other : ∀ e ∈ es, e.2 ≠ .onLuaError)
    (key : String) : get es key ≠ .onLuaError := by
  unfold get
  induction es with
  | nil => simp
  | cons e es ih =>
    rw [List.lookup_cons]
    split
    · exact other e List.mem_cons_self
    · exact ih fun e member => other e (List.mem_cons_of_mem _ member)

theorem entries_other (path : String) : ∀ e ∈ entries path, e.2 ≠ .onLuaError := by
  unfold entries
  split <;> simp

theorem globalEntries_other (world : Bool) :
    ∀ e ∈ globalEntries world, e.2 ≠ .onLuaError := by
  cases world <;> decide

def lib : LuaLib Bool Shipped where
  globals := .globals
  nil := .nil
  onLuaError := .onLuaError
  isNil v := v == .nil
  isTable
    | .globals | .table _ => true
    | _ => false
  tostring
    | .text s => some s.toUTF8.toList
    | .number n => some (toString n).toUTF8.toList
    | _ => none
  tointeger
    | .number n => n
    | _ => 0
  tonumber _ := 0
  toboolean v := v != .nil
  pushstring := .text
  loadfile world fn :=
    if fn = "./world/system_config.lua" then (world,.ok (.function fn))
    else (world,.error (.text "cannot open file"))
  loadstring world str := (world,.ok (.function str))
  call world f _ :=
    match f with
    | .function "./world/system_config.lua" => (true,.ok [])
    | .function "return 1" => (world,.ok [.number 1])
    | .function "glof" => (world,.ok [])
    | _ => (world,.error (.text "attempt to call a nil value"))
  handle world _ e := (world,e)
  traceback world _ := (world,.text "stack traceback")
  getfield world v name :=
    match v with
    | .globals => some (world,get (globalEntries world) name)
    | .table path => some (world,get (entries path) name)
    | _ => none
  rawget world t k :=
    match t,k with
    | .globals,.text key => get (globalEntries world) key
    | .table path,.text key => get (entries path) key
    | _,_ => .nil
  newtable world _ := (world,.table "")
  newuserdata world obj := (world,.number obj)
  globals_table := rfl
  getfield_other := by
    intro w w' v v' name found
    cases v <;> cases found
    · exact get_other (globalEntries_other w) name
    · exact get_other (entries_other _) name

def atStart : Host Bool := ⟨false,none,[],⟨[],0,[],0,[],[],[],[],0,[]⟩⟩

def heights (stack : List Shipped) (es : List Entry) : Option (List Shipped) :=
  (Runs.run (lib.step (fun _ => 0) 1) (atStart,stack) es).map Prod.snd

/-- The file as it is leaves the globals behind each time; a script with a result leaves the
message handler, a callback that is not defined eats two values and one for a map one. -/
theorem heights_change :
    heights [] [.LoadSystemConfig,.LoadSystemConfig] = some [.globals,.globals] ∧
      heights [] [.ExecString "return 1"] = some [.onLuaError] ∧
      heights [.text "a",.text "b"] [.cb_script_timer .CT_Global "gone" (.new 0 none)] = some [] ∧
      heights [.text "a"] [.cb_script_timer (.CT_Map 0) "glof" (.new 0 none)] = some [] := by
  decide +kernel

end Shipped

end Pworld.Script
