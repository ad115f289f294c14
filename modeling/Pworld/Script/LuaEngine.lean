import Pworld.Support.Stack
import Pworld.Lua.Deserialize

/-! `LuaEngine` and the script timers, on the stack that they share with all other code.
The library is a parameter; a call has its own stack, so that the values below the
function called stay as they are. -/
namespace Pworld.Script

open Stack

/-- What is used of the library. `ω` is what scripts can reach, `V` the values. -/
structure LuaLib (ω V : Type) where
  globals : V
  nil : V
  onLuaError : V  -- `lua_pushcfunction` of `_on_lua_error`
  isNil : V → Bool
  isTable : V → Bool
  tostring : V → Option Bytes  -- up to the first zero byte; `none` is a null pointer
  tointeger : V → Int
  tonumber : V → BitVec 64
  toboolean : V → Bool
  pushstring : String → V
  loadfile : ω → String → ω × Except V V  -- the chunk, or the message
  loadstring : ω → String → ω × Except V V
  call : ω → V → List V → ω × Except V (List V)
  handle : ω → V → V → ω × V  -- the message handler on an error
  traceback : ω → Bytes → ω × V
  getfield : ω → V → String → Option (ω × V)  -- `none` where an error is raised
  rawget : ω → V → V → V
  newtable : ω → Lua.Value → ω × V
  newuserdata : ω → Nat → ω × V
  globals_table : isTable globals = true
  -- scripts never see the C function
  getfield_other {w w' : ω} {v v' : V} {name : String} :
    getfield w v name = some (w',v') → v' ≠ onLuaError

structure SystemConfig where
  listen_ip : Bytes
  listen_pt : Nat
  connect_ip : Bytes
  connect_pt : Nat
  db_host : Bytes
  db_user : Bytes
  db_pwd : Bytes
  db_name : Bytes
  db_port : Nat
  db_chat_set : Bytes
  deriving DecidableEq

inductive LogLine where
  | execFileFailed (fn : String)
  | execStringFailed (str : String)
  | notFound (fn : String)
  | scriptError (fn : Option String) (err : Option Bytes)
  | doFile (err : Option Bytes)
  | loadConfig
  deriving DecidableEq

structure Host (ω : Type) where
  world : ω
  _fn : Option String
  log : List LogLine
  config : SystemConfig

abbrev Api (ω V β : Type) := Prog (Host ω) V β

def act {ω V β : Type} (f : ω → ω × β) : Api ω V β := do
  let h ← Prog.get
  Prog.modify fun h => {h with world := (f h.world).1}
  pure (f h.world).2

def error {ω V : Type} (line : LogLine) : Api ω V Unit :=
  Prog.modify fun h => {h with log := h.log ++ [line]}

namespace LuaLib

variable {ω V : Type} [DecidableEq V] (L : LuaLib ω V)

def reportHead : Bytes := "\nerror report:\n\t".toUTF8.toList

/-- `err`, of 1024 bytes, after `sprintf`. -/
def report (e : V) : Bytes := reportHead ++ (L.tostring e).getD "(null)".toUTF8.toList

def _on_lua_error : Api ω V Nat := do
  let err := L.report (← Prog.peek 1)
  if 1024 ≤ err.length then Prog.undefined  -- written over what is behind the array
  else
    Prog.push (← act (L.traceback · err))
    Prog.replace 2
    pure 1

def message (m e : V) : Api ω V V :=
  if m = L.onLuaError then do
    let rets ← Prog.frame L._on_lua_error [e]
    pure (rets.head?.getD L.nil)
  else act (L.handle · m e)

def adjust (nresults : Option Nat) (rets : List V) : List V :=
  match nresults with
  | none => rets  -- `LUA_MULTRET`
  | some n => (rets ++ List.replicate n L.nil).take n

/-- True for an error, whose message is then on the stack. -/
def protect (handler : Option V) (nresults : Option Nat) (f : V) (args : List V) :
    Api ω V Bool := do
  match ← act (L.call · f args) with
  | .ok rets =>
    Prog.pushAll (L.adjust nresults rets)
    pure false
  | .error e =>
    match handler with
    | none => Prog.push e
    | some m => Prog.push (← L.message m e)
    pure true

def lua_pcall (narg : Nat) (nresults : Option Nat) (msgh : Option Nat) : Api ω V Bool := do
  let handler ← match msgh with
    | none => pure none
    | some i => some <$> Prog.peek i
  match ← Prog.take (narg+1) with
  | [] => Prog.undefined
  | f::args => L.protect handler nresults f args

/-- True where there is no chunk but a message on the stack. -/
def load (f : ω → ω × Except V V) : Api ω V Bool := do
  match ← act f with
  | .ok chunk =>
    Prog.push chunk
    pure false
  | .error e =>
    Prog.push e
    pure true

def index (v : V) (name : String) : Api ω V V := fun (h,s) =>
  (L.getfield h.world v name).map fun (w,v) => (v,({h with world := w},s))

def lua_getglobal (name : String) : Api ω V Unit := do
  Prog.push (← L.index L.globals name)

def lua_getfield (i : Nat) (name : String) : Api ω V Unit := do
  Prog.push (← L.index (← Prog.peek i) name)

def _emit_error : Api ω V Unit := do
  let err := L.tostring (← Prog.peek 1)
  error (.scriptError (← Prog.get)._fn err)
  Prog.pop 1

/-- `ExecFile` and `ExecString` differ in what they load and in what they log. -/
def exec (loads : Api ω V Bool) (failed : LogLine) : Api ω V Bool := do
  Prog.push L.onLuaError
  let r ← if ← loads then pure true else L.lua_pcall 0 none (some 2)
  if !r then
    Prog.remove 1
    pure true
  else
    error failed
    L._emit_error
    Prog.pop 1  -- pop debug func
    pure false

def ExecFile (fn : String) : Api ω V Bool :=
  L.exec (load (L.loadfile · fn)) (.execFileFailed fn)

def ExecString (str : String) : Api ω V Bool :=
  L.exec (load (L.loadstring · str)) (.execStringFailed str)

def PushFunction (fn : String) : Api ω V Bool := do
  L.lua_getglobal "zcg"
  L.lua_getfield 1 "dump_locals"
  Prog.replace 2
  Prog.modify fun h => {h with _fn := some fn}
  L.lua_getglobal fn
  if L.isNil (← Prog.peek 1) then
    Prog.pop 2
    error (.notFound fn)
    pure false
  else pure true

def ExecFunction (narg nresult : Nat) : Api ω V Bool := do
  let r ← L.lua_pcall narg (some nresult) (some (2 + narg))
  if !r then Prog.remove (1 + nresult)
  else
    L._emit_error
    Prog.pop 1
  Prog.modify fun h => {h with _fn := none}
  pure !r

end LuaLib

/-- `CtxObj`; `unset` is any other type that an object starts with. -/
inductive CtxObj where
  | CT_Global
  | CT_Object (obj : Nat)
  | CT_Map (map : Nat)
  | unset
  deriving DecidableEq

/-- What `push_ctx` returns. -/
def CtxObj.counted : CtxObj → Nat
  | .CT_Object _ | .CT_Map _ => 1
  | _ => 0

/-- What it pushes. -/
def CtxObj.pushed : CtxObj → Nat
  | .CT_Object _ => 1
  | _ => 0

namespace LuaLib

variable {ω V : Type} (L : LuaLib ω V)

def lua_newtable (v : Lua.Value) : Api ω V Unit := do
  Prog.push (← act (L.newtable · v))

def PushObject (obj : Nat) : Api ω V Unit := do
  Prog.push (← act (L.newuserdata · obj))

def push_ctx (_ctx : CtxObj) : Api ω V Nat :=
  match _ctx with
  | .CT_Global => pure 0
  | .CT_Object obj => do
    L.PushObject obj
    pure 1
  | .CT_Map _ => pure 1
  | .unset => pure 0

/-- `ScriptParam::Push`, with the parameters left. `junk` and `n` are those of
`LuaTable::Deserialize`. -/
def Push (junk : Nat → Nat) (n : Nat) (_params : ByteBuffer) : Api ω V ByteBuffer :=
  let empty : Lua.Value := .table ⟨false,false,0⟩ []
  if _params.avail = 0 then do
    L.lua_newtable empty
    pure _params
  else
    match Lua.Deserialize junk n _params with
    | some (.ok (some v,r)) => do
      L.lua_newtable v
      pure r.bb
    | some (.ok (none,r)) => do
      L.lua_newtable empty
      pure r.bb
    | _ => Prog.undefined

def cb_script_timer [DecidableEq V] (junk : Nat → Nat) (fuel : Nat) (_ctx : CtxObj) (cb : String)
    (sp : ByteBuffer) : Api ω V ByteBuffer := do
  let _ ← L.PushFunction cb
  let n ← L.push_ctx _ctx
  let sp ← L.Push junk fuel sp
  let _ ← L.ExecFunction (n+1) 0
  pure sp

@[simp] theorem act_run {β : Type} (f : ω → ω × β) (h : Host ω) (s : List V) :
    act f (h,s) = some ((f h.world).2,({h with world := (f h.world).1},s)) := rfl

@[simp] theorem error_run (line : LogLine) (h : Host ω) (s : List V) :
    error line (h,s) = some ((),({h with log := h.log ++ [line]},s)) := rfl

theorem load_ok {f : ω → ω × Except V V} {h : Host ω} {s : List V} {w : ω} {chunk : V}
    (loaded : f h.world = (w,.ok chunk)) :
    load f (h,s) = some (false,({h with world := w},chunk::s)) := by
  simp [load,loaded]

theorem load_error {f : ω → ω × Except V V} {h : Host ω} {s : List V} {w : ω} {e : V}
    (loaded : f h.world = (w,.error e)) :
    load f (h,s) = some (true,({h with world := w},e::s)) := by
  simp [load,loaded]

@[simp] theorem emit_error_run (h : Host ω) (e : V) (s : List V) :
    L._emit_error (h,e::s) =
      some ((),({h with log := h.log ++ [.scriptError h._fn (L.tostring e)]},s)) := by
  simp [_emit_error]

theorem on_lua_error_run (h : Host ω) (e : V) :
    L._on_lua_error (h,[e]) = if 1024 ≤ (L.report e).length then none
      else some (1,({h with world := (L.traceback h.world (L.report e)).1},
        [(L.traceback h.world (L.report e)).2])) := by
  simp only [_on_lua_error,Prog.bind_run,Prog.peek_top,Option.bind_some]
  split
  · rfl
  · rfl

/-- What `PushFunction` gets out of the globals: the message handler and the function. -/
def lookup (w : ω) (fn : String) : Option (ω × V × V) :=
  (L.getfield w L.globals "zcg").bind fun zcg =>
    (L.getfield zcg.1 zcg.2 "dump_locals").bind fun d =>
      (L.getfield d.1 L.globals fn).map fun f => (f.1,d.2,f.2)

theorem PushFunction_none {h : Host ω} {fn : String} (missing : L.lookup h.world fn = none)
    (s : List V) : L.PushFunction fn (h,s) = none := by
  unfold lookup at missing
  cases first : L.getfield h.world L.globals "zcg" with
  | none => simp [PushFunction,lua_getglobal,index,first]
  | some zcg =>
    rw [first,Option.bind_some] at missing
    cases second : L.getfield zcg.1 zcg.2 "dump_locals" with
    | none => simp [PushFunction,lua_getglobal,lua_getfield,index,first,second]
    | some d =>
      rw [second,Option.bind_some,Option.map_eq_none_iff] at missing
      simp [PushFunction,lua_getglobal,lua_getfield,index,first,second,missing]

theorem PushFunction_run {h : Host ω} {fn : String} {w : ω} {d f : V}
    (found : L.lookup h.world fn = some (w,d,f)) (s : List V) :
    ∃ b h', L.PushFunction fn (h,s) = some (b,(h',if L.isNil f then s else f::d::s)) := by
  obtain ⟨zcg,first,rest⟩ := Option.bind_eq_some_iff.mp found
  obtain ⟨d',second,rest⟩ := Option.bind_eq_some_iff.mp rest
  obtain ⟨f',third,same⟩ := Option.map_eq_some_iff.mp rest
  cases same
  cases nil : L.isNil f'.2 with
  | true =>
    refine ⟨false,{h with world := f'.1, _fn := some fn, log := h.log ++ [.notFound fn]},?_⟩
    simp [PushFunction,lua_getglobal,lua_getfield,index,first,second,third,nil]
  | false =>
    refine ⟨true,{h with world := f'.1, _fn := some fn},?_⟩
    simp [PushFunction,lua_getglobal,lua_getfield,index,first,second,third,nil]

theorem lookup_other {w w' : ω} {fn : String} {d f : V}
    (found : L.lookup w fn = some (w',d,f)) : d ≠ L.onLuaError := by
  obtain ⟨zcg,_,rest⟩ := Option.bind_eq_some_iff.mp found
  obtain ⟨d',second,rest⟩ := Option.bind_eq_some_iff.mp rest
  obtain ⟨f',_,same⟩ := Option.map_eq_some_iff.mp rest
  cases same
  exact L.getfield_other second

theorem push_ctx_run (_ctx : CtxObj) (h : Host ω) (s : List V) :
    ∃ vs h', L.push_ctx _ctx (h,s) = some (_ctx.counted,(h',vs ++ s)) ∧
      vs.length = _ctx.pushed := by
  cases _ctx with
  | CT_Object obj => exact ⟨[_],_,rfl,rfl⟩
  | _ => exact ⟨[],h,rfl,rfl⟩

/-- The bytes stored are a whole table, or none. -/
def Complete (junk : Nat → Nat) (n : Nat) (_params : ByteBuffer) : Prop :=
  _params.avail = 0 ∨ ∃ v r, Lua.Deserialize junk n _params = some (.ok (v,r))

theorem Push_run {junk : Nat → Nat} {n : Nat} {_params : ByteBuffer}
    (complete : Complete junk n _params) (h : Host ω) (s : List V) :
    ∃ bb h' v, L.Push junk n _params (h,s) = some (bb,(h',v::s)) := by
  unfold Push
  by_cases empty : _params.avail = 0
  · exact ⟨_,_,_,by rw [if_pos empty]; rfl⟩
  · obtain ⟨v,r,read⟩ := complete.resolve_left empty
    rw [if_neg empty,read]
    cases v with
    | none => exact ⟨_,_,_,rfl⟩
    | some v => exact ⟨_,_,_,rfl⟩

theorem Push_none {junk : Nat → Nat} {n : Nat} {_params : ByteBuffer}
    (cut : ¬ Complete junk n _params) (s : Host ω × List V) : L.Push junk n _params s = none := by
  unfold Complete at cut
  rw [not_or] at cut
  unfold Push
  rw [if_neg cut.1]
  cases read : Lua.Deserialize junk n _params with
  | none => rfl
  | some outcome =>
    cases outcome with
    | error stop => rfl
    | ok r => exact absurd ⟨r.1,r.2,read⟩ cut.2

variable [DecidableEq V]

theorem message_spec (m e : V) (h : Host ω) (s : List V) :
    (m = L.onLuaError → (L.report e).length < 1024) →
      ∃ v w, L.message m e (h,s) = some (v,({h with world := w},s)) := by
  intro fits
  unfold message
  split
  next own =>
    have short := Nat.not_le.mpr (fits own)
    refine ⟨(L.traceback h.world (L.report e)).2,(L.traceback h.world (L.report e)).1,?_⟩
    simp [Prog.frame,on_lua_error_run,if_neg short]
  next => exact ⟨_,_,act_run _ h s⟩

theorem message_long {e : V} (long : 1024 ≤ (L.report e).length) (h : Host ω) (s : List V) :
    L.message L.onLuaError e (h,s) = none := by
  simp [message,Prog.frame,on_lua_error_run,if_pos long]

section Protect

variable (handler : Option V) (nresults : Option Nat) {f : V} {args : List V} (h : Host ω)
  (s : List V) {w : ω}

theorem protect_ok {rets : List V} (called : L.call h.world f args = (w,.ok rets)) :
    L.protect handler nresults f args (h,s) =
      some (false,({h with world := w},(L.adjust nresults rets).reverse ++ s)) := by
  simp [protect,called]

theorem protect_error {e : V} (called : L.call h.world f args = (w,.error e))
    (fits : handler = some L.onLuaError → (L.report e).length < 1024) :
    ∃ v w', L.protect handler nresults f args (h,s) = some (true,({h with world := w'},v::s)) := by
  cases handler with
  | none =>
    refine ⟨e,w,?_⟩
    simp [protect,called]
  | some m =>
    obtain ⟨v,w',ran⟩ := L.message_spec m e {h with world := w} s fun own => fits (by rw [own])
    refine ⟨v,w',?_⟩
    simp [protect,called,ran]

theorem protect_long {e : V} (called : L.call h.world f args = (w,.error e))
    (long : 1024 ≤ (L.report e).length) :
    L.protect (some L.onLuaError) nresults f args (h,s) = none := by
  simp [protect,called,L.message_long long]

end Protect

/-- What is loaded returns nothing, or fails with a message that fits. -/
def Silent (f : ω → ω × Except V V) (w : ω) : Prop :=
  match f w with
  | (_,.error _) => True
  | (w,.ok chunk) =>
    match L.call w chunk [] with
    | (_,.ok rets) => rets = []
    | (_,.error e) => (L.report e).length < 1024

theorem exec_keeps (f : ω → ω × Except V V) (failed : LogLine) (h : Host ω) (s : List V) :
    (L.exec (load f) failed).Keeps (h,s) ↔ L.Silent f h.world := by
  rcases loaded : f h.world with ⟨w,e | chunk⟩
  · have ran : L.exec (load f) failed (h,s) = some (false,({h with
        world := w, log := h.log ++ [failed] ++ [.scriptError h._fn (L.tostring e)]},s)) := by
      simp [exec,load_error loaded]
    exact iff_of_true ⟨_,_,ran⟩ (by simp only [Silent,loaded])
  · have pushed := load_ok (s := L.onLuaError::s) loaded
    rcases called : L.call w chunk [] with ⟨w',e | rets⟩
    · have silent : L.Silent f h.world ↔ (L.report e).length < 1024 := by
        simp only [Silent,loaded,called]
      rw [silent]
      by_cases fits : (L.report e).length < 1024
      · obtain ⟨v,w'',ended⟩ := L.protect_error (some L.onLuaError) none
          {h with world := w} (L.onLuaError::s) called fun _ => fits
        have ran : L.exec (load f) failed (h,s) = some (false,({h with
            world := w'', log := h.log ++ [failed] ++ [.scriptError h._fn (L.tostring v)]},s)) := by
          simp [exec,pushed,lua_pcall,ended]
        exact iff_of_true ⟨_,_,ran⟩ fits
      · have ended := L.protect_long none {h with world := w} (L.onLuaError::s) called
          (Nat.not_lt.mp fits)
        refine iff_of_false (Prog.not_keeps ?_) fits
        simp [exec,pushed,lua_pcall,ended]
    · have silent : L.Silent f h.world ↔ rets = [] := by
        simp only [Silent,loaded,called]
      have ended := L.protect_ok (some L.onLuaError) none {h with world := w} (L.onLuaError::s)
        called
      have ran : L.exec (load f) failed (h,s) = some (true,({h with world := w'},
          (rets.reverse ++ L.onLuaError::s).tail)) := by
        have nonempty : 1 ≤ rets.length + (s.length + 1) := by omega
        simp [exec,pushed,lua_pcall,ended,adjust,
          Prog.remove,nonempty]
      rw [silent,Prog.keeps_iff ran]
      constructor
      · intro same
        have length := congrArg List.length same
        simp only [List.length_tail,List.length_append,List.length_reverse,List.length_cons]
          at length
        exact List.length_eq_zero_iff.mp (by omega)
      · rintro rfl
        rfl

/-- `ExecFunction` takes its arguments, a function and a handler, whatever these are. -/
theorem ExecFunction_run (args : List V) (f d : V) (h : Host ω) (s : List V) :
    (∃ b h', L.ExecFunction args.length 0 (h,args.reverse ++ f::d::s) = some (b,(h',s))) ∨
      d = L.onLuaError ∧ L.ExecFunction args.length 0 (h,args.reverse ++ f::d::s) = none := by
  have handler : Prog.peek (2 + args.length) (h,args.reverse ++ f::d::s) =
      some (d,(h,args.reverse ++ f::d::s)) := by
    rw [Nat.add_comm,← List.length_reverse]
    exact Prog.peek_append h (f::d::s) args.reverse 1
  have taken : Prog.take (args.length + 1) (h,args.reverse ++ f::d::s) =
      some (f::args,(h,d::s)) := by
    have whole := Prog.take_append h (d::s) (args.reverse ++ [f])
    simpa using whole
  rcases called : L.call h.world f args with ⟨w,e | rets⟩
  · by_cases fits : some d = some L.onLuaError → (L.report e).length < 1024
    · obtain ⟨v,w',ended⟩ := L.protect_error (some d) (some 0) h (d::s) called fits
      refine .inl ⟨false,({h with
        world := w', _fn := none, log := h.log ++ [.scriptError h._fn (L.tostring v)]}),?_⟩
      simp [ExecFunction,lua_pcall,handler,taken,ended]
    · rw [Classical.not_imp,Nat.not_lt,Option.some_inj] at fits
      obtain ⟨rfl,long⟩ := fits
      have ended := L.protect_long (some 0) h (L.onLuaError::s) called long
      refine .inr ⟨rfl,?_⟩
      simp [ExecFunction,lua_pcall,handler,taken,ended]
  · have ended := L.protect_ok (some d) (some 0) h (d::s) called
    refine .inl ⟨true,{h with world := w, _fn := none},?_⟩
    simp [ExecFunction,lua_pcall,handler,taken,ended,adjust]

theorem ExecFunction_takes {narg : Nat} {h : Host ω} {s : List V} {b : Bool}
    {t : Host ω × List V} (ran : L.ExecFunction narg 0 (h,s) = some (b,t)) :
    t.2.length + narg + 2 = s.length := by
  by_cases enough : narg + 2 ≤ s.length
  · obtain ⟨args,f,d,rest,length,rfl⟩ := exists_args enough
    rw [← length] at ran ⊢
    rcases L.ExecFunction_run args f d h rest with ⟨b',h',same⟩ | ⟨_,none_⟩
    · cases ran.symm.trans same
      simp only [List.length_append,List.length_reverse,List.length_cons]
      omega
    · cases ran.symm.trans none_
  · have short : s[narg+1]? = none := List.getElem?_eq_none (by omega)
    have none_ : Prog.peek (2 + narg) (h,s) = none := by
      rw [Nat.add_comm,Prog.peek,Nat.add_sub_assoc (by decide),short]
      rfl
    simp [ExecFunction,lua_pcall,none_] at ran

/-- The callback is there, and what is pushed before it is called is what is counted. -/
structure Calls (junk : Nat → Nat) (fuel : Nat) (_ctx : CtxObj) (cb : String) (sp : ByteBuffer)
    (w : ω) : Prop where
  defined : ∃ w' d f, L.lookup w cb = some (w',d,f) ∧ L.isNil f = false
  counted : _ctx.pushed = _ctx.counted
  complete : Complete junk fuel sp

theorem cb_script_timer_run (junk : Nat → Nat) {fuel n : Nat} {_ctx : CtxObj} {cb : String}
    {sp bb : ByteBuffer} {b : Bool} {s t u v : Host ω × List V}
    (first : L.PushFunction cb s = some (b,t)) (second : L.push_ctx _ctx t = some (n,u))
    (third : L.Push junk fuel sp u = some (bb,v)) :
    L.cb_script_timer junk fuel _ctx cb sp s =
      (L.ExecFunction (n+1) 0 v).bind fun r => some (bb,r.2) := by
  rw [cb_script_timer,Prog.bind_run,first,Option.bind_some,Prog.bind_run,second,
    Option.bind_some,Prog.bind_run,third,Option.bind_some,Prog.bind_run]
  rfl

theorem cb_script_timer_keeps (junk : Nat → Nat) (fuel : Nat) (_ctx : CtxObj) (cb : String)
    (sp : ByteBuffer) (h : Host ω) (s : List V) :
    (L.cb_script_timer junk fuel _ctx cb sp).Keeps (h,s) ↔
      L.Calls junk fuel _ctx cb sp h.world := by
  cases found : L.lookup h.world cb with
  | none =>
    refine iff_of_false (Prog.not_keeps ?_) fun calls => ?_
    · simp [cb_script_timer,L.PushFunction_none found]
    · obtain ⟨w,d,f,same,_⟩ := calls.defined
      cases found.symm.trans same
  | some found_ =>
    obtain ⟨w,d,f⟩ := found_
    by_cases complete : Complete junk fuel sp
    · obtain ⟨b,h₁,first⟩ := L.PushFunction_run found s
      obtain ⟨vs,h₂,second,length⟩ := L.push_ctx_run _ctx h₁ (if L.isNil f then s else f::d::s)
      obtain ⟨bb,h₃,v,third⟩ := L.Push_run complete h₂ (vs ++ if L.isNil f then s else f::d::s)
      have run := L.cb_script_timer_run junk first second third
      constructor
      · rintro ⟨bb',h',ran⟩
        rw [run] at ran
        obtain ⟨⟨b',h'',t⟩,ended,same⟩ := Option.bind_eq_some_iff.mp ran
        cases same
        have takes := L.ExecFunction_takes ended
        have below : _ctx.pushed ≤ _ctx.counted := by
          cases _ctx <;> simp [CtxObj.pushed,CtxObj.counted]
        cases nil : L.isNil f with
        | true =>
          simp only [nil,if_true,List.length_append,List.length_cons,length] at takes
          omega
        | false =>
          simp only [nil,Bool.false_eq_true,if_false,List.length_append,List.length_cons,length]
            at takes
          exact ⟨⟨w,d,f,found,nil⟩,by omega,complete⟩
      · rintro ⟨⟨w',d',f',same,nil⟩,counted,_⟩
        cases found.symm.trans same
        have args : (v::vs).reverse.length = _ctx.counted + 1 := by
          rw [List.length_reverse,List.length_cons,length,counted]
        rcases L.ExecFunction_run (v::vs).reverse f d h₃ s with ⟨b',h',ended⟩ | ⟨own,_⟩
        · rw [args,List.reverse_reverse,List.cons_append] at ended
          refine ⟨bb,h',?_⟩
          rw [run,nil,if_neg Bool.false_ne_true,ended]
          rfl
        · exact absurd own (L.lookup_other found)
    · refine iff_of_false (Prog.not_keeps ?_) fun calls => complete calls.complete
      obtain ⟨b,h₁,first⟩ := L.PushFunction_run found s
      simp [cb_script_timer,first,L.Push_none complete]

end LuaLib

end Pworld.Script
