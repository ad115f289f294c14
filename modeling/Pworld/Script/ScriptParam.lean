import Pworld.Buffer.Cursors
import Pworld.Lua.Space
import Pworld.Script.LuaEngine

/-! `ScriptParam`: a table kept as bytes, and pushed again by every call of a script timer.
The read cursor is never put back, so the second push finds what the first one left. -/
namespace Pworld.Script

open Lua

namespace ScriptParam

/-- `fresh` is the block `Resize` gets. -/
def Init (wild : Double → BitVec 64) (t : Value) (fresh : Option Bytes) (_params : ByteBuffer) :
    Bool × ByteBuffer :=
  let _params := if _params.size = 0 then _params.resize (16*1024) fresh else _params
  Lua.Serialize wild t _params.reset

/-- The move constructor, which has made a buffer of its own before. -/
def move (rhs : ByteBuffer) : ByteBuffer := (ByteBuffer.new 0 none).moveFrom rhs

/-- The table pushed, with the parameters left. -/
def Push (junk : Nat → Nat) (n : Nat) (_params : ByteBuffer) :
    Option (Except Stop (Value × ByteBuffer)) :=
  if _params.avail = 0 then some (.ok (.table ⟨false,false,0⟩ [],_params))
  else (Lua.Deserialize junk n _params).map (Except.map fun (v,r) =>
    (v.getD (.table ⟨false,false,0⟩ []),r.bb))

end ScriptParam

namespace LuaLib

variable {ω V : Type} (L : LuaLib ω V)

/-- What is on top when `cb_script_timer` calls the function: the parameters. -/
def passed (junk : Nat → Nat) (fuel : Nat) (_ctx : CtxObj) (cb : String) (sp : ByteBuffer) :
    Api ω V V := do
  let _ ← L.PushFunction cb
  let _ ← L.push_ctx _ctx
  let _ ← L.Push junk fuel sp
  Stack.Prog.peek 1

theorem Push_pushes {junk : Nat → Nat} {n : Nat} {_params left : ByteBuffer}
    {s s' : Host ω × List V} (ran : L.Push junk n _params s = some (left,s')) :
    ∃ v, ScriptParam.Push junk n _params = some (.ok (v,left)) ∧
      s'.2 = (L.newtable s.1.world v).2 :: s.2 := by
  unfold Push at ran
  unfold ScriptParam.Push
  by_cases empty : _params.avail = 0
  · rw [if_pos empty] at ran ⊢
    cases ran
    exact ⟨_,rfl,rfl⟩
  · rw [if_neg empty] at ran ⊢
    generalize Lua.Deserialize junk n _params = read at ran ⊢
    rcases read with _ | (stop | ⟨v,r⟩)
    · cases ran
    · cases ran
    · cases v with
      | none =>
        cases ran
        exact ⟨_,rfl,rfl⟩
      | some v =>
        cases ran
        exact ⟨_,rfl,rfl⟩

variable {junk : Nat → Nat} {fuel : Nat} {_ctx : CtxObj} {cb : String} {sp : ByteBuffer}

theorem cb_script_timer_pushes [DecidableEq V] {left : ByteBuffer} {s s' : Host ω × List V}
    (ran : L.cb_script_timer junk fuel _ctx cb sp s = some (left,s')) :
    ∃ v, ScriptParam.Push junk fuel sp = some (.ok (v,left)) := by
  simp only [cb_script_timer,Stack.Prog.bind_run,Option.bind_eq_some_iff,Stack.Prog.pure_run] at ran
  obtain ⟨_,_,_,_,⟨bb,t⟩,pushed,_,_,same⟩ := ran
  cases same
  obtain ⟨v,pushed,_⟩ := L.Push_pushes pushed
  exact ⟨v,pushed⟩

theorem passed_pushes {a : V} {s s' : Host ω × List V}
    (ran : L.passed junk fuel _ctx cb sp s = some (a,s')) :
    ∃ w v left, ScriptParam.Push junk fuel sp = some (.ok (v,left)) ∧ a = (L.newtable w v).2 := by
  simp only [passed,Stack.Prog.bind_run,Option.bind_eq_some_iff] at ran
  obtain ⟨_,_,⟨_,u⟩,_,⟨bb,h,t⟩,pushed,top⟩ := ran
  obtain ⟨v,pushed,pushes⟩ := L.Push_pushes pushed
  simp only at pushes
  rw [pushes] at top
  cases top
  exact ⟨u.1.world,v,bb,pushed,rfl⟩

end LuaLib

/-- A call of `Push`, with the moves before it and the memory of its locals. -/
structure Call where
  moves : Nat
  junk : Nat → Nat

/-- A call of `cb_script_timer`, with the moves before it. -/
structure Firing (ω V : Type) where
  moves : Nat
  junk : Nat → Nat
  fuel : Nat
  _ctx : CtxObj
  cb : String
  s : Host ω × List V

namespace ScriptParam

def push (n : Nat) (_params : ByteBuffer) (c : Call) : Option ByteBuffer :=
  (Push c.junk n (move^[c.moves] _params)).bind fun out => out.toOption.map Prod.snd

def fire {ω V : Type} [DecidableEq V] (L : LuaLib ω V) (sp : ByteBuffer) (f : Firing ω V) :
    Option ByteBuffer :=
  (L.cb_script_timer f.junk f.fuel f._ctx f.cb (move^[f.moves] sp) f.s).map Prod.fst

/-- Every call of `Push` pushes `t`, and every firing of a timer passes it. -/
structure Delivers (_params : ByteBuffer) (t : Value) : Prop where
  pushes : ∀ (cs : List Call) (c : Call), ∃ n, ∀ m, n ≤ m → ∃ left v left',
    Runs.run (push m) _params cs = some left ∧
      Push c.junk m (move^[c.moves] left) = some (.ok (v,left')) ∧ Same t v
  firings : ∀ (ω V : Type) [DecidableEq V] (L : LuaLib ω V) (fs : List (Firing ω V))
    (f : Firing ω V) left a s', Runs.run (fire L) _params fs = some left →
      L.passed f.junk f.fuel f._ctx f.cb (move^[f.moves] left) f.s = some (a,s') →
      ∃ w v, a = (L.newtable w v).2 ∧ Same t v

theorem moves_same (p : ByteBuffer) (n : Nat) (ok : p.Ok) :
    (move^[n] p).Ok ∧ (move^[n] p).readable = p.readable := by
  induction n generalizing p with
  | zero => exact ⟨ok,rfl⟩
  | succ n ih =>
    rw [Function.iterate_succ_apply]
    exact ih (move p) ⟨ok.order,ok.within,ok.word,ok.fits,ok.small⟩

theorem push_some {m : Nat} {p left : ByteBuffer} {c : Call} :
    push m p c = some left ↔ ∃ v, Push c.junk m (move^[c.moves] p) = some (.ok (v,left)) := by
  unfold push
  generalize Push c.junk m (move^[c.moves] p) = out
  rcases out with _ | (stop | ⟨v,left'⟩)
  · simp
  · simp [Except.toOption]
  · simp [Except.toOption]

theorem Push_empty {p : ByteBuffer} (ok : p.Ok) (empty : p.readable = []) (junk : Nat → Nat)
    (n : Nat) : Push junk n p = some (.ok (.table ⟨false,false,0⟩ [],p)) := by
  have none_ : p.avail = 0 := by
    rw [ByteBuffer.avail_readable ok,empty,List.length_nil]
  rw [Push,if_pos none_]

theorem Push_cons {p : ByteBuffer} (ok : p.Ok) {b : UInt8} {bs : Bytes}
    (some_ : p.readable = b::bs) (junk : Nat → Nat) (n : Nat) :
    Push junk n p = (Lua.Deserialize junk n p).map (Except.map fun (v,r) =>
      (v.getD (.table ⟨false,false,0⟩ []),r.bb)) := by
  have more : p.avail ≠ 0 := by
    rw [ByteBuffer.avail_readable ok,some_,List.length_cons]
    exact Nat.succ_ne_zero _
  rw [Push,if_neg more]

/-- The encoding of a table without entries, or what is left of it. -/
structure Hollow (p : ByteBuffer) : Prop where
  ok : p.Ok
  bytes : p.readable = [] ∨ ∃ b, (LuaValueType.ofCode b.toNat).isTable ∧ p.readable = [b,0]

theorem Hollow.moves {p : ByteBuffer} (hollow : Hollow p) (n : Nat) : Hollow (move^[n] p) := by
  obtain ⟨ok,same⟩ := moves_same p n hollow.ok
  exact ⟨ok,by rw [same]; exact hollow.bytes⟩

theorem hollow_pushes {p : ByteBuffer} (hollow : Hollow p) (junk : Nat → Nat) (n : Nat) :
    ∃ left, Hollow left ∧ Push junk (n+1) p = some (.ok (.table ⟨false,false,0⟩ [],left)) := by
  obtain ⟨ok,empty | ⟨b,table,bytes⟩⟩ := hollow
  · exact ⟨p,⟨ok,.inl empty⟩,Push_empty ok empty junk (n+1)⟩
  · have at_ := start_at ok
    rw [bytes] at at_
    have at' := at_.next.call.next
    have filled : deserializeTable junk (n+1) (.ofCode b.toNat) [] (start p) =
        some (.ok ([],(start p).call.advance 1)) := by
      have loop := table_loop junk table n at_.next []
      rw [Loop.iterate_leave n (r := .ok ([],(start p).call.advance 1)) rfl] at loop
      exact loop
    refine ⟨_,⟨at'.ok,.inl at'.readable⟩,?_⟩
    rw [Push_cons ok bytes,deserialize_table junk at_ table,filled]
    rfl

theorem hollow_push {p left : ByteBuffer} (hollow : Hollow p) {junk : Nat → Nat} {n : Nat}
    {v : Value} (ran : Push junk n p = some (.ok (v,left))) :
    Hollow left ∧ v = .table ⟨false,false,0⟩ [] := by
  cases n with
  | zero =>
    obtain ⟨ok,empty | ⟨b,table,bytes⟩⟩ := hollow
    · cases (Push_empty ok empty junk 0).symm.trans ran
      exact ⟨⟨ok,.inl empty⟩,rfl⟩
    · have at_ := start_at ok
      rw [bytes] at at_
      rw [Push_cons ok bytes,deserialize_table junk at_ table] at ran
      cases ran
  | succ n =>
    obtain ⟨left',hollow',ran'⟩ := hollow_pushes hollow junk n
    cases ran'.symm.trans ran
    exact ⟨hollow',rfl⟩

theorem same_empty {t : Value} (table : t.isTable = true) (empty : t.entries = []) :
    Same t (.table ⟨false,false,0⟩ []) := by
  cases t with
  | table shape es =>
    cases (empty : es = [])
    exact .table fun _ => .leaf rfl
  | nil | bool | int | flt | str | other => cases table

theorem hollow_delivers {p : ByteBuffer} (hollow : Hollow p) {t : Value}
    (table : t.isTable = true) (empty : t.entries = []) : Delivers p t := by
  have same := same_empty table empty
  constructor
  · intro cs c
    refine ⟨1,fun m le => ?_⟩
    obtain ⟨m,rfl⟩ : ∃ k, m = k+1 := ⟨m-1,by omega⟩
    induction cs generalizing p with
    | nil =>
      obtain ⟨left,_,pushed⟩ := hollow_pushes (hollow.moves c.moves) c.junk m
      exact ⟨p,_,left,rfl,pushed,same⟩
    | cons c' cs ih =>
      obtain ⟨left,hollow',pushed⟩ := hollow_pushes (hollow.moves c'.moves) c'.junk m
      obtain ⟨end_,v,left',ran,last⟩ := ih hollow'
      refine ⟨end_,v,left',?_,last⟩
      rw [Runs.run_cons,push_some.mpr ⟨_,pushed⟩]
      exact ran
  · intro ω V _ L fs f left a s' ran passes
    have hollow' : Hollow left := by
      apply Runs.run_pres Hollow _ hollow ran
      intro sp f sp' hollow fired
      obtain ⟨⟨left,s''⟩,ended,rfl⟩ := Option.map_eq_some_iff.mp fired
      obtain ⟨v,pushed⟩ := L.cb_script_timer_pushes ended
      exact (hollow_push (hollow.moves f.moves) pushed).1
    obtain ⟨w,v,left',pushed,arg⟩ := L.passed_pushes passes
    rw [(hollow_push (hollow'.moves f.moves) pushed).2] at arg
    exact ⟨w,_,arg,same⟩

theorem reads_length {item : Lua.Item} {bs : Bytes} {out : Option Bytes}
    (reads : Reads item bs out) : ∀ rest, out = some rest → rest.length ≤ bs.length := by
  induction reads with
  | scalar | short | endless | done =>
    intro rest same
    cases same
    simp
  | str =>
    intro rest same
    cases same
    rw [List.length_append,List.length_cons]
    omega
  | table _ _ ih | elem _ ih => exact ih
  | pair _ _ _ ihKey ihVal =>
    intro rest same
    exact (ihVal rest same).trans (ihKey _ rfl)
  | nanKey | keyRaised | valRaised | raised => exact fun _ same => nomatch same
  | more _ _ _ ihRound ihTail =>
    intro rest same
    exact ((ihTail rest same).trans (ihRound _ rfl)).trans (Nat.le_succ _)

/-- On what `stale` leaves in the locals, a push that comes back has read a byte, and a
table not only its type. -/
theorem push_consumes {p left : ByteBuffer} (ok : p.Ok) {m : Nat} {v : Value}
    (ran : Push stale m p = some (.ok (v,left))) : left.Ok ∧ left.readable.length ≤
      p.readable.length - 1 ∧ ∀ b, (LuaValueType.ofCode b.toNat).isTable → p.readable ≠ [b] := by
  cases bytes : p.readable with
  | nil =>
    cases (Push_empty ok bytes stale m).symm.trans ran
    exact ⟨ok,by rw [bytes]; exact Nat.zero_le _,fun _ _ same => nomatch same⟩
  | cons b bs =>
    have at_ := start_at ok
    rw [bytes] at at_
    rw [Push_cons ok bytes] at ran
    by_cases table : (LuaValueType.ofCode b.toNat).isTable
    · have means := deserializeTable_means m (.ofCode b.toNat) [] _ _ _ table at_.next
      rw [deserialize_table stale at_ table] at ran
      change Means _ _ (deserializeTable stale m (.ofCode b.toNat) [] (start p)) at means
      generalize deserializeTable stale m (.ofCode b.toNat) [] (start p) = filled at means ran
      rcases filled with _ | (stop | ⟨es,r⟩)
      · cases ran
      · cases ran
      · cases ran
        obtain ⟨rest,at',reads⟩ := means
        have length := reads_length reads rest rfl
        obtain ⟨b',tail,rfl⟩ := body_cons reads
        refine ⟨at'.ok,?_,fun _ _ same => nomatch same⟩
        rw [at'.readable]
        exact length
    · rw [deserialize_other stale at_ table] at ran
      cases ran
      have at' := at_.next
      refine ⟨at'.ok,Nat.le_of_eq (congrArg List.length at'.readable),fun b' table' same => ?_⟩
      cases same
      exact table table'

theorem pushes_consume {m n : Nat} {p left : ByteBuffer} (ok : p.Ok)
    (ran : Runs.run (push m) p (List.replicate n ⟨0,stale⟩) = some left) :
    left.Ok ∧ left.readable.length ≤ p.readable.length - n := by
  induction n generalizing p with
  | zero =>
    cases ran
    exact ⟨ok,Nat.le_refl _⟩
  | succ n ih =>
    obtain ⟨p',pushed,rest⟩ := Runs.run_cons_some ran
    obtain ⟨v,pushed⟩ := push_some.mp pushed
    obtain ⟨ok',fewer,_⟩ := push_consumes ok pushed
    obtain ⟨okLeft,less⟩ := ih ok' rest
    exact ⟨okLeft,by omega⟩

theorem delivers_empty {p : ByteBuffer} (ok : p.Ok) {t : Value} (table : t.isTable = true)
    (keyed : Keyed t.entries) (some_ : ∀ e ∈ t.entries, e.2.isNil = false)
    (delivers : Delivers p t) : t.entries = [] := by
  obtain ⟨n,pushes⟩ := delivers.pushes (List.replicate p.readable.length ⟨0,stale⟩) ⟨0,stale⟩
  obtain ⟨left,v,left',ran,pushed,same⟩ := pushes n (Nat.le_refl n)
  obtain ⟨ok',short⟩ := pushes_consume ok ran
  rw [Nat.sub_self] at short
  have empty := List.eq_nil_of_length_eq_zero (Nat.le_zero.mp short)
  cases (Push_empty ok' empty stale n).symm.trans pushed
  cases t with
  | table shape es => exact (cut_same keyed some_).mp same
  | nil | bool | int | flt | str | other => cases table

/-- A write into a full buffer leaves what can be read. -/
theorem puts_full {bb : ByteBuffer} (ok : bb.Ok) (full : bb.wrPtr = bb.size) (puts : List Put) :
    (puts.foldl Put.run bb).readable = bb.readable := by
  have in_full (data : Bytes) {bb : ByteBuffer} (ok : bb.Ok) (full : bb.wrPtr = bb.size) :
      (bb.In data).2.Ok ∧ (bb.In data).2.wrPtr = (bb.In data).2.size ∧
        (bb.In data).2.readable = bb.readable := by
    by_cases space : data.length ≤ bb.size - bb.wrPtr
    · obtain ⟨bb',same,ok',readable,_,wrPtr,size,_⟩ := ByteBuffer.in_spec ok space
      have none_ : data = [] := List.eq_nil_of_length_eq_zero (by omega)
      rw [none_,List.append_nil] at readable
      rw [same]
      exact ⟨ok',by rw [wrPtr,size,none_]; exact full,readable⟩
    · rw [ByteBuffer.in_short ok (by omega)]
      exact ⟨ok,full,rfl⟩
  induction puts generalizing bb with
  | nil => rfl
  | cons p puts ih =>
    have first : (p.run bb).Ok ∧ (p.run bb).wrPtr = (p.run bb).size ∧
        (p.run bb).readable = bb.readable := by
      cases p with
      | int w n => exact in_full _ ok full
      | str s => exact in_full _ ok full
    rw [List.foldl_cons,ih first.1 first.2.1,first.2.2]

section
variable (wild : Double → BitVec 64) {t : Value}

theorem encode_empty (empty : t.entries = []) :
    encode wild t = [.int 1 (getLuaTypeTable t).code,.int 1 0] := by
  have body : serializeTable wild (maxDepth-1) (getLuaTypeTable t) t = [.int 1 0] := by
    rcases typeTable_isTable t with same | same
    · have none_ (i : Nat) : serializeVal (serializeTable wild 14)
          (getLuaType wild (rawget t.entries (.int (BitVec.ofNat 64 (i+1)))))
          (rawget t.entries (.int (BitVec.ofNat 64 (i+1)))) = [] := by
        rw [empty]
        rfl
      have nothing := List.flatMap_eq_nil_iff.mpr fun i (_ : i ∈ List.range t.shape.border) =>
        none_ i
      rw [same]
      simp only [maxDepth,serializeTable,nothing,List.nil_append]
      rfl
    · rw [same]
      simp only [maxDepth,serializeTable,empty,List.flatMap_nil,List.nil_append]
      rfl
  rw [encode,body]

theorem init_prepared {p : ByteBuffer} (good : p.Good) (owned : p.attach = false) {fresh : Bytes}
    (length : fresh.length = 16*1024) : ∃ q : ByteBuffer, q.Ok ∧ q.readable = [] ∧ q.wrPtr = 0 ∧
      q.size = (if p.size = 0 then 16*1024 else p.size) ∧
      Init wild t (some fresh) p = Lua.Serialize wild t q := by
  have cleared {b : ByteBuffer} (good : b.Good) : b.reset.Ok ∧ b.reset.readable = [] := by
    have valid : BufferOp.reset.Valid := trivial
    have ok := ((ByteBuffer.apply_good good valid).mpr trivial).1
    exact ⟨ok,List.eq_nil_of_length_eq_zero (ByteBuffer.readable_length ok)⟩
  by_cases none_ : p.size = 0
  · have grown : (p.resize (16*1024) (some fresh)).Good := by
      apply (ByteBuffer.resize_good good ⟨by decide,?_⟩).mpr fun _ _ => rfl
      intro mem here
      cases here
      exact length
    obtain ⟨ok,empty⟩ := cleared grown
    refine ⟨_,ok,empty,rfl,?_,?_⟩
    · have more : ¬(p.attach = true ∨ 16*1024 ≤ p.size) := by
        rw [owned,none_]
        decide
      rw [if_pos none_,ByteBuffer.resize,if_neg more]
      rfl
    · simp only [Init,if_pos none_]
  · obtain ⟨ok,empty⟩ := cleared good
    refine ⟨_,ok,empty,rfl,?_,?_⟩
    · rw [if_neg none_]
      rfl
    · simp only [Init,if_neg none_]

theorem init_hollow {q : ByteBuffer} (ok : q.Ok) (clear : q.readable = []) (start : q.wrPtr = 0)
    (two : 2 ≤ q.size) (table : t.isTable = true) (empty : t.entries = []) :
    Hollow (Lua.Serialize wild t q).2 := by
  have space : (bytesOf (encode wild t)).length ≤ q.size - q.wrPtr := by
    rw [encode_empty wild empty,start]
    exact two
  have written := puts_run ok space
  rw [serialize_table table]
  refine ⟨written.ok,.inr ⟨UInt8.ofNat (getLuaTypeTable t).code,?_,?_⟩⟩
  · rw [byte_code,LuaValueType.ofCode_code]
    exact typeTable_isTable t
  · have readable := written.readable
    rw [clear,encode_empty wild empty] at readable
    rw [encode_empty wild empty]
    exact readable

/-- In one byte there is room for the type only. -/
theorem init_cut {q : ByteBuffer} (ok : q.Ok) (clear : q.readable = []) (start : q.wrPtr = 0)
    (one : q.size = 1) (table : t.isTable = true) :
    (Lua.Serialize wild t q).2.readable = [UInt8.ofNat (getLuaTypeTable t).code] := by
  have first := put_run ok (p := .int 1 (getLuaTypeTable t).code)
    (by rw [start,one]; exact Nat.le_refl 1)
  have full : (Put.run q (.int 1 (getLuaTypeTable t).code)).wrPtr =
      (Put.run q (.int 1 (getLuaTypeTable t).code)).size := by
    rw [first.wrPtr,first.size,start,one]
    rfl
  rw [serialize_table table,encode,List.foldl_cons,puts_full first.ok full,first.readable,clear]
  rfl

theorem script_param_delivers {p : ByteBuffer} (good : p.Good) (owned : p.attach = false)
    {fresh : Bytes} (length : fresh.length = 16*1024) (table : t.isTable = true)
    (keyed : Keyed t.entries) (some_ : ∀ e ∈ t.entries, e.2.isNil = false) :
    Delivers (Init wild t (some fresh) p).2 t ↔ t.entries = [] ∧ p.size ≠ 1 := by
  obtain ⟨q,ok,clear,start,size,same⟩ := init_prepared wild (t := t) good owned length
  rw [same]
  have ok' : (Lua.Serialize wild t q).2.Ok := by
    rw [serialize_table table]
    exact (puts_extend ok _).ok
  constructor
  · intro delivers
    refine ⟨delivers_empty ok' table keyed some_ delivers,fun one => ?_⟩
    rw [one,if_neg (by decide)] at size
    obtain ⟨n,pushes⟩ := delivers.pushes [] ⟨0,stale⟩
    obtain ⟨left,v,left',ran,pushed,_⟩ := pushes n (Nat.le_refl n)
    cases ran
    obtain ⟨_,_,whole⟩ := push_consumes ok' pushed
    refine whole _ ?_ (init_cut wild ok clear start size table)
    rw [byte_code,LuaValueType.ofCode_code]
    exact typeTable_isTable t
  · intro ⟨empty,more⟩
    refine hollow_delivers (init_hollow wild ok clear start ?_ table empty) table empty
    rw [size]
    split_ifs <;> omega

end

theorem script_param_delivers_empty :
    Delivers (Init tame (.table ⟨false,false,0⟩ []) (some (List.replicate (16*1024) 0))
      (.new 0 none)).2 (.table ⟨false,false,0⟩ []) :=
  (script_param_delivers tame (by decide) rfl List.length_replicate rfl
    ⟨fun _ member => absurd member List.not_mem_nil,.nil⟩
    fun _ member => absurd member List.not_mem_nil).mpr ⟨rfl,by decide⟩

/-- `{true}` comes back as it was, once. -/
theorem script_param_spent : (∀ junk, RoundTrips tame junk (nest 0) roomy) ∧
    ¬Delivers (Init tame (nest 0) (some (List.replicate (16*1024) 0)) (.new 0 none)).2 (nest 0) := by
  have keyed : Keyed (nest 0).entries := ⟨by simp [nest,Value.entries,Value.isKey],
    List.pairwise_singleton _ _⟩
  constructor
  · intro junk
    have ok : roomy.Ok := by decide
    apply (roundTrips_image tame junk rfl ok (by decide) (by decide +kernel)).mpr
    exact (tableImage_same tame (plain_nest 0) rfl ok (by decide +kernel)).mpr (faithful_nest 14)
  · intro delivers
    obtain ⟨q,ok,_,_,_,same⟩ := init_prepared tame (t := nest 0) (p := .new 0 none) (by decide) rfl
      (List.length_replicate (n := 16*1024) (a := (0 : UInt8)))
    rw [same,serialize_table rfl] at delivers
    have written := puts_extend ok (encode tame (nest 0))
    generalize (encode tame (nest 0)).foldl Put.run q = q' at written delivers
    have empty := delivers_empty written.ok rfl keyed (by simp [nest,Value.entries,Value.isNil])
      delivers
    cases empty

end ScriptParam

end Pworld.Script
