import Pworld.Support.Bytes
import Pworld.Support.Runs
import Mathlib.Data.List.Basic

/-! Prepared statements: the buffers of a result are allocated when the statement is prepared,
filled by each fetch and read by `GetBinary`. The client library is a parameter. -/
namespace Pworld.Db

/-- The value of a column as it is delivered, nothing for NULL. -/
abbrev Value := Option Bytes

/-- `MYSQL_BIND`, with the memory its pointers lead to. -/
structure Bind where
  buffer_type : Nat
  buffer : Bytes  -- all `buffer_length` bytes of it
  length : Nat
  is_null : Bool
  deriving DecidableEq,Repr

/-- What is used of libmysqlclient: `sizeof(MYSQL_TIME)`, fresh memory of a size, the
`max_length` of a column before and after `mysql_stmt_store_result`, and what
`mysql_stmt_fetch` stores for a column that is bound. -/
structure Client where
  timeSize : Nat
  malloc : Nat → Bytes
  max_length : Bool → Nat → Nat
  fetch : Bind → Value → Bind

structure Client.Lawful (client : Client) : Prop where
  malloc_length : ∀ n, (client.malloc n).length = n
  max_length_zero : ∀ i, client.max_length false i = 0
  room : ∀ b v, (client.fetch b v).buffer.length = b.buffer.length
  null : ∀ b, (client.fetch b none).is_null = true
  present : ∀ b v, (client.fetch b (some v)).is_null = false
  length : ∀ b v, (client.fetch b (some v)).length = v.length
  copied : ∀ b v, (client.fetch b (some v)).buffer =
    Bytes.overwrite b.buffer 0 (v.take b.buffer.length)

/-- What `mysql_stmt_fetch` returns: 0, 1, `MYSQL_NO_DATA` or `MYSQL_DATA_TRUNCATED`. -/
inductive Fetch where
  | row (values : List Value)
  | error (err_no : Nat)
  | noData
  | truncated (values : List Value)
  deriving DecidableEq,Repr

/-- What `memcpy` took from a buffer, and how many of the bytes lay behind it. -/
structure Copied where
  bytes : Bytes
  outside : Nat
  deriving DecidableEq,Repr

/-- All the bytes read are the value's, and none comes from behind the buffer. -/
def Copied.Exact (c : Copied) (value : Option Value) : Prop :=
  value = some (some c.bytes) ∧ c.outside = 0

/-- `beyond` is what lies behind the buffer in memory. -/
def Bind.copyOut (b : Bind) (beyond : Nat → UInt8) : Copied where
  bytes := b.buffer.take b.length ++ (List.range (b.length - b.buffer.length)).map beyond
  outside := b.length - b.buffer.length

structure MysqlHandler where
  _alive : Bool
  report : Bool  -- `MYSQL_REPORT_DATA_TRUNCATION` of `_mysql`
  deriving DecidableEq,Repr

namespace MysqlHandler

def OnError (h : MysqlHandler) (err_no : Nat) : MysqlHandler :=
  if err_no = 2006 ∨ err_no = 2013 ∨ err_no = 2055 then {h with _alive := false} else h

/-- The errors are those of setting the character set, where one is asked for, and of
connecting. -/
def Connect (h : MysqlHandler) (charset connect : Option Nat) : Bool × MysqlHandler :=
  let h := {h with report := false}
  match charset,connect with
  | some err_no,_ => (false,h.OnError err_no)
  | none,some err_no => (false,h.OnError err_no)
  | none,none => (true,{h with _alive := true})

end MysqlHandler

/-- `bound` tells whether `mysql_stmt_bind_result` took the buffers. -/
structure MysqlQueryResultStmt where
  _result_bind : List Bind
  bound : Bool
  deriving DecidableEq,Repr

namespace MysqlQueryResultStmt

variable (client : Client)

def newBind (stored : Bool) (i type : Nat) : Bind :=
  let max_length := client.max_length stored i
  let max_length := if max_length = 0 then client.timeSize else max_length
  {buffer_type := type, buffer := client.malloc max_length, length := 0, is_null := false}

def new (stored : Bool) (types : List Nat) (bound : Bool) : MysqlQueryResultStmt where
  _result_bind := types.mapIdx fun i type => newBind client stored i type
  bound := bound

-- with nothing bound there is nowhere to store a row
def fetched (r : MysqlQueryResultStmt) (values : List Value) : MysqlQueryResultStmt :=
  if r.bound then {r with _result_bind := List.zipWith client.fetch r._result_bind values} else r

def NextRow (r : MysqlQueryResultStmt) : Fetch → Bool × MysqlQueryResultStmt
  | .row values => (true,r.fetched client values)
  | .error _ => (false,r)
  | .noData => (false,r)
  | .truncated values => (false,r.fetched client values)

/-- Nothing is a null pointer. -/
def GetBinary (r : MysqlQueryResultStmt) (beyond : Nat → UInt8) (idx size : Nat) : Option Copied :=
  match r._result_bind[idx]? with
  | none => none
  | some b =>
    if b.is_null then none
    else if b.length > size then none
    else some (b.copyOut beyond)

end MysqlQueryResultStmt

/-- What preparing a statement meets: the error of the calls up to `mysql_stmt_prepare`, the
parameters, the types of the columns where there is a result, and the error of binding it. -/
structure Prepared where
  error : Option Nat
  params : Nat
  types : Option (List Nat)
  bind : Option Nat
  deriving DecidableEq,Repr

/-- The errors that `Execute` may meet, in their order. -/
structure Executed where
  bind_param : Option Nat
  execute : Option Nat
  store_result : Option Nat
  deriving DecidableEq,Repr

structure MysqlHanderStmt where
  _param_count : Nat
  _query_result : Option MysqlQueryResultStmt
  deriving DecidableEq,Repr

namespace MysqlHanderStmt

variable (client : Client)

def _init (h : MysqlHandler) (p : Prepared) : MysqlHanderStmt × MysqlHandler :=
  match p.error with
  | some err_no => (⟨0,none⟩,h.OnError err_no)
  | none =>
    match p.types with
    | none => (⟨p.params,none⟩,h)
    -- no result has been stored yet
    | some types =>
      (⟨p.params,some (.new client false types p.bind.isNone)⟩,(p.bind.map h.OnError).getD h)

/-- Whether the result is returned. -/
def Execute (t : MysqlHanderStmt) (h : MysqlHandler) (e : Executed) : Bool × MysqlHandler :=
  match (if t._param_count ≠ 0 then e.bind_param else none),e.execute with
  | some err_no,_ => (false,h.OnError err_no)
  | none,some err_no => (false,h.OnError err_no)
  | none,none =>
    if t._query_result.isNone then (false,h)
    else
      match e.store_result with
      | some err_no => (false,h.OnError err_no)
      | none => (true,h)

end MysqlHanderStmt

/-- A connection and one statement of it. `given` tells whether the caller has the result, and
`row` is the row of the last `NextRow`, where that returned true. -/
structure Statement where
  handler : MysqlHandler
  stmt : Option MysqlHanderStmt
  given : Bool
  row : Option (List Value)
  deriving DecidableEq,Repr

inductive StatementOp where
  | connect (charset connect : Option Nat)
  | init (p : Prepared)
  | execute (e : Executed)
  | nextRow (ret : Fetch)
  deriving DecidableEq,Repr

namespace Statement

variable (client : Client)

-- the option is on in a new connection
def start : Statement := ⟨⟨false,true⟩,none,false,none⟩

def fits (binds : List Bind) (values : List Value) : Bool :=
  (binds.zip values).all fun x => x.2.all fun v => v.length ≤ x.1.buffer.length

/-- What the library can return: a row has a value for each column, and one that does not fit is
reported as truncated where that is asked for. -/
def returns (report : Bool) (r : MysqlQueryResultStmt) : Fetch → Bool
  | .row values => values.length = r._result_bind.length &&
      (!report || !r.bound || fits r._result_bind values)
  | .truncated values => values.length = r._result_bind.length &&
      (report && r.bound && !fits r._result_bind values)
  | _ => true

def result (s : Statement) : Option MysqlQueryResultStmt := s.stmt.bind (·._query_result)

def fetchRow (s : Statement) (t : MysqlHanderStmt) (r : MysqlQueryResultStmt) (ret : Fetch) :
    Option Statement :=
  if returns s.handler.report r ret then
    let n := r.NextRow client ret
    some {s with
      stmt := some {t with _query_result := some n.2}
      handler := match ret with
        | .error err_no => s.handler.OnError err_no
        | _ => s.handler
      row := match ret with
        | .row values => some values
        | _ => none}
  else none

def step (s : Statement) : StatementOp → Option Statement
  | .connect charset connect => some {s with handler := (s.handler.Connect charset connect).2}
  | .init p =>
    if s.stmt.isSome then none
    else
      let made := MysqlHanderStmt._init client s.handler p
      some {s with stmt := some made.1, handler := made.2, row := none}
  | .execute e => s.stmt.map fun t =>
    let done := t.Execute s.handler e
    {s with handler := done.2, given := s.given || done.1, row := none}
  | .nextRow ret =>
    if !s.given then none
    else s.stmt.bind fun t => t._query_result.bind fun r => s.fetchRow client t r ret

variable {client : Client}

/-- What the buffers are in every state of a run: each has the size of a `MYSQL_TIME`, and holds
what the last fetch stored in it. -/
structure Bound (client : Client) (r : MysqlQueryResultStmt) (row : Option (List Value)) : Prop where
  room : ∀ b ∈ r._result_bind, b.buffer.length = client.timeSize
  fresh : r.bound = false → ∀ b ∈ r._result_bind, b.length = 0 ∧ b.is_null = false
  stored : ∀ values, row = some values → values.length = r._result_bind.length ∧
    (r.bound = true → ∃ old : List Bind, old.length = values.length ∧
      (∀ b ∈ old, b.buffer.length = client.timeSize) ∧
      r._result_bind = List.zipWith client.fetch old values)

def Inv (client : Client) (s : Statement) : Prop := ∀ r, s.result = some r → Bound client r s.row

theorem Bound.new (lawful : client.Lawful) (types : List Nat) (bound : Bool) :
    Bound client (.new client false types bound) none := by
  refine ⟨?_,?_,fun _ impossible => by cases impossible⟩
  · intro b member
    obtain ⟨i,_,rfl⟩ := List.mem_mapIdx.mp member
    have zero := lawful.max_length_zero i
    simp only [MysqlQueryResultStmt.newBind,zero,if_true,lawful.malloc_length]
  · intro _ b member
    obtain ⟨i,_,rfl⟩ := List.mem_mapIdx.mp member
    exact ⟨rfl,rfl⟩

theorem Bound.forget {r : MysqlQueryResultStmt} {row : Option (List Value)}
    (bound : Bound client r row) : Bound client r none :=
  ⟨bound.room,bound.fresh,fun _ impossible => by cases impossible⟩

theorem Bound.fetched (lawful : client.Lawful) {r : MysqlQueryResultStmt}
    {row : Option (List Value)} {values : List Value} (bound : Bound client r row)
    (length : values.length = r._result_bind.length) :
    Bound client (r.fetched client values) (some values) := by
  unfold MysqlQueryResultStmt.fetched
  split
  next yes =>
    refine ⟨?_,?_,?_⟩
    · intro b member
      obtain ⟨i,at_⟩ := List.getElem?_of_mem member
      obtain ⟨old,v,at',_,rfl⟩ := List.getElem?_zipWith_eq_some.mp at_
      rw [lawful.room]
      exact bound.room old (List.mem_of_getElem? at')
    · intro no
      cases yes.symm.trans no
    · intro values' same
      cases same
      refine ⟨?_,fun _ => ⟨r._result_bind,length.symm,bound.room,rfl⟩⟩
      rw [List.length_zipWith,length,Nat.min_self]
  next no =>
    refine ⟨bound.room,bound.fresh,?_⟩
    intro values' same
    cases same
    exact ⟨length,fun yes => absurd yes no⟩

theorem inv_fetchRow (lawful : client.Lawful) {s s' : Statement} {t : MysqlHanderStmt}
    {r : MysqlQueryResultStmt} {ret : Fetch} (bound : Bound client r s.row)
    (stepped : s.fetchRow client t r ret = some s') : Inv client s' := by
  unfold fetchRow at stepped
  split at stepped
  next given =>
    cases stepped
    intro r' same
    cases same
    cases ret with
    | row values =>
      simp only [returns,Bool.and_eq_true,decide_eq_true_eq] at given
      exact bound.fetched lawful given.1
    | error => exact bound.forget
    | noData => exact bound.forget
    | truncated values =>
      simp only [returns,Bool.and_eq_true,decide_eq_true_eq] at given
      exact (bound.fetched lawful given.1).forget
  next => cases stepped

theorem inv_step (lawful : client.Lawful) {s s' : Statement} {o : StatementOp}
    (inv : Inv client s) (stepped : s.step client o = some s') : Inv client s' := by
  cases o with
  | connect charset connect =>
    cases stepped
    exact inv
  | init p =>
    simp only [step] at stepped
    split at stepped
    next => cases stepped
    next =>
      cases stepped
      intro r same
      unfold MysqlHanderStmt._init at same
      split at same
      next => cases same
      next =>
        split at same
        next => cases same
        next types _ =>
          cases same
          exact .new lawful types _
  | execute e =>
    obtain ⟨t,made,rfl⟩ := Option.map_eq_some_iff.mp stepped
    exact fun r same => (inv r same).forget
  | nextRow ret =>
    simp only [step] at stepped
    split at stepped
    next => cases stepped
    next =>
      obtain ⟨t,made,stepped⟩ := Option.bind_eq_some_iff.mp stepped
      obtain ⟨r,result,stepped⟩ := Option.bind_eq_some_iff.mp stepped
      have same : s.result = some r := by rw [Statement.result,made,Option.bind_some,result]
      exact inv_fetchRow lawful (inv r same) stepped

theorem inv_start : Inv client start := fun _ impossible => by cases impossible

/-- When what `GetBinary` does for a column is right, whatever it is: there is no such column, it
is NULL, the caller has no room for the value, or the buffer has. A row fetched into nothing
reads as one of empty values. -/
def Readable (client : Client) (bound : Bool) (size : Nat) : Option Value → Prop
  | none => True
  | some none => bound = true
  | some (some v) => if bound then v.length ≤ client.timeSize ∨ size < v.length else v = []

theorem copyOut_over (lawful : client.Lawful) (b : Bind) (v : Bytes) (beyond : Nat → UInt8) :
    ((client.fetch b (some v)).copyOut beyond).outside = v.length - b.buffer.length := by
  simp only [Bind.copyOut,lawful.length,lawful.room]

theorem copyOut_bytes (lawful : client.Lawful) {b : Bind} {v : Bytes} (beyond : Nat → UInt8)
    (fits : v.length ≤ b.buffer.length) :
    ((client.fetch b (some v)).copyOut beyond).bytes = v := by
  have whole : v.take b.buffer.length = v := List.take_of_length_le fits
  have stored : ((client.fetch b (some v)).buffer).take v.length = v := by
    have written : (Bytes.overwrite b.buffer 0 v).take (0 + v.length) = b.buffer.take 0 ++ v :=
      Bytes.overwrite_take (Nat.zero_le _)
    rwa [Nat.zero_add,List.take_zero,List.nil_append,← whole,← lawful.copied,whole] at written
  simp only [Bind.copyOut,lawful.length,lawful.room,stored,Nat.sub_eq_zero_of_le fits,
    List.range_zero,List.map_nil,List.append_nil]

theorem fetched_exact_iff (lawful : client.Lawful) {b : Bind} (v : Value) (size : Nat)
    (beyond : Nat → UInt8) (room : b.buffer.length = client.timeSize)
    {r : MysqlQueryResultStmt} {idx : Nat} (at_ : r._result_bind[idx]? = some (client.fetch b v)) :
    (∀ c, r.GetBinary beyond idx size = some c → c.Exact (some v)) ↔
      Readable client true size (some v) := by
  cases v with
  | none =>
    have nothing : r.GetBinary beyond idx size = none := by
      simp only [MysqlQueryResultStmt.GetBinary,at_,lawful.null,if_true]
    rw [nothing]
    exact iff_of_true (fun _ impossible => by cases impossible) rfl
  | some v =>
    have read : r.GetBinary beyond idx size = if v.length > size then none else
        some ((client.fetch b (some v)).copyOut beyond) := by
      simp only [MysqlQueryResultStmt.GetBinary,at_,lawful.present,lawful.length,
        Bool.false_eq_true,if_false]
    rw [read]
    simp only [Readable,if_true]
    split
    next long => exact iff_of_true (fun _ impossible => by cases impossible) (.inr long)
    next short =>
      constructor
      · intro exact_
        have none_ := (exact_ _ rfl).2
        rw [copyOut_over lawful,room] at none_
        exact .inl (Nat.le_of_sub_eq_zero none_)
      · intro readable c same
        cases same
        have fits : v.length ≤ client.timeSize := readable.resolve_right short
        rw [← room] at fits
        refine ⟨?_,?_⟩
        · rw [copyOut_bytes lawful beyond fits]
        · rw [copyOut_over lawful]
          exact Nat.sub_eq_zero_of_le fits

theorem unbound_exact_iff {b : Bind} (v : Value) (size : Nat) (beyond : Nat → UInt8)
    (fresh : b.length = 0 ∧ b.is_null = false) {r : MysqlQueryResultStmt} {idx : Nat}
    (at_ : r._result_bind[idx]? = some b) :
    (∀ c, r.GetBinary beyond idx size = some c → c.Exact (some v)) ↔
      Readable client false size (some v) := by
  have read : r.GetBinary beyond idx size = some ⟨[],0⟩ := by
    simp only [MysqlQueryResultStmt.GetBinary,at_,fresh,Bind.copyOut,Bool.false_eq_true,if_false,
      Nat.not_lt_zero,gt_iff_lt,List.take_zero,Nat.zero_sub,List.range_zero,List.map_nil,
      List.append_nil]
  rw [read]
  constructor
  · intro exact_
    have same := (exact_ _ rfl).1
    cases same
    rfl
  · intro readable c same
    cases same
    cases v with
    | none => cases readable
    | some v =>
      simp only [Readable,Bool.false_eq_true,if_false] at readable
      rw [readable]
      exact ⟨rfl,rfl⟩

/-- After any run, for the row fetched last, every column and every size: what `GetBinary` returns
is the value of the column, read from its buffer only, exactly where that is readable. -/
theorem getBinary_exact_iff (client : Client) (lawful : client.Lawful) (os : List StatementOp)
    (s : Statement) (ran : Runs.run (step client) start os = some s) (r : MysqlQueryResultStmt)
    (result : s.result = some r) (values : List Value) (fetched : s.row = some values)
    (idx size : Nat) (beyond : Nat → UInt8) :
    (∀ c, r.GetBinary beyond idx size = some c → c.Exact values[idx]?) ↔
      Readable client r.bound size values[idx]? := by
  have bound := Runs.run_pres (Inv client) (fun _ _ _ => inv_step lawful) inv_start ran r result
  obtain ⟨length,stored⟩ := bound.stored values fetched
  cases at_ : values[idx]? with
  | none =>
    have outside : r._result_bind[idx]? = none := by
      rw [List.getElem?_eq_none_iff,← length]
      exact List.getElem?_eq_none_iff.mp at_
    have nothing : r.GetBinary beyond idx size = none := by
      simp only [MysqlQueryResultStmt.GetBinary,outside]
    rw [nothing]
    exact iff_of_true (fun _ impossible => by cases impossible) trivial
  | some v =>
    have inside : idx < values.length := (List.getElem?_eq_some_iff.mp at_).1
    cases took : r.bound with
    | true =>
      obtain ⟨old,same,room,binds⟩ := stored took
      have there : old[idx]? = some old[idx] := List.getElem?_eq_getElem (by omega)
      apply fetched_exact_iff lawful v size beyond (room _ (List.mem_of_getElem? there))
      rw [binds]
      exact List.getElem?_zipWith_eq_some.mpr ⟨_,_,there,at_,rfl⟩
    | false =>
      have there : r._result_bind[idx]? = some r._result_bind[idx] :=
        List.getElem?_eq_getElem (by omega)
      exact unbound_exact_iff v size beyond (bound.fresh took _ (List.mem_of_getElem? there)) there

/-- A library that does as it says, where a `MYSQL_TIME` takes 40 bytes. -/
def plain : Client where
  timeSize := 40
  malloc n := List.replicate n 0
  max_length stored i := if stored then i + 1 else 0
  fetch b
    | none => {b with is_null := true}
    | some v => {b with
      buffer := Bytes.overwrite b.buffer 0 (v.take b.buffer.length)
      length := v.length
      is_null := false}

theorem plain_lawful : plain.Lawful where
  malloc_length n := List.length_replicate
  max_length_zero i := rfl
  room b v := by
    cases v with
    | none => rfl
    | some v =>
      apply Bytes.overwrite_length
      rw [Nat.zero_add,List.length_take]
      exact Nat.min_le_left _ _
  null b := rfl
  present b v := rfl
  length b v := rfl
  copied b v := rfl

/-- A statement with one BLOB column, of whose rows the first has been fetched. -/
def fetching (v : Bytes) : List StatementOp :=
  [.connect none none,.init ⟨none,0,some [252],none⟩,.execute ⟨none,none,none⟩,
    .nextRow (.row [some v])]

theorem getBinary_exact_three : ∃ s r, Runs.run (step plain) start (fetching [1,2,3]) = some s ∧
    s.result = some r ∧ r.GetBinary (fun _ => 0) 0 3 = some ⟨[1,2,3],0⟩ := by
  have done : (Runs.run (step plain) start (fetching [1,2,3])).bind (fun s =>
      s.result.map fun r => (s.row,(r.GetBinary (fun _ => 0) 0 3).isSome,r.bound)) =
        some (some [some [1,2,3]],true,true) := by
    decide +kernel
  obtain ⟨s,ran,done⟩ := Option.bind_eq_some_iff.mp done
  obtain ⟨r,result,done⟩ := Option.map_eq_some_iff.mp done
  simp only [Prod.mk.injEq] at done
  obtain ⟨fetched,copied,bound⟩ := done
  obtain ⟨c,read⟩ := Option.isSome_iff_exists.mp copied
  have right := (getBinary_exact_iff plain plain_lawful (fetching [1,2,3]) s ran r result _ fetched
    0 3 fun _ => 0).mpr (by rw [bound]; exact .inl (by decide)) c read
  obtain ⟨bytes,outside⟩ := right
  cases c
  cases bytes
  cases outside
  exact ⟨s,r,ran,result,read⟩

/-- A value of 41 bytes has one that is read from behind the buffer. -/
theorem getBinary_reads_over : ∃ s r c,
    Runs.run (step plain) start (fetching (List.replicate 41 7)) = some s ∧ s.result = some r ∧
      r.GetBinary (fun _ => 0) 0 64 = some c ∧ ¬ c.Exact (some (some (List.replicate 41 7))) := by
  have done : (Runs.run (step plain) start (fetching (List.replicate 41 7))).bind (fun s =>
      s.result.bind fun r => (r.GetBinary (fun _ => 0) 0 64).map fun c => c.outside) = some 1 := by
    decide +kernel
  obtain ⟨s,ran,done⟩ := Option.bind_eq_some_iff.mp done
  obtain ⟨r,result,done⟩ := Option.bind_eq_some_iff.mp done
  obtain ⟨c,read,outside⟩ := Option.map_eq_some_iff.mp done
  refine ⟨s,r,c,ran,result,read,?_⟩
  intro right
  have none_ := right.2
  omega

end Statement

end Pworld.Db
