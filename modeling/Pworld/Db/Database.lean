import Pworld.Support.Runs
import Mathlib.Data.List.Count

/-! The database connections, claimed by tasks under a mutex and kept alive by `Update`,
which looks at the claim without it. Every statement of `Update` is a step of its own. -/
namespace Pworld.Db

structure Database where
  _free : Bool
  _last_travel_time : Int
  _alive : Bool  -- of `_db_handler`
  deriving DecidableEq,Repr

namespace Database

def Occupy (db : Database) : Bool × Database :=
  if db._free then (true,{db with _free := false}) else (false,db)

-- `now` is what `get_frame_time` returns
def Release (now : Int) (db : Database) : Database :=
  {db with _free := true, _last_travel_time := now}

/-- `ret` is what the handler returns, `lost` that its error is one of a lost connection. -/
def Connect (ret lost : Bool) (db : Database) : Database :=
  if ret then {db with _alive := true, _last_travel_time := 0}
  else {db with _alive := db._alive && !lost}

/-- `ExecuteSql` of the handler. -/
def ExecuteSql (lost : Bool) (db : Database) : Database :=
  {db with _alive := db._alive && !lost}

def Update (now : Int) (ret lost lost' : Bool) (db : Database) : Database :=
  if !db._free then db
  else
    let db := if !db._alive then db.Connect ret lost else db
    if now - db._last_travel_time > 30 then {db.ExecuteSql lost' with _last_travel_time := now}
    else db

theorem Occupy_false {db : Database} (taken : db._free = false) : db.Occupy = (false,db) := by
  simp [Occupy,taken]

theorem occupied (db : Database) : db.Occupy.2._free = false := by
  cases free : db._free <;> simp [Occupy,free]

end Database

/-- Which database it returns, counted from the first, and what is left of them all. -/
def GetFreeConnection : List Database → Option Nat × List Database
  | [] => (none,[])
  | db::dbs =>
    if db.Occupy.1 then (some 0,db.Occupy.2::dbs)
    else ((GetFreeConnection dbs).1.map (· + 1),db.Occupy.2::(GetFreeConnection dbs).2)

/-- Where a task is: in the loop of `GetFreeConnection`, or between `Occupy` and `Release`. -/
inductive Task where
  | idle
  | asking (i : Nat)
  | holding (i : Nat)
  deriving DecidableEq,Repr

/-- Where a caller of `CDBMgr::Update` is. -/
inductive Updater where
  | idle
  | before (i : Nat)
  | checked (i : Nat)
  | connecting (i : Nat)
  | timing (i : Nat)
  | executing (i : Nat) (now : Int)
  deriving DecidableEq,Repr

def Task.uses (i : Nat) : Task → Bool
  | .holding j => j == i
  | _ => false

def Updater.uses (i : Nat) : Updater → Bool
  | .connecting j | .executing j _ => j == i
  | _ => false

/-- The database whose flag is looked at next. -/
def Task.asks : Task → Option Nat
  | .asking i => some i
  | _ => none

def Updater.asks : Updater → Option Nat
  | .before i => some i
  | _ => none

/-- Past the check of `_free`, and not yet at the end of `Database::Update`. -/
def Updater.past (i : Nat) : Updater → Bool
  | .checked j | .connecting j | .timing j | .executing j _ => j == i
  | _ => false

structure CDBMgr where
  _dbs : List Database
  tasks : List Task
  updaters : List Updater
  deriving DecidableEq,Repr

inductive DbOp where
  | GetFreeConnection (t : Nat)
  | Occupy (t : Nat)
  | query (t : Nat) (lost : Bool)
  | Release (t : Nat) (now : Int)
  | Update (u : Nat)
  | check (u : Nat)
  | IsAlive (u : Nat)
  | Connect (u : Nat) (ret lost : Bool)
  | time (u : Nat) (now : Int)
  | ExecuteSql (u : Nat) (lost : Bool)
  deriving DecidableEq,Repr

def DbOp.updater : DbOp → Option Nat
  | .Update u | .check u | .IsAlive u | .Connect u _ _ | .time u _ | .ExecuteSql u _ => some u
  | _ => none

namespace CDBMgr

def start (dbs : List Database) (tasks updaters : Nat) : CDBMgr :=
  ⟨dbs,List.replicate tasks .idle,List.replicate updaters .idle⟩

def atTask (s : CDBMgr) (t : Nat) (task : Task) : CDBMgr := {s with tasks := s.tasks.set t task}

def atUpdater (s : CDBMgr) (u : Nat) (updater : Updater) : CDBMgr :=
  {s with updaters := s.updaters.set u updater}

def on (s : CDBMgr) (i : Nat) (f : Database → Database) : CDBMgr :=
  {s with _dbs := s._dbs.modify i f}

def step (s : CDBMgr) : DbOp → Option CDBMgr
  | .GetFreeConnection t =>
    match s.tasks[t]? with
    | some .idle => some (s.atTask t (.asking 0))
    | _ => none
  | .Occupy t =>
    match s.tasks[t]? with
    | some (.asking i) =>
      match s._dbs[i]? with
      | some db => some ((s.on i fun db => db.Occupy.2).atTask t
          (if db.Occupy.1 then .holding i else .asking (i+1)))
      | none => some (s.atTask t .idle)  -- `nullptr`
    | _ => none
  | .query t lost =>
    match s.tasks[t]? with
    | some (.holding i) => some (s.on i (.ExecuteSql lost))
    | _ => none
  | .Release t now =>
    match s.tasks[t]? with
    | some (.holding i) => some ((s.on i (.Release now)).atTask t .idle)
    | _ => none
  | .Update u =>
    match s.updaters[u]? with
    | some .idle => some (s.atUpdater u (.before 0))
    | _ => none
  | .check u =>
    match s.updaters[u]? with
    | some (.before i) =>
      match s._dbs[i]? with
      | some db => some (s.atUpdater u (if !db._free then .before (i+1) else .checked i))
      | none => some (s.atUpdater u .idle)
    | _ => none
  | .IsAlive u =>
    match s.updaters[u]? with
    | some (.checked i) =>
      (s._dbs[i]?).map fun db => s.atUpdater u (if !db._alive then .connecting i else .timing i)
    | _ => none
  | .Connect u ret lost =>
    match s.updaters[u]? with
    | some (.connecting i) => some ((s.on i (.Connect ret lost)).atUpdater u (.timing i))
    | _ => none
  | .time u now =>
    match s.updaters[u]? with
    | some (.timing i) => (s._dbs[i]?).map fun db => s.atUpdater u
        (if now - db._last_travel_time > 30 then .executing i now else .before (i+1))
    | _ => none
  | .ExecuteSql u lost =>
    match s.updaters[u]? with
    | some (.executing i now) => some ((s.on i fun db =>
        {db.ExecuteSql lost with _last_travel_time := now}).atUpdater u (.before (i+1)))
    | _ => none

/-- The parties that use the handler of database `i`. -/
def users (s : CDBMgr) (i : Nat) : Nat :=
  s.tasks.countP (Task.uses i) + s.updaters.countP (Updater.uses i)

def Exclusive (s : CDBMgr) : Prop := ∀ i, s.users i ≤ 1

def isFree (s : CDBMgr) (i : Nat) : Bool := (s._dbs[i]?).any Database._free

/-- Where the flag says free, no `Update` of the database is past its check. -/
def Quiet (s : CDBMgr) (i : Nat) : Prop :=
  s.isFree i = true → s.updaters.countP (Updater.past i) = 0

/-- No claim succeeds, and no second `Update` goes on, while an `Update` of the database
is between its check of `_free` and its end. -/
def Undisturbed (s : CDBMgr) : DbOp → Prop
  | .Occupy t => ∀ i ∈ s.tasks[t]?.bind Task.asks, s.Quiet i
  | .check u => ∀ i ∈ s.updaters[u]?.bind Updater.asks, s.Quiet i
  | _ => True

instance (s : CDBMgr) (i : Nat) : Decidable (s.Quiet i) := inferInstanceAs (Decidable (_ → _))

instance (s : CDBMgr) (op : DbOp) : Decidable (s.Undisturbed op) := by
  cases op <;> unfold Undisturbed <;> infer_instance

end CDBMgr

/-- One party moves. -/
theorem countP_set_add {α : Type} (p : α → Bool) {l : List α} {k : Nat} {a : α}
    (at_ : l[k]? = some a) (b : α) : (l.set k b).countP p + (if p a then 1 else 0) =
      l.countP p + (if p b then 1 else 0) := by
  obtain ⟨inside,same⟩ := List.getElem?_eq_some_iff.mp at_
  rw [List.countP_set inside,same]
  cases own : p a with
  | false => rfl
  | true =>
    have counted : 0 < l.countP p := List.countP_pos_iff.mpr ⟨a,List.mem_of_getElem? at_,own⟩
    simp only [if_true]
    omega

namespace CDBMgr

/-- Of the tasks that hold a database and the updates past its check there is one at most,
and the flag tells of the task. -/
structure Guarded (s : CDBMgr) (i : Nat) : Prop where
  one : s.tasks.countP (Task.uses i) + s.updaters.countP (Updater.past i) ≤ 1
  flag : s.isFree i = true → s.tasks.countP (Task.uses i) = 0

theorem isFree_on (s : CDBMgr) (i j : Nat) (f : Database → Database) :
    (s.on i f).isFree j = if i = j then (s._dbs[j]?).any fun db => (f db)._free else s.isFree j := by
  rw [isFree,on,List.getElem?_modify]
  split_ifs with same
  · cases s._dbs[j]? <;> rfl
  · cases here : s._dbs[j]? <;> simp [isFree,here]

section
variable {s : CDBMgr} {i : Nat} (guarded : s.Guarded i)
include guarded

theorem Guarded.modify {j : Nat} {f : Database → Database}
    (keeps : j = i → ∀ db, (f db)._free = true → db._free = true) : (s.on j f).Guarded i := by
  refine ⟨guarded.one,fun free => guarded.flag ?_⟩
  rw [isFree_on] at free
  split_ifs at free with same
  · obtain ⟨db,here,still⟩ := (Option.any_eq_true _ _).mp free
    exact (Option.any_eq_true _ _).mpr ⟨db,here,keeps same db still⟩
  · exact free

theorem Guarded.task {t : Nat} {a b : Task} (at_ : s.tasks[t]? = some a)
    (same : a.uses i = b.uses i) : (s.atTask t b).Guarded i := by
  have count := countP_set_add (Task.uses i) at_ b
  rw [same] at count
  have kept : (s.atTask t b).tasks.countP (Task.uses i) = s.tasks.countP (Task.uses i) :=
    Nat.add_right_cancel count
  exact ⟨by rw [kept]; exact guarded.one,fun free => kept.trans (guarded.flag free)⟩

theorem Guarded.updater {u : Nat} {a b : Updater} (at_ : s.updaters[u]? = some a)
    (le : b.past i = true → a.past i = true) : (s.atUpdater u b).Guarded i := by
  have count := countP_set_add (Updater.past i) at_ b
  have fewer : (s.atUpdater u b).updaters.countP (Updater.past i) ≤
      s.updaters.countP (Updater.past i) := by
    change (s.updaters.set u b).countP (Updater.past i) ≤ _
    split_ifs at count with old new new
    · omega
    · omega
    · exact absurd (le new) old
    · omega
  exact ⟨Nat.le_trans (Nat.add_le_add_left fewer _) guarded.one,guarded.flag⟩

theorem Guarded.occupy {t j : Nat} (at_ : s.tasks[t]? = some (.asking j))
    (free : s.isFree j = true) (undisturbed : s.updaters.countP (Updater.past j) = 0) :
    ((s.on j fun db => db.Occupy.2).atTask t (.holding j)).Guarded i := by
  by_cases same : j = i
  · subst same
    have count := countP_set_add (Task.uses j) at_ (.holding j)
    have none_ := guarded.flag free
    simp only [Task.uses,beq_self_eq_true,if_true,Bool.false_eq_true,if_false] at count
    constructor
    · change (s.tasks.set t (.holding j)).countP _ + s.updaters.countP _ ≤ 1
      omega
    · intro free'
      change (s.on j fun db => db.Occupy.2).isFree j = true at free'
      simp only [isFree_on,if_true,Database.occupied] at free'
      cases here : s._dbs[j]? <;> simp [here] at free'
  · apply (guarded.modify (fun here => absurd here same)).task at_
    simp [Task.uses,same]

/-- The one that held it is gone. -/
theorem Guarded.release {t j : Nat} {now : Int} (at_ : s.tasks[t]? = some (.holding j)) :
    ((s.on j (.Release now)).atTask t .idle).Guarded i := by
  by_cases same : j = i
  · subst same
    have count := countP_set_add (Task.uses j) at_ .idle
    have one := guarded.one
    simp only [Task.uses,beq_self_eq_true,if_true,Bool.false_eq_true,if_false] at count
    constructor
    · change (s.tasks.set t .idle).countP _ + s.updaters.countP _ ≤ 1
      omega
    · intro _
      change (s.tasks.set t .idle).countP _ = 0
      omega
  · apply (guarded.modify (fun here => absurd here same)).task at_
    simp [Task.uses,same]

theorem Guarded.check {u j : Nat} (at_ : s.updaters[u]? = some (.before j))
    (free : s.isFree j = true) (undisturbed : s.updaters.countP (Updater.past j) = 0) :
    (s.atUpdater u (.checked j)).Guarded i := by
  by_cases same : j = i
  · subst same
    have count := countP_set_add (Updater.past j) at_ (.checked j)
    have none_ := guarded.flag free
    simp only [Updater.past,beq_self_eq_true,if_true,Bool.false_eq_true,if_false] at count
    refine ⟨?_,guarded.flag⟩
    change s.tasks.countP _ + (s.updaters.set u (.checked j)).countP _ ≤ 1
    omega
  · apply guarded.updater at_
    simp [Updater.past,same]

end

theorem step_guarded {s s' : CDBMgr} {i : Nat} {op : DbOp} (guarded : s.Guarded i)
    (undisturbed : s.Undisturbed op) (stepped : step s op = some s') : s'.Guarded i := by
  cases op with
  | GetFreeConnection t =>
    simp only [step] at stepped
    split at stepped
    next at_ =>
      cases stepped
      exact guarded.task at_ rfl
    next => cases stepped
  | Occupy t =>
    simp only [step] at stepped
    split at stepped
    next j at_ =>
      split at stepped
      next db here =>
        cases stepped
        cases free : db._free with
        | true =>
          have isFree : s.isFree j = true := by
            rw [CDBMgr.isFree,here]
            exact free
          simp only [Database.Occupy,free,if_true]
          exact guarded.occupy at_ isFree (undisturbed j (by rw [at_]; rfl) isFree)
        | false =>
          rw [Database.Occupy_false free,if_neg Bool.false_ne_true]
          have kept : (s.on j fun db => db.Occupy.2).Guarded i := by
            apply guarded.modify
            intro _ db still
            rw [db.occupied] at still
            cases still
          exact kept.task at_ rfl
      next =>
        cases stepped
        exact guarded.task at_ rfl
    next => cases stepped
  | query t lost =>
    simp only [step] at stepped
    split at stepped
    next =>
      cases stepped
      exact guarded.modify fun _ _ => id
    next => cases stepped
  | Release t now =>
    simp only [step] at stepped
    split at stepped
    next at_ =>
      cases stepped
      exact guarded.release at_
    next => cases stepped
  | Update u =>
    simp only [step] at stepped
    split at stepped
    next at_ =>
      cases stepped
      exact guarded.updater at_ id
    next => cases stepped
  | check u =>
    simp only [step] at stepped
    split at stepped
    next j at_ =>
      split at stepped
      next db here =>
        cases stepped
        cases free : db._free with
        | true =>
          have isFree : s.isFree j = true := by
            rw [CDBMgr.isFree,here]
            exact free
          exact guarded.check at_ isFree (undisturbed j (by rw [at_]; rfl) isFree)
        | false => exact guarded.updater at_ id
      next =>
        cases stepped
        exact guarded.updater at_ id
    next => cases stepped
  | IsAlive u =>
    simp only [step] at stepped
    split at stepped
    next at_ =>
      obtain ⟨db,_,rfl⟩ := Option.map_eq_some_iff.mp stepped
      cases db._alive with
      | true => exact guarded.updater at_ id
      | false => exact guarded.updater at_ id
    next => cases stepped
  | Connect u ret lost =>
    simp only [step] at stepped
    split at stepped
    next j at_ =>
      cases stepped
      have kept : (s.on j (.Connect ret lost)).Guarded i := by
        apply guarded.modify
        intro _ db still
        cases ret <;> exact still
      exact kept.updater at_ id
    next => cases stepped
  | time u now =>
    simp only [step] at stepped
    split at stepped
    next at_ =>
      obtain ⟨db,_,rfl⟩ := Option.map_eq_some_iff.mp stepped
      apply guarded.updater at_
      split_ifs
      · exact id
      · intro no
        cases no
    next => cases stepped
  | ExecuteSql u lost =>
    simp only [step] at stepped
    split at stepped
    next j now at_ =>
      cases stepped
      have kept : (s.on j fun db =>
          {db.ExecuteSql lost with _last_travel_time := now}).Guarded i :=
        guarded.modify fun _ _ => id
      apply kept.updater at_
      intro no
      cases no
    next => cases stepped

theorem guarded_exclusive {s : CDBMgr} (guarded : ∀ i, s.Guarded i) : s.Exclusive := by
  intro i
  have one := (guarded i).one
  have using_ : s.updaters.countP (Updater.uses i) ≤ s.updaters.countP (Updater.past i) := by
    apply List.countP_mono_left
    intro updater _ uses
    cases updater <;> first | exact uses | cases uses
  exact Nat.le_trans (Nat.add_le_add_left using_ _) one

theorem start_guarded (dbs : List Database) (tasks updaters i : Nat) :
    (start dbs tasks updaters).Guarded i := by
  have none_ : (start dbs tasks updaters).tasks.countP (Task.uses i) = 0 :=
    List.countP_eq_zero.mpr fun task member => by
      rw [List.eq_of_mem_replicate member]
      exact Bool.false_ne_true
  have none_' : (start dbs tasks updaters).updaters.countP (Updater.past i) = 0 :=
    List.countP_eq_zero.mpr fun updater member => by
      rw [List.eq_of_mem_replicate member]
      exact Bool.false_ne_true
  exact ⟨by omega,fun _ => none_⟩

theorem exclusive_use (dbs : List Database) (tasks updaters : Nat) (ops : List DbOp)
    (undisturbed : Runs.Meets step Undisturbed (start dbs tasks updaters) ops) :
    Runs.Always step Exclusive (start dbs tasks updaters) ops :=
  Runs.always_of_meets (fun s => ∀ i, s.Guarded i) Exclusive (fun _ => guarded_exclusive)
    (fun _ _ _ guarded undisturbed stepped i => step_guarded (guarded i) undisturbed stepped)
    (start_guarded dbs tasks updaters) undisturbed

def live : Database := ⟨true,0,true⟩

/-- A task and an `Update`, one after the other and then the task again. -/
def orderly : List DbOp :=
  [.GetFreeConnection 0,.Occupy 0,.Update 0,.check 0,.check 0,.query 0 true,.Release 0 50,
    .Update 0,.check 0,.IsAlive 0,.Connect 0 true false,.time 0 60,.GetFreeConnection 1,
    .ExecuteSql 0 false,.Occupy 1]

theorem exclusive_use_orderly : Runs.Always step Exclusive (start [live] 2 1) orderly :=
  exclusive_use [live] 2 1 orderly (by decide)

/-- A task claims the connection between the check of `_free` and the keep-alive query. -/
def overlap : List DbOp :=
  [.Update 0,.check 0,.IsAlive 0,.GetFreeConnection 0,.Occupy 0,.time 0 31]

theorem exclusive_use_overlap : ∃ s, Runs.run step (start [live] 1 1) overlap = some s ∧
    s.users 0 = 2 ∧ ¬Runs.Always step Exclusive (start [live] 1 1) overlap := by
  have ran : Runs.run step (start [live] 1 1) overlap =
      some ⟨[⟨false,0,true⟩],[.holding 0],[.executing 0 31]⟩ := by
    decide
  refine ⟨_,ran,by decide,fun always => ?_⟩
  exact absurd (Runs.Always.last always ran 0) (by decide)

/-- By steps of updater `u` only. -/
def Goes (u : Nat) (s s' : CDBMgr) : Prop :=
  ∃ ops, (∀ op ∈ ops, op.updater = some u) ∧ Runs.run step s ops = some s'

theorem Goes.step {u : Nat} {s s' : CDBMgr} (op : DbOp) (own : op.updater = some u)
    (stepped : s.step op = some s') : Goes u s s' := by
  refine ⟨[op],?_,?_⟩
  · intro op' member
    rw [List.mem_singleton.mp member]
    exact own
  · rw [Runs.run_cons,stepped]
    rfl

theorem Goes.trans {u : Nat} {s s' s'' : CDBMgr} (first : Goes u s s') (next : Goes u s' s'') :
    Goes u s s'' := by
  obtain ⟨ops,own,ran⟩ := first
  obtain ⟨ops',own',ran'⟩ := next
  refine ⟨ops ++ ops',?_,?_⟩
  · intro op member
    exact (List.mem_append.mp member).elim (own op) (own' op)
  · rw [Runs.run_append,ran]
    exact ran'

/-- `s` where a database and an updater have gone on. -/
def mid (s : CDBMgr) (i u : Nat) (db : Database) (updater : Updater) : CDBMgr :=
  ⟨s._dbs.set i db,s.tasks,s.updaters.set u updater⟩

section
variable {s : CDBMgr} {i u : Nat} (here : i < s._dbs.length) (at_ : u < s.updaters.length)

theorem mid_atUpdater (db : Database) (updater updater' : Updater) :
    (s.mid i u db updater).atUpdater u updater' = s.mid i u db updater' := by
  simp only [mid,atUpdater,List.set_set]

include here

theorem mid_on (db : Database) (updater : Updater) (f : Database → Database) :
    (s.mid i u db updater).on i f = s.mid i u (f db) updater := by
  have moved : (s._dbs.set i db).modify i f = s._dbs.set i (f db) := by
    apply List.ext_getElem?
    intro j
    rw [List.getElem?_modify]
    by_cases same : i = j
    · subst same
      simp only [List.getElem?_set_self here,if_true,Option.map_eq_map,Option.map_some]
    · simp only [List.getElem?_set_ne same,if_neg same,id_map']
  simp only [on,mid,moved]

include at_

/-- With nothing of the others between its steps, what `Update` does is the function. -/
theorem update_alone (db : Database) (now : Int) (ret lost lost' : Bool) :
    Goes u (s.mid i u db (.before i))
      (s.mid i u (db.Update now ret lost lost') (.before (i+1))) := by
  have reads db updater : (s.mid i u db updater)._dbs[i]? = some db := List.getElem?_set_self here
  have stands db updater : (s.mid i u db updater).updaters[u]? = some updater :=
    List.getElem?_set_self at_
  have check : Goes u (s.mid i u db (.before i))
      (s.mid i u db (if !db._free then .before (i+1) else .checked i)) := by
    apply Goes.step (.check u) rfl
    simp only [step,stands,reads,mid_atUpdater]
  have alive : Goes u (s.mid i u db (.checked i))
      (s.mid i u (if !db._alive then db.Connect ret lost else db) (.timing i)) := by
    have asked : Goes u (s.mid i u db (.checked i))
        (s.mid i u db (if !db._alive then .connecting i else .timing i)) := by
      apply Goes.step (.IsAlive u) rfl
      simp only [step,stands,reads,mid_atUpdater,Option.map_some]
    cases alive : db._alive with
    | true =>
      rw [alive] at asked
      exact asked
    | false =>
      simp only [alive,Bool.not_false,if_true] at asked ⊢
      apply asked.trans
      apply Goes.step (.Connect u ret lost) rfl
      simp only [step,stands,mid_on here,mid_atUpdater]
  have timed (db : Database) : Goes u (s.mid i u db (.timing i)) (s.mid i u
      (if now - db._last_travel_time > 30 then {db.ExecuteSql lost' with _last_travel_time := now}
        else db) (.before (i+1))) := by
    have asked : Goes u (s.mid i u db (.timing i)) (s.mid i u db
        (if now - db._last_travel_time > 30 then .executing i now else .before (i+1))) := by
      apply Goes.step (.time u now) rfl
      simp only [step,stands,reads,mid_atUpdater,Option.map_some]
    by_cases late : now - db._last_travel_time > 30
    · rw [if_pos late] at asked
      rw [if_pos late]
      apply asked.trans
      apply Goes.step (.ExecuteSql u lost') rfl
      simp only [step,stands,mid_on here,mid_atUpdater]
    · rw [if_neg late] at asked
      rw [if_neg late]
      exact asked
  cases free : db._free with
  | false =>
    rw [free] at check
    simp only [Database.Update,free]
    exact check
  | true =>
    rw [free] at check
    simp only [Database.Update,free]
    exact (check.trans alive).trans (timed _)

end

/-- `before` are the databases that the loop has passed. -/
def asked (s : CDBMgr) (t : Nat) (before rest : List Database) (task : Task) : CDBMgr :=
  ⟨before ++ rest,s.tasks.set t task,s.updaters⟩

/-- With nothing of the others between its steps, what the loop does is the function. -/
theorem get_alone (s : CDBMgr) {t : Nat} (at_ : t < s.tasks.length) (before rest : List Database) :
    ∃ n, Runs.run step (s.asked t before rest (.asking before.length))
        (List.replicate n (.Occupy t)) =
      some (s.asked t before (GetFreeConnection rest).2
        (((GetFreeConnection rest).1.map fun i => .holding (before.length+i)).getD .idle)) := by
  have stands (before rest : List Database) (task : Task) :
      (s.asked t before rest task).tasks[t]? = some task := List.getElem?_set_self at_
  induction rest generalizing before with
  | nil =>
    have past : (s.asked t before [] (.asking before.length))._dbs[before.length]? = none := by
      simp [asked]
    have stepped : step (s.asked t before [] (.asking before.length)) (.Occupy t) =
        some (s.asked t before [] .idle) := by
      simp only [step,stands,past]
      simp only [asked,atTask,List.set_set]
    exact ⟨1,by rw [List.replicate_one,Runs.run_cons,stepped]; rfl⟩
  | cons db rest ih =>
    have here : (s.asked t before (db::rest) (.asking before.length))._dbs[before.length]? =
        some db := by
      simp [asked]
    have moved : (before ++ db::rest).modify before.length (fun db => db.Occupy.2) =
        before ++ db.Occupy.2::rest := by
      rw [List.modify_eq_take_cons_drop (by simp)]
      simp
    have stepped : step (s.asked t before (db::rest) (.asking before.length)) (.Occupy t) =
        some (s.asked t before (db.Occupy.2::rest)
          (if db.Occupy.1 then .holding before.length else .asking (before.length+1))) := by
      simp only [step,stands,here]
      simp only [asked,atTask,on,moved,List.set_set]
    cases free : db.Occupy.1 with
    | true =>
      rw [free] at stepped
      refine ⟨1,?_⟩
      rw [List.replicate_one,Runs.run_cons,stepped,GetFreeConnection,if_pos free]
      rfl
    | false =>
      rw [free] at stepped
      obtain ⟨n,ran⟩ := ih (before ++ [db.Occupy.2])
      have same (rest : List Database) (task : Task) :
          s.asked t (before ++ [db.Occupy.2]) rest task =
            s.asked t before (db.Occupy.2::rest) task := by
        simp only [asked,List.append_assoc,List.singleton_append]
      rw [same,same,List.length_append,List.length_singleton] at ran
      refine ⟨n+1,?_⟩
      rw [List.replicate_succ,Runs.run_cons,stepped]
      simp only [Bool.false_eq_true,if_false,Option.bind_some,ran,GetFreeConnection,free,
        Option.map_map,Function.comp_def,Nat.add_assoc,Nat.add_comm 1]

end CDBMgr

end Pworld.Db
