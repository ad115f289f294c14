import Pworld.Support.Ledger
import Pworld.Support.Runs

/-! The pool of worker threads. A section under one of the two mutexes is one step,
and so are the start and the end of a task's `_cb_task`, which runs without a lock. -/
namespace Pworld.Async

structure Task where
  id : Nat
  _cb_over : Bool  -- whether there is one; there always is a `_cb_task`
  deriving DecidableEq,Repr

/-- Where a worker thread is in `__async_task_thread_proc`. -/
inductive Worker where
  | loop  -- at the condition of `while`
  | entered
  | holding (t : Task)
  | running (t : Task)
  | done (t : Task)  -- `_cb_task->Run()` has returned
  | exited
  deriving DecidableEq,Repr

inductive Event where
  | began (id : Nat)
  | ended (id : Nat)
  | overed (id : Nat)
  deriving DecidableEq,Repr

def Event.id : Event → Nat
  | .began id => id
  | .ended id => id
  | .overed id => id

structure AsyncTask where
  _running : Bool
  _threads : List Worker
  _lst_task : List Task
  _lst_over : List Task
  _task_cnt : UInt32
  next : Nat  -- the tasks made so far
  freed : List Nat  -- given to `delete`, in this order
  log : List Event
  destroyed : Bool
  deriving DecidableEq

inductive PoolOp where
  | init
  | spawn
  | push (cbOver : Bool)
  | check (w : Nat)
  | take (w : Nat)
  | begin (w : Nat)
  | finish (w : Nat)
  | post (w : Nat)
  | update (pushed : List Bool)
  | stop
  | destroy
  deriving DecidableEq

namespace AsyncTask

-- `_running` and `_task_cnt` have no initial value in the class
def new (running : Bool) (cnt : UInt32) : AsyncTask := ⟨running,[],[],[],cnt,0,[],[],false⟩

def PushTask (s : AsyncTask) (cbOver : Bool) : AsyncTask :=
  {s with _lst_task := s._lst_task ++ [⟨s.next,cbOver⟩], next := s.next + 1}

def atWorker (s : AsyncTask) (w : Nat) (worker : Worker) : AsyncTask :=
  {s with _threads := s._threads.set w worker}

def takeTask (s : AsyncTask) (w : Nat) : AsyncTask :=
  match s._lst_task with
  | [] => s.atWorker w .loop  -- and sleeps
  | t::rest => {s.atWorker w (.holding t) with _lst_task := rest}

def beginTask (s : AsyncTask) (w : Nat) (t : Task) : AsyncTask :=
  {s.atWorker w (.running t) with _task_cnt := s._task_cnt + 1, log := s.log ++ [.began t.id]}

def finishTask (s : AsyncTask) (w : Nat) (t : Task) : AsyncTask :=
  {s.atWorker w (.done t) with log := s.log ++ [.ended t.id]}

def postTask (s : AsyncTask) (w : Nat) (t : Task) : AsyncTask :=
  let s := {s.atWorker w .loop with _task_cnt := s._task_cnt - 1}
  if t._cb_over then {s with _lst_over := s._lst_over ++ [t]}
  else {s with freed := s.freed ++ [t.id]}

/-- `Update`; `pushed` are the tasks that the callbacks push. -/
def Update (s : AsyncTask) (pushed : List Bool) : AsyncTask :=
  let s := {s with
    _lst_over := []
    freed := s.freed ++ s._lst_over.map Task.id
    log := s.log ++ s._lst_over.map fun t => .overed t.id}
  pushed.foldl PushTask s

-- `~AsyncTask`
def destroy (s : AsyncTask) : AsyncTask :=
  {s with
    _lst_task := []
    _lst_over := []
    freed := s.freed ++ s._lst_task.map Task.id ++ s._lst_over.map Task.id
    destroyed := true}

def step (s : AsyncTask) (op : PoolOp) : Option AsyncTask :=
  if s.destroyed then none
  else
    match op with
    | .init => some {s with _running := true}
    | .spawn => some {s with _threads := s._threads ++ [.loop]}
    | .push cbOver => some (s.PushTask cbOver)
    | .check w =>
      match s._threads[w]? with
      | some .loop => some (s.atWorker w (if s._running then .entered else .exited))
      | _ => none
    | .take w =>
      match s._threads[w]? with
      | some .entered => some (s.takeTask w)
      | _ => none
    | .begin w =>
      match s._threads[w]? with
      | some (.holding t) => some (s.beginTask w t)
      | _ => none
    | .finish w =>
      match s._threads[w]? with
      | some (.running t) => some (s.finishTask w t)
      | _ => none
    | .post w =>
      match s._threads[w]? with
      | some (.done t) => some (s.postTask w t)
      | _ => none
    | .update pushed => some (s.Update pushed)
    | .stop => some {s with _running := false}
    -- `Release` has joined all threads before
    | .destroy => if ∀ worker ∈ s._threads, worker = .exited then some s.destroy else none

def pending (s : AsyncTask) (id : Nat) : Nat := (s._lst_task.map Task.id).count id

def overs (s : AsyncTask) (id : Nat) : Nat := (s._lst_over.map Task.id).count id

end AsyncTask

inductive Stage where
  | waiting
  | running
  | done
  deriving DecidableEq

/-- The task in a worker's hands, and how far it has come. -/
def Worker.hand : Worker → Option (Task × Stage)
  | .holding t => some (t,.waiting)
  | .running t => some (t,.running)
  | .done t => some (t,.done)
  | _ => none

namespace AsyncTask

def hands (s : AsyncTask) (id : Nat) : Nat :=
  ((s._threads.filterMap Worker.hand).map fun h => h.1.id).count id

/-- Every task pushed is in one place; what happens to it happens once and in order. -/
structure Conserved (s : AsyncTask) : Prop where
  place : ∀ id < s.next, s.pending id + s.hands id + s.overs id + s.freed.count id = 1
  task_once : ∀ id, s.log.count (.began id) ≤ 1
  over_once : ∀ id, s.log.count (.overed id) ≤ 1
  over_after : ∀ id before after, s.log = before ++ .overed id :: after → .ended id ∈ before
  over_list : ∀ t ∈ s._lst_over, t._cb_over = true
  freed_once : s.freed.Nodup

def tokenId (x : Task × Stage) : Nat := x.1.id

def Live (x : Task × Stage) (past : List Event) : Prop :=
  past = match x.2 with
    | .waiting => []
    | .running => [.began x.1.id]
    | .done => [.began x.1.id,.ended x.1.id]

def Dead (past : List Event) : Prop :=
  past = [] ∨ ∃ id, past = [.began id,.ended id] ∨ past = [.began id,.ended id,.overed id]

def tokens (s : AsyncTask) : List (Task × Stage) :=
  s._lst_task.map (·,.waiting) ++ s._threads.filterMap Worker.hand ++ s._lst_over.map (·,.done)

structure Inv (s : AsyncTask) : Prop where
  ledger : Ledger tokenId Event.id Live Dead s.tokens s.freed s.next s.log
  over_list : ∀ t ∈ s._lst_over, t._cb_over = true

/-- The past of one task tells the order of its events. -/
theorem past_order {log : List Event} {id : Nat} {past : List Event}
    (same : history Event.id log id = past)
    (course : past = [] ∨ ∃ n, past = [.began n] ∨ past = [.began n,.ended n] ∨
      past = [.began n,.ended n,.overed n]) :
    log.count (.began id) ≤ 1 ∧ log.count (.overed id) ≤ 1 ∧
      ∀ before after, log = before ++ .overed id :: after → .ended id ∈ before := by
  have began : log.count (.began id) = past.count (.began id) := by
    rw [← same]
    exact (count_history log (.began id)).symm
  have ranOver : log.count (.overed id) = past.count (.overed id) := by
    rw [← same]
    exact (count_history log (.overed id)).symm
  rw [began,ranOver]
  refine ⟨?_,?_,fun before after split => ?_⟩
  · rcases course with rfl | ⟨n,rfl | rfl | rfl⟩
    · exact Nat.zero_le 1
    all_goals
      simp [List.count_cons]
      split <;> omega
  · rcases course with rfl | ⟨n,rfl | rfl | rfl⟩
    · exact Nat.zero_le 1
    all_goals
      simp [List.count_cons]
    split <;> omega
  · have sub (e : Event) (member : e ∈ history Event.id before id) : e ∈ before :=
      (List.mem_filter.mp member).1
    have here : history Event.id [Event.overed id] id = [.overed id] :=
      history_own (by simp [Event.id])
    rw [split,history_append,← List.singleton_append,history_append,here] at same
    -- only two events can stand before the last one
    rcases first : history Event.id before id with _ | ⟨x,_ | ⟨y,_ | ⟨z,zs⟩⟩⟩
    all_goals
      rw [first] at same sub
      rcases course with rfl | ⟨n,rfl | rfl | rfl⟩ <;> simp at same
    obtain ⟨_,rfl,rfl,_⟩ := same
    exact sub _ (by simp)

theorem Inv.conserved {s : AsyncTask} (inv : s.Inv) : s.Conserved := by
  have course (id : Nat) : ∃ past, history Event.id s.log id = past ∧
      (past = [] ∨ ∃ n, past = [.began n] ∨ past = [.began n,.ended n] ∨
        past = [.began n,.ended n,.overed n]) := by
    refine ⟨_,rfl,?_⟩
    by_cases made : id < s.next
    · have member := inv.ledger.all.mem_iff.mpr (List.mem_range.mpr made)
      rcases List.mem_append.mp member with held | gone
      · obtain ⟨x,there,same⟩ := List.mem_map.mp held
        have live := inv.ledger.live x there
        rw [same] at live
        rw [live]
        cases x.2 with
        | waiting => exact .inl rfl
        | running => exact .inr ⟨x.1.id,.inl rfl⟩
        | done => exact .inr ⟨x.1.id,.inr (.inl rfl)⟩
      · rcases inv.ledger.dead id gone with none_ | ⟨n,two | three⟩
        · exact .inl none_
        · exact .inr ⟨n,.inr (.inl two)⟩
        · exact .inr ⟨n,.inr (.inr three)⟩
    · exact .inl (inv.ledger.fresh id (by omega))
  have order (id : Nat) : _ := (course id).elim fun past known => past_order known.1 known.2
  refine ⟨fun id made => ?_,fun id => (order id).1,fun id => (order id).2.1,
    fun id => (order id).2.2,inv.over_list,?_⟩
  · have once := inv.ledger.once made
    have places : (s.tokens.map tokenId).count id = s.pending id + s.hands id + s.overs id := by
      simp only [tokens,List.map_append,List.map_map,List.count_append,pending,hands,overs]
      rfl
    rw [← places]
    exact once
  · exact (List.nodup_append.mp inv.ledger.nodup).2.1

/-- What a worker holds, seen apart from the rest. -/
theorem hand_perm {s : AsyncTask} {w : Nat} {before : Worker} (at_ : s._threads[w]? = some before) :
    ∃ rest, s.tokens.Perm (before.hand.toList ++ rest) ∧
      ∀ worker, (s.atWorker w worker).tokens.Perm (worker.hand.toList ++ rest) := by
  obtain ⟨others,same,changed⟩ := filterMap_set_perm (f := Worker.hand) at_
  have front (as hand os bs : List (Task × Stage)) :
      (as ++ (hand ++ os) ++ bs).Perm (hand ++ (as ++ os ++ bs)) := by
    rw [← List.append_assoc hand]
    exact (List.perm_append_comm_assoc as hand os).append_right bs
  refine ⟨s._lst_task.map (·,Stage.waiting) ++ others ++ s._lst_over.map (·,Stage.done),?_,
    fun worker => ?_⟩
  · exact ((same.append_left _).append_right _).trans (front ..)
  · exact (((changed worker).append_left _).append_right _).trans (front ..)

/-- A worker that keeps empty hands, or what it has. -/
theorem Inv.same {s s' : AsyncTask} (inv : s.Inv) (tokens : s'.tokens.Perm s.tokens)
    (overs : s'._lst_over = s._lst_over) (freed : s'.freed = s.freed) (next : s'.next = s.next)
    (log : s'.log = s.log) : s'.Inv where
  ledger := by
    rw [freed,next,log]
    exact inv.ledger.perm tokens.symm
  over_list := by
    rw [overs]
    exact inv.over_list

theorem inv_push {s : AsyncTask} (inv : s.Inv) (cbOver : Bool) : (s.PushTask cbOver).Inv where
  ledger := by
    have live : Live (⟨s.next,cbOver⟩,.waiting) [] := rfl
    have made := inv.ledger.make [] (by simp) rfl live
    rw [List.append_nil] at made
    apply made.perm
    simp only [tokens,PushTask,List.map_append,List.map_cons,List.map_nil,List.append_assoc,
      List.singleton_append]
    exact List.perm_middle.symm
  over_list := inv.over_list

theorem inv_pushes {s : AsyncTask} (inv : s.Inv) (pushed : List Bool) :
    (pushed.foldl PushTask s).Inv := by
  induction pushed generalizing s with
  | nil => exact inv
  | cons cbOver pushed ih => exact ih (inv_push inv cbOver)

theorem inv_take {s : AsyncTask} (inv : s.Inv) {w : Nat} (at_ : s._threads[w]? = some .entered) :
    (s.takeTask w).Inv := by
  unfold takeTask
  split
  · obtain ⟨rest,before,after⟩ := hand_perm at_
    exact inv.same ((after _).trans before.symm) rfl rfl rfl rfl
  next t tasks waiting =>
    -- the state between leaving the list and reaching the worker
    let left : AsyncTask := {s with _lst_task := tasks}
    obtain ⟨rest,before,after⟩ := hand_perm (s := left) at_
    have front : s.tokens = (t,.waiting) :: left.tokens := by
      simp only [tokens,waiting,List.map_cons,List.cons_append,left]
    refine inv.same ((after (.holding t)).trans ?_) rfl rfl rfl rfl
    rw [front]
    exact (before.cons (t,.waiting)).symm

theorem inv_begin {s : AsyncTask} (inv : s.Inv) {w : Nat} {t : Task}
    (at_ : s._threads[w]? = some (.holding t)) : (s.beginTask w t).Inv where
  ledger := by
    obtain ⟨rest,before,after⟩ := hand_perm at_
    have ledger := inv.ledger.perm before
    have live : Live (t,.waiting) (history Event.id s.log t.id) :=
      ledger.live (t,.waiting) List.mem_cons_self
    have began := ledger.replace (y := (t,.running)) [.began t.id] (by simp [Event.id,tokenId]) rfl
      (by rw [tokenId,live]; rfl)
    exact began.perm (after (.running t)).symm
  over_list := inv.over_list

theorem inv_finish {s : AsyncTask} (inv : s.Inv) {w : Nat} {t : Task}
    (at_ : s._threads[w]? = some (.running t)) : (s.finishTask w t).Inv where
  ledger := by
    obtain ⟨rest,before,after⟩ := hand_perm at_
    have ledger := inv.ledger.perm before
    have live : Live (t,.running) (history Event.id s.log t.id) :=
      ledger.live (t,.running) List.mem_cons_self
    have ended := ledger.replace (y := (t,.done)) [.ended t.id] (by simp [Event.id,tokenId]) rfl
      (by rw [tokenId,live]; rfl)
    exact ended.perm (after (.done t)).symm
  over_list := inv.over_list

theorem inv_post {s : AsyncTask} (inv : s.Inv) {w : Nat} {t : Task}
    (at_ : s._threads[w]? = some (.done t)) : (s.postTask w t).Inv := by
  obtain ⟨rest,before,after⟩ := hand_perm at_
  unfold postTask
  by_cases withOver : t._cb_over = true
  · simp only [withOver,if_true]
    refine ⟨inv.ledger.perm (before.trans ?_),?_⟩
    · apply ((after .loop).cons (t,.done)).symm.trans
      simp only [tokens,List.map_append,List.map_cons,List.map_nil,← List.append_assoc]
      exact (List.perm_append_singleton ..).symm
    · intro u member
      rcases List.mem_append.mp member with old | new
      · exact inv.over_list u old
      · rw [List.mem_singleton.mp new]
        exact withOver
  · simp only [withOver,Bool.false_eq_true,if_false]
    refine ⟨?_,inv.over_list⟩
    have ledger := inv.ledger.perm before
    have live : Live (t,.done) (history Event.id s.log t.id) :=
      ledger.live (t,.done) List.mem_cons_self
    have freed := ledger.free [] (by simp)
      (by rw [List.append_nil,tokenId,live]; exact .inr ⟨t.id,.inl rfl⟩)
    rw [List.append_nil] at freed
    exact freed.perm (after .loop).symm

theorem inv_update {s : AsyncTask} (inv : s.Inv) (pushed : List Bool) : (s.Update pushed).Inv := by
  refine inv_pushes ⟨?_,by simp⟩ pushed
  have overs := inv.ledger.perm (List.perm_append_comm ..)
  have dead (x : Task × Stage) (member : x ∈ s._lst_over.map (·,Stage.done)) (h : List Event)
      (live : Live x h) : Dead (h ++ [.overed x.1.id]) := by
    obtain ⟨t,_,same⟩ := List.mem_map.mp member
    rw [live,← same]
    exact .inr ⟨t.id,.inr rfl⟩
  have freed := overs.free_all (fun x => [.overed x.1.id]) (by simp [Event.id,tokenId]) dead
  have ids : (s._lst_over.map (·,Stage.done)).map tokenId = s._lst_over.map Task.id := by
    rw [List.map_map]
    rfl
  rw [ids,List.flatMap_map,← List.map_eq_flatMap] at freed
  simpa only [tokens,List.map_nil,List.append_nil] using freed

theorem inv_destroy {s : AsyncTask} (inv : s.Inv) (joined : ∀ worker ∈ s._threads, worker = .exited) :
    s.destroy.Inv := by
  have empty : s._threads.filterMap Worker.hand = [] := by
    rw [List.filterMap_eq_nil_iff]
    intro worker member
    rw [joined worker member]
    rfl
  have same : s.tokens = s._lst_task.map (·,Stage.waiting) ++ s._lst_over.map (·,Stage.done) := by
    rw [tokens,empty,List.append_nil]
  have dead (x : Task × Stage) (member : x ∈ s.tokens) (h : List Event) (live : Live x h) :
      Dead (h ++ []) := by
    rw [List.append_nil,live]
    rw [same] at member
    rcases List.mem_append.mp member with waiting | done
    · obtain ⟨t,_,same⟩ := List.mem_map.mp waiting
      rw [← same]
      exact .inl rfl
    · obtain ⟨t,_,same⟩ := List.mem_map.mp done
      rw [← same]
      exact .inr ⟨t.id,.inl rfl⟩
  have all := inv.ledger.perm (List.Perm.of_eq (List.append_nil s.tokens).symm)
  have freed := all.free_all (fun _ => []) (by simp) dead
  refine ⟨?_,by simp [destroy]⟩
  have gone : s.tokens.map tokenId = s._lst_task.map Task.id ++ s._lst_over.map Task.id := by
    rw [same,List.map_append,List.map_map,List.map_map]
    rfl
  have tokens_ : s.destroy.tokens = [] := by simp [tokens,destroy,empty]
  have log : s.tokens.flatMap (fun _ => ([] : List Event)) = [] := by simp
  rw [log,List.append_nil,gone,← List.append_assoc] at freed
  rw [tokens_]
  exact freed

/-- What each step does, and where it can be taken. -/
inductive Stepped (s : AsyncTask) : PoolOp → AsyncTask → Prop where
  | init : Stepped s .init {s with _running := true}
  | spawn : Stepped s .spawn {s with _threads := s._threads ++ [.loop]}
  | push {cbOver : Bool} : Stepped s (.push cbOver) (s.PushTask cbOver)
  | check {w : Nat} (at_ : s._threads[w]? = some .loop) :
    Stepped s (.check w) (s.atWorker w (if s._running then .entered else .exited))
  | take {w : Nat} (at_ : s._threads[w]? = some .entered) : Stepped s (.take w) (s.takeTask w)
  | begin {w : Nat} {t : Task} (at_ : s._threads[w]? = some (.holding t)) :
    Stepped s (.begin w) (s.beginTask w t)
  | finish {w : Nat} {t : Task} (at_ : s._threads[w]? = some (.running t)) :
    Stepped s (.finish w) (s.finishTask w t)
  | post {w : Nat} {t : Task} (at_ : s._threads[w]? = some (.done t)) :
    Stepped s (.post w) (s.postTask w t)
  | update {pushed : List Bool} : Stepped s (.update pushed) (s.Update pushed)
  | stop : Stepped s .stop {s with _running := false}
  | destroy (joined : ∀ worker ∈ s._threads, worker = .exited) : Stepped s .destroy s.destroy

theorem step_cases {s s' : AsyncTask} {op : PoolOp} (stepped : s.step op = some s') :
    Stepped s op s' := by
  unfold step at stepped
  split at stepped
  · cases stepped
  cases op with
  | init => cases stepped; exact .init
  | spawn => cases stepped; exact .spawn
  | push cbOver => cases stepped; exact .push
  | update pushed => cases stepped; exact .update
  | stop => cases stepped; exact .stop
  | destroy =>
    simp only at stepped
    split_ifs at stepped with joined
    cases stepped
    exact .destroy joined
  | check w =>
    simp only at stepped
    split at stepped
    next at_ => cases stepped; exact .check at_
    next => cases stepped
  | take w =>
    simp only at stepped
    split at stepped
    next at_ => cases stepped; exact .take at_
    next => cases stepped
  | begin w =>
    simp only at stepped
    split at stepped
    next at_ => cases stepped; exact .begin at_
    next => cases stepped
  | finish w =>
    simp only at stepped
    split at stepped
    next at_ => cases stepped; exact .finish at_
    next => cases stepped
  | post w =>
    simp only at stepped
    split at stepped
    next at_ => cases stepped; exact .post at_
    next => cases stepped

theorem inv_step {s s' : AsyncTask} {op : PoolOp} (inv : s.Inv) (stepped : s.step op = some s') :
    s'.Inv := by
  cases step_cases stepped with
  | init => exact inv.same (.refl _) rfl rfl rfl rfl
  | stop => exact inv.same (.refl _) rfl rfl rfl rfl
  | spawn =>
    refine inv.same (List.Perm.of_eq ?_) rfl rfl rfl rfl
    simp [tokens,Worker.hand]
  | push => exact inv_push inv _
  | check at_ =>
    obtain ⟨rest,before,after⟩ := hand_perm at_
    refine inv.same (((after _).trans ?_).trans before.symm) rfl rfl rfl rfl
    split <;> exact .refl _
  | take at_ => exact inv_take inv at_
  | begin at_ => exact inv_begin inv at_
  | finish at_ => exact inv_finish inv at_
  | post at_ => exact inv_post inv at_
  | update => exact inv_update inv _
  | destroy joined => exact inv_destroy inv joined

/-- No step but `Update` runs a `_cb_over`. -/
theorem over_step {s s' : AsyncTask} {op : PoolOp} (stepped : s.step op = some s') {id : Nat}
    (ran : s'.log.count (.overed id) ≠ s.log.count (.overed id)) : ∃ pushed, op = .update pushed := by
  cases step_cases stepped with
  | update => exact ⟨_,rfl⟩
  | begin at_ => exact absurd (by simp [beginTask]) ran
  | finish at_ => exact absurd (by simp [finishTask]) ran
  | take at_ =>
    refine absurd ?_ ran
    unfold takeTask
    split <;> rfl
  | post at_ =>
    refine absurd ?_ ran
    unfold postTask
    split <;> rfl
  | _ => exact absurd rfl ran

theorem inv_new (running : Bool) (cnt : UInt32) : (new running cnt).Inv where
  ledger := .empty
  over_list := fun _ member => absurd member List.not_mem_nil

/-- Along every interleaving each task is in one place, its callbacks run at most once
and in order, and it is freed once. -/
theorem tasks_conserved (running : Bool) (cnt : UInt32) (ops : List PoolOp) (s : AsyncTask)
    (ran : Runs.run step (new running cnt) ops = some s) :
    s.Conserved ∧ ∀ op s' id, s.step op = some s' →
      s'.log.count (.overed id) ≠ s.log.count (.overed id) → ∃ pushed, op = .update pushed := by
  have inv := Runs.run_pres Inv (fun _ _ _ inv stepped => inv_step inv stepped)
    (inv_new running cnt) ran
  exact ⟨inv.conserved,fun _ _ _ stepped changed => over_step stepped changed⟩

/-- Two workers, a task with a `_cb_over` and one without, a third left at the end. -/
def twoWorkers : List PoolOp :=
  [.init,.spawn,.spawn,.push true,.push false,.check 0,.check 1,.take 1,.take 0,.begin 0,.begin 1,
    .finish 1,.post 1,.update [true],.finish 0,.post 0,.stop,.check 0,.check 1,.destroy]

theorem tasks_conserved_two : ∃ s, Runs.run step (new false 0) twoWorkers = some s ∧
    s.freed = [0,1,2] ∧ s.Conserved := by
  have done : (Runs.run step (new false 0) twoWorkers).map freed = some [0,1,2] := by decide
  obtain ⟨s,ran,freed⟩ := Option.map_eq_some_iff.mp done
  exact ⟨s,ran,freed,(tasks_conserved false 0 twoWorkers s ran).1⟩

end AsyncTask

end Pworld.Async
