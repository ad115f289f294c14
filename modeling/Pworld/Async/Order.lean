import Pworld.Async.AsyncTask

/-! In which order the pool starts its tasks. -/
namespace Pworld.Async

/-- The worker counts in `_task_cnt`. -/
def Worker.busy : Worker → Bool
  | .running _ | .done _ => true
  | _ => false

def Worker.holds : Worker → Option Nat
  | .holding t => some t.id
  | _ => none

namespace AsyncTask

/-- The tasks pushed before `id` that have not been started. -/
def behind (s : AsyncTask) (id : Nat) : List Nat :=
  (List.range id).filter fun earlier => Event.began earlier ∉ s.log

/-- The tasks that wait are the last ones pushed, in this order. A task is started before fewer
earlier ones than there are threads; and `_task_cnt` counts the tasks at work. -/
structure Ordered (cnt : UInt32) (s : AsyncTask) : Prop where
  waiting : s.destroyed = false →
    ∃ taken, List.range taken ++ s._lst_task.map Task.id = List.range s.next
  overtaken : ∀ id, .began id ∈ s.log → (s.behind id).length < s._threads.length
  counter : s._task_cnt = cnt + UInt32.ofNat (s._threads.countP Worker.busy)

/-- The tasks that have left the list and are not started. -/
def handed (s : AsyncTask) : List Nat := s._threads.filterMap Worker.holds

/-- `taken` tasks have left the list. A thread that has started a task holds none from before. -/
structure Queued (s : AsyncTask) (taken : Nat) : Prop where
  waiting : s.destroyed = false →
    List.range taken ++ s._lst_task.map Task.id = List.range s.next
  held : ∀ id < taken, .began id ∈ s.log ∨ id ∈ s.handed
  inside : ∀ id, .began id ∈ s.log ∨ id ∈ s.handed → id < taken
  starter : ∀ id, .began id ∈ s.log → ∃ w : Nat, ∃ a : Worker, s._threads[w]? = some a ∧
    ∀ n, a.holds = some n → id < n

theorem mem_handed {s : AsyncTask} {id : Nat} :
    id ∈ s.handed ↔ ∃ w : Nat, ∃ a : Worker, s._threads[w]? = some a ∧ a.holds = some id := by
  unfold handed
  rw [List.mem_filterMap]
  constructor
  · rintro ⟨a,member,holds⟩
    obtain ⟨w,at_⟩ := List.getElem?_of_mem member
    exact ⟨w,a,at_,holds⟩
  · rintro ⟨w,a,at_,holds⟩
    exact ⟨a,List.mem_of_getElem? at_,holds⟩

theorem Queued.overtaken {s : AsyncTask} {taken id : Nat} (queued : s.Queued taken)
    (started : .began id ∈ s.log) : (s.behind id).length < s._threads.length := by
  have early := queued.inside id (.inl started)
  obtain ⟨w,a,at_,later⟩ := queued.starter id started
  obtain ⟨bound,_⟩ := List.getElem?_eq_some_iff.mp at_
  -- the other threads hold what is behind
  have sub : s.behind id ⊆ (s._threads.eraseIdx w).filterMap Worker.holds := by
    intro n member
    obtain ⟨before,unstarted⟩ := List.mem_filter.mp member
    have before := List.mem_range.mp before
    rcases queued.held n (by omega) with begun | held
    · exact absurd begun (of_decide_eq_true unstarted)
    · obtain ⟨v,b,at',holds⟩ := mem_handed.mp held
      refine List.mem_filterMap.mpr ⟨b,List.mem_eraseIdx_iff_getElem?.mpr ⟨v,?_,at'⟩,holds⟩
      rintro rfl
      cases at_.symm.trans at'
      have after := later n holds
      omega
  have few := (List.subperm_of_subset (List.nodup_range.filter _) sub).length_le
  have fewer := (s._threads.eraseIdx w).length_filterMap_le Worker.holds
  have erased := List.length_eraseIdx_of_lt bound
  unfold behind at few ⊢
  omega

/-- A worker that holds nothing afterwards, having started what it held. -/
theorem Queued.worker {s s' : AsyncTask} {taken w : Nat} {a b : Worker} (queued : s.Queued taken)
    (at_ : s._threads[w]? = some a) (threads : s'._threads = s._threads.set w b)
    (waiting : s'.destroyed = false →
      List.range taken ++ s'._lst_task.map Task.id = List.range s'.next)
    (free : b.holds = none)
    (log : ∀ id, .began id ∈ s'.log ↔ .began id ∈ s.log ∨ a.holds = some id) :
    s'.Queued taken := by
  obtain ⟨bound,_⟩ := List.getElem?_eq_some_iff.mp at_
  have moved : s'._threads[w]? = some b := by rw [threads,List.getElem?_set_self bound]
  have rest {v : Nat} (other : w ≠ v) : s'._threads[v]? = s._threads[v]? := by
    rw [threads,List.getElem?_set_ne other]
  have handed (id : Nat) (held : id ∈ s'.handed) : id ∈ s.handed := by
    obtain ⟨v,c,at',holds⟩ := mem_handed.mp held
    by_cases same : w = v
    · subst same
      cases moved.symm.trans at'
      rw [free] at holds
      cases holds
    · exact mem_handed.mpr ⟨v,c,(rest same).symm.trans at',holds⟩
  refine ⟨waiting,fun id early => ?_,fun id known => ?_,fun id started => ?_⟩
  · rcases queued.held id early with begun | held
    · exact .inl ((log id).mpr (.inl begun))
    · obtain ⟨v,c,at',holds⟩ := mem_handed.mp held
      by_cases same : w = v
      · subst same
        cases at_.symm.trans at'
        exact .inl ((log id).mpr (.inr holds))
      · exact .inr (mem_handed.mpr ⟨v,c,(rest same).trans at',holds⟩)
  · rcases known with begun | held
    · rcases (log id).mp begun with old | mine
      · exact queued.inside id (.inl old)
      · exact queued.inside id (.inr (mem_handed.mpr ⟨w,a,at_,mine⟩))
    · exact queued.inside id (.inr (handed id held))
  · rcases (log id).mp started with old | mine
    · obtain ⟨v,c,at',later⟩ := queued.starter id old
      by_cases same : w = v
      · exact ⟨w,b,moved,by simp [free]⟩
      · exact ⟨v,c,(rest same).trans at',later⟩
    · exact ⟨w,b,moved,by simp [free]⟩

/-- A worker takes the first task. -/
theorem Queued.take {s : AsyncTask} {taken w : Nat} {t : Task} {tasks : List Task}
    (queued : s.Queued taken) (alive : s.destroyed = false)
    (at_ : s._threads[w]? = some .entered) (waiting : s._lst_task = t::tasks) :
    Queued {s.atWorker w (.holding t) with _lst_task := tasks} (taken+1) := by
  obtain ⟨bound,_⟩ := List.getElem?_eq_some_iff.mp at_
  have order := queued.waiting alive
  have first : t.id = taken := by
    have there := congrArg (·[taken]?) order
    rw [waiting,List.map_cons] at there
    simp only [List.getElem?_append_right (Nat.le_of_eq List.length_range),List.length_range,
      Nat.sub_self,List.getElem?_cons_zero] at there
    obtain ⟨_,same⟩ := List.getElem?_eq_some_iff.mp there.symm
    rw [← same,List.getElem_range]
  have moved : (s._threads.set w (.holding t))[w]? = some (.holding t) :=
    List.getElem?_set_self bound
  have rest {v : Nat} (other : w ≠ v) : (s._threads.set w (.holding t))[v]? = s._threads[v]? :=
    List.getElem?_set_ne other
  refine ⟨fun _ => ?_,fun id early => ?_,fun id known => ?_,fun id started => ?_⟩
  · rw [waiting,List.map_cons,first] at order
    rw [List.range_succ,List.append_assoc]
    exact order
  · by_cases new : id = taken
    · exact .inr (mem_handed.mpr ⟨w,.holding t,moved,by rw [Worker.holds,first,new]⟩)
    · rcases queued.held id (by omega) with begun | held
      · exact .inl begun
      · obtain ⟨v,c,at',holds⟩ := mem_handed.mp held
        by_cases same : w = v
        · subst same
          cases at_.symm.trans at'
          cases holds
        · exact .inr (mem_handed.mpr ⟨v,c,(rest same).trans at',holds⟩)
  · rcases known with begun | held
    · exact Nat.lt_succ_of_lt (queued.inside id (.inl begun))
    · obtain ⟨v,c,at',holds⟩ := mem_handed.mp held
      by_cases same : w = v
      · subst same
        cases moved.symm.trans at'
        cases holds
        omega
      · exact Nat.lt_succ_of_lt
          (queued.inside id (.inr (mem_handed.mpr ⟨v,c,(rest same).symm.trans at',holds⟩)))
  · obtain ⟨v,c,at',later⟩ := queued.starter id started
    by_cases same : w = v
    · refine ⟨w,.holding t,moved,fun n holds => ?_⟩
      cases holds
      rw [first]
      exact queued.inside id (.inl started)
    · exact ⟨v,c,(rest same).trans at',later⟩

/-- `Update` has called the callbacks, and what they have pushed is left out. -/
def called (s : AsyncTask) : AsyncTask :=
  {s with
    _lst_over := []
    freed := s.freed ++ s._lst_over.map Task.id
    log := s.log ++ s._lst_over.map fun t => .overed t.id}

theorem Queued.push {s : AsyncTask} {taken : Nat} (queued : s.Queued taken) (cbOver : Bool) :
    (s.PushTask cbOver).Queued taken := by
  refine ⟨fun alive => ?_,queued.held,queued.inside,queued.starter⟩
  simp only [PushTask,List.map_append,List.map_cons,List.map_nil,List.range_succ]
  rw [← List.append_assoc,queued.waiting alive]

theorem Queued.pushes {s : AsyncTask} {taken : Nat} (queued : s.Queued taken)
    (pushed : List Bool) : (pushed.foldl PushTask s).Queued taken := by
  induction pushed generalizing s with
  | nil => exact queued
  | cons cbOver pushed ih => exact ih (queued.push cbOver)

theorem step_alive {s s' : AsyncTask} {op : PoolOp} (stepped : s.step op = some s') :
    s.destroyed = false := by
  unfold step at stepped
  split at stepped
  · cases stepped
  next alive => exact Bool.eq_false_iff.mpr alive

theorem queued_step {s s' : AsyncTask} {op : PoolOp} {taken : Nat} (queued : s.Queued taken)
    (stepped : s.step op = some s') : ∃ taken', s'.Queued taken' := by
  have alive := step_alive stepped
  cases step_cases stepped with
  | init => exact ⟨taken,queued.waiting,queued.held,queued.inside,queued.starter⟩
  | stop => exact ⟨taken,queued.waiting,queued.held,queued.inside,queued.starter⟩
  | spawn =>
    have kept {w : Nat} {a : Worker} (at_ : s._threads[w]? = some a) :
        (s._threads ++ [.loop])[w]? = some a := by
      rw [List.getElem?_append_left (List.getElem?_eq_some_iff.mp at_).1,at_]
    have handed : handed {s with _threads := s._threads ++ [.loop]} = s.handed := by
      simp [AsyncTask.handed,List.filterMap_append,Worker.holds]
    refine ⟨taken,queued.waiting,?_,?_,fun id started => ?_⟩
    · rw [handed]
      exact queued.held
    · rw [handed]
      exact queued.inside
    · obtain ⟨w,a,at_,later⟩ := queued.starter id started
      exact ⟨w,a,kept at_,later⟩
  | push => exact ⟨taken,queued.push _⟩
  | check at_ =>
    refine ⟨taken,queued.worker at_ rfl queued.waiting ?_ fun id => ?_⟩
    · split <;> rfl
    · simp [atWorker,Worker.holds]
  | @take w at_ =>
    unfold takeTask
    split
    · refine ⟨taken,queued.worker at_ rfl queued.waiting rfl fun id => ?_⟩
      simp [atWorker,Worker.holds]
    next t tasks waiting => exact ⟨taken+1,queued.take alive at_ waiting⟩
  | begin at_ =>
    refine ⟨taken,queued.worker at_ rfl queued.waiting rfl fun id => ?_⟩
    simp [beginTask,Worker.holds,eq_comm]
  | finish at_ =>
    refine ⟨taken,queued.worker at_ rfl queued.waiting rfl fun id => ?_⟩
    simp [finishTask,Worker.holds]
  | @post w t at_ =>
    unfold postTask
    split
    · refine ⟨taken,queued.worker at_ rfl queued.waiting rfl fun id => ?_⟩
      simp [atWorker,Worker.holds]
    · refine ⟨taken,queued.worker at_ rfl queued.waiting rfl fun id => ?_⟩
      simp [atWorker,Worker.holds]
  | @update pushed =>
    have called : s.called.Queued taken := by
      refine ⟨queued.waiting,fun id early => ?_,fun id known => ?_,fun id started => ?_⟩
      · simpa [handed,AsyncTask.called] using queued.held id early
      · exact queued.inside id (by simpa [handed,AsyncTask.called] using known)
      · exact queued.starter id (by simpa [AsyncTask.called] using started)
    exact ⟨taken,called.pushes pushed⟩
  | destroy joined =>
    exact ⟨taken,by simp [destroy],queued.held,queued.inside,queued.starter⟩

/-- What one worker's step changes in a count over all of them. -/
theorem countP_worker {p : Worker → Bool} {s : AsyncTask} {w : Nat} {a : Worker}
    (at_ : s._threads[w]? = some a) (b : Worker) :
    (s._threads.set w b).countP p + (if p a then 1 else 0) =
      s._threads.countP p + (if p b then 1 else 0) := by
  obtain ⟨rest,before,after,_⟩ := set_perm at_
  rw [before.countP_eq,(after b).countP_eq,List.countP_cons,List.countP_cons]
  omega

def Counted (cnt : UInt32) (s : AsyncTask) : Prop :=
  s._task_cnt = cnt + UInt32.ofNat (s._threads.countP Worker.busy)

theorem Counted.pushes {cnt : UInt32} {s : AsyncTask} (counted : s.Counted cnt)
    (pushed : List Bool) : (pushed.foldl PushTask s).Counted cnt := by
  induction pushed generalizing s with
  | nil => exact counted
  | cons cbOver pushed ih => exact ih counted

/-- A worker goes on without a change of `_task_cnt`. -/
theorem Counted.worker {cnt : UInt32} {s s' : AsyncTask} {w : Nat} {a b : Worker}
    (counted : s.Counted cnt) (at_ : s._threads[w]? = some a)
    (threads : s'._threads = s._threads.set w b) (same : a.busy = b.busy)
    (kept : s'._task_cnt = s._task_cnt) : s'.Counted cnt := by
  have count := countP_worker (p := Worker.busy) at_ b
  rw [same] at count
  unfold Counted
  rw [kept,threads,Nat.add_right_cancel count]
  exact counted

theorem counted_step {cnt : UInt32} {s s' : AsyncTask} {op : PoolOp} (counted : s.Counted cnt)
    (stepped : s.step op = some s') : s'.Counted cnt := by
  cases step_cases stepped with
  | spawn =>
    unfold Counted
    rw [List.countP_append]
    exact counted
  | check at_ =>
    refine counted.worker at_ rfl ?_ rfl
    split <;> rfl
  | take at_ =>
    unfold takeTask
    split
    · exact counted.worker at_ rfl rfl rfl
    · exact counted.worker at_ rfl rfl rfl
  | @begin w t at_ =>
    have count := countP_worker (p := Worker.busy) at_ (.running t)
    simp only [Worker.busy,Bool.false_eq_true,if_false,if_true,Nat.add_zero] at count
    unfold Counted at counted ⊢
    simp only [beginTask,atWorker,count,counted,UInt32.ofNat_add]
    rw [UInt32.add_assoc]
    rfl
  | finish at_ => exact counted.worker at_ rfl rfl rfl
  | @post w t at_ =>
    have count := countP_worker (p := Worker.busy) at_ .loop
    simp only [Worker.busy,Bool.false_eq_true,if_false,if_true,Nat.add_zero] at count
    have fewer : s._task_cnt - 1 =
        cnt + UInt32.ofNat ((s._threads.set w .loop).countP Worker.busy) := by
      unfold Counted at counted
      rw [counted,← count,UInt32.ofNat_add,← UInt32.add_assoc]
      exact UInt32.add_sub_cancel ..
    unfold postTask
    split
    · exact fewer
    · exact fewer
  | @update pushed => exact Counted.pushes (s := s.called) counted pushed
  | _ => exact counted

theorem Queued.ordered {cnt : UInt32} {s : AsyncTask} {taken : Nat} (queued : s.Queued taken)
    (counted : s.Counted cnt) : s.Ordered cnt :=
  ⟨fun alive => ⟨taken,queued.waiting alive⟩,fun _ started => queued.overtaken started,counted⟩

theorem tasks_ordered (running : Bool) (cnt : UInt32) (ops : List PoolOp) :
    Runs.Always step (Ordered cnt) (new running cnt) ops := by
  refine Runs.always_of_pres (fun s => (∃ taken, s.Queued taken) ∧ s.Counted cnt) ?_ ?_ ?_
  · intro s inv
    obtain ⟨⟨taken,queued⟩,counted⟩ := inv
    exact queued.ordered counted
  · intro s op s' inv stepped
    obtain ⟨⟨taken,queued⟩,counted⟩ := inv
    exact ⟨queued_step queued stepped,counted_step counted stepped⟩
  · exact ⟨⟨0,fun _ => rfl,by simp,by simp [new,handed],by simp [new]⟩,by simp [Counted,new]⟩

end AsyncTask

end Pworld.Async
