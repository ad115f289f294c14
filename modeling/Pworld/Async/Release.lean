import Pworld.Async.AsyncTask

/-! How the pool ends. `Release` stores false in `_running` and joins the threads. -/
namespace Pworld.Async

/-- The steps that a worker still takes once `_running` is false. -/
def Worker.left : Worker → Nat
  | .loop => 1
  | .entered => 5
  | .holding _ => 4
  | .running _ => 3
  | .done _ => 2
  | .exited => 0

/-- The worker can still start a task once `_running` is false. -/
def Worker.starts : Worker → Bool
  | .entered | .holding _ => true
  | _ => false

def Event.starts : Event → Bool
  | .began _ => true
  | _ => false

/-- The worker that takes the step. -/
def PoolOp.worker : PoolOp → Option Nat
  | .check w | .take w | .begin w | .finish w | .post w => some w
  | _ => none

/-- `Init` starts nothing any more. -/
def PoolOp.AfterInit : PoolOp → Prop
  | .init | .spawn => False
  | _ => True

namespace AsyncTask

def left (s : AsyncTask) : Nat :=
  (s._threads.flatMap fun a => List.replicate a.left a).length

/-- The tasks started, and those that still can be. -/
def begins (s : AsyncTask) : Nat :=
  s.log.countP Event.starts + s._threads.countP Worker.starts

/-- Once `_running` is false the threads take at most five steps and start at most one task each,
whatever waits in the list; and a thread can take a step until it has ended. -/
structure Ends (s : AsyncTask) : Prop where
  bounded : s._running = false → ∀ ops t, (∀ op ∈ ops, op.AfterInit) →
    Runs.run step s ops = some t → ops.countP (·.worker.isSome) ≤ 5 * s._threads.length
  starts : s._running = false → ∀ ops t, (∀ op ∈ ops, op.AfterInit) →
    Runs.run step s ops = some t →
      t.log.countP Event.starts ≤ s.log.countP Event.starts + s._threads.length
  goes_on : s.destroyed = false → ∀ w a, s._threads[w]? = some a → a ≠ .exited →
    ∃ op t, op.worker = some w ∧ s.step op = some t

/-- One worker moves on. -/
theorem worker_step {s s' : AsyncTask} {w : Nat} {a b : Worker} {es : List Event}
    (stopped : s._running = false) (at_ : s._threads[w]? = some a)
    (running : s'._running = s._running) (threads : s'._threads = s._threads.set w b)
    (log : s'.log = s.log ++ es) (pays : b.left < a.left)
    (few : es.countP Event.starts + (if b.starts then 1 else 0) ≤ if a.starts then 1 else 0) :
    s'._running = false ∧ s'.left + 1 ≤ s.left ∧ s'.begins ≤ s.begins := by
  obtain ⟨rest,before,after,_⟩ := set_perm at_
  have left := (before.flatMap_right fun a => List.replicate a.left a).length_eq
  have left' := ((after b).flatMap_right fun a => List.replicate a.left a).length_eq
  have starts := before.countP_eq Worker.starts
  have starts' := (after b).countP_eq Worker.starts
  simp only [List.flatMap_cons,List.length_append,List.length_replicate] at left left'
  rw [List.countP_cons] at starts starts'
  refine ⟨running.trans stopped,?_,?_⟩
  · unfold AsyncTask.left
    rw [threads]
    omega
  · unfold begins
    rw [threads,log,List.countP_append]
    omega

theorem pushes_fields (s : AsyncTask) (pushed : List Bool) :
    (pushed.foldl PushTask s)._running = s._running ∧
    (pushed.foldl PushTask s)._threads = s._threads ∧ (pushed.foldl PushTask s).log = s.log := by
  induction pushed generalizing s with
  | nil => exact ⟨rfl,rfl,rfl⟩
  | cons cbOver pushed ih => exact ih (s.PushTask cbOver)

/-- `Update` starts no task. -/
theorem update_fields (s : AsyncTask) (pushed : List Bool) :
    (s.Update pushed)._running = s._running ∧ (s.Update pushed)._threads = s._threads ∧
    (s.Update pushed).log.countP Event.starts = s.log.countP Event.starts := by
  obtain ⟨running,threads,log⟩ := pushes_fields {s with
    _lst_over := []
    freed := s.freed ++ s._lst_over.map Task.id
    log := s.log ++ s._lst_over.map fun t => .overed t.id} pushed
  refine ⟨running,threads,(congrArg (List.countP Event.starts) log).trans ?_⟩
  rw [List.countP_append,List.countP_map,Nat.add_eq_left,List.countP_eq_zero]
  intro t _
  exact Bool.false_ne_true

/-- What a step does once `Release` has stored false. -/
theorem released_step {s s' : AsyncTask} {op : PoolOp} (stopped : s._running = false)
    (after : op.AfterInit) (stepped : s.step op = some s') : s'._running = false ∧
    s'.left + (if op.worker.isSome then 1 else 0) ≤ s.left ∧ s'.begins ≤ s.begins := by
  cases step_cases stepped with
  | init => exact after.elim
  | spawn => exact after.elim
  | push => exact ⟨stopped,Nat.le_refl _,Nat.le_refl _⟩
  | stop => exact ⟨rfl,Nat.le_refl _,Nat.le_refl _⟩
  | destroy => exact ⟨stopped,Nat.le_refl _,Nat.le_refl _⟩
  | @update pushed =>
    obtain ⟨running,threads,log⟩ := update_fields s pushed
    refine ⟨running.trans stopped,?_,?_⟩
    · unfold left
      rw [threads]
      exact Nat.le_refl _
    · unfold begins
      rw [threads,log]
  | check at_ =>
    rw [stopped]
    exact worker_step stopped at_ rfl rfl (List.append_nil _).symm (by decide) (by decide)
  | take at_ =>
    unfold takeTask
    split
    · exact worker_step stopped at_ rfl rfl (List.append_nil _).symm (by decide) (by decide)
    · exact worker_step stopped at_ rfl rfl (List.append_nil _).symm (by simp [Worker.left])
        (by simp [Worker.starts])
  | begin at_ =>
    exact worker_step stopped at_ rfl rfl rfl (by simp [Worker.left])
      (by simp [Worker.starts,Event.starts])
  | finish at_ =>
    exact worker_step stopped at_ rfl rfl rfl (by simp [Worker.left])
      (by simp [Worker.starts,Event.starts])
  | post at_ =>
    unfold postTask
    split
    · exact worker_step stopped at_ rfl rfl (List.append_nil _).symm (by simp [Worker.left])
        (by simp [Worker.starts])
    · exact worker_step stopped at_ rfl rfl (List.append_nil _).symm (by simp [Worker.left])
        (by simp [Worker.starts])

theorem goes_on {s : AsyncTask} (alive : s.destroyed = false) {w : Nat} {a : Worker}
    (at_ : s._threads[w]? = some a) (live : a ≠ .exited) :
    ∃ op t, op.worker = some w ∧ s.step op = some t := by
  cases a with
  | loop => exact ⟨.check w,_,rfl,by simp only [step,alive,at_]; rfl⟩
  | entered => exact ⟨.take w,_,rfl,by simp only [step,alive,at_]; rfl⟩
  | holding t => exact ⟨.begin w,_,rfl,by simp only [step,alive,at_]; rfl⟩
  | running t => exact ⟨.finish w,_,rfl,by simp only [step,alive,at_]; rfl⟩
  | done t => exact ⟨.post w,_,rfl,by simp only [step,alive,at_]; rfl⟩
  | exited => exact absurd rfl live

theorem left_le (s : AsyncTask) : s.left ≤ 5 * s._threads.length := by
  unfold left
  induction s._threads with
  | nil => exact Nat.le_refl _
  | cons a rest ih =>
    have one : a.left ≤ 5 := by cases a <;> simp [Worker.left]
    rw [List.flatMap_cons,List.length_append,List.length_replicate,List.length_cons]
    omega

/-- From every state, whether it can be reached or not. -/
theorem release_ends (s : AsyncTask) : s.Ends where
  bounded := fun stopped ops t after ran => by
    have paid := Runs.countP_le (fun u => u._running = false)
      (fun u op member v stopped stepped => (released_step stopped (after op member) stepped).1)
      (·.worker.isSome) left
      (fun u op member v stopped stepped => (released_step stopped (after op member) stepped).2.1)
      stopped ran
    have most := left_le s
    omega
  starts := fun stopped ops t after ran => by
    have paid := Runs.countP_le (fun u => u._running = false)
      (fun u op member v stopped stepped => (released_step stopped (after op member) stepped).1)
      (fun _ => false) begins
      (fun u op member v stopped stepped => (released_step stopped (after op member) stepped).2.2)
      stopped ran
    unfold begins at paid
    have most : s._threads.countP Worker.starts ≤ s._threads.length := List.countP_le_length
    omega
  goes_on := fun alive _ _ at_ live => goes_on alive at_ live

end AsyncTask

end Pworld.Async
