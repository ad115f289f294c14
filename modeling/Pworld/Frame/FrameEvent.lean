import Pworld.Support.Ledger
import Pworld.Support.Loop
import Pworld.Support.Runs
import Mathlib.Algebra.GroupWithZero.Nat

/-! Callbacks to be run at the beginning or the end of a frame or behind a message. A list
grows while it is traversed, since a callback may register others, and is cleared whole. -/
namespace Pworld.Frame.Events

/-- The lists of `FrameEvent`. -/
inductive Lst where
  | begin
  | msgEnd
  | end_
  deriving DecidableEq,Repr

/-- What a piece of code registers, in turn; what is registered is code again. -/
inductive Code where
  | done
  | emit (l : Lst) (run rest : Code)
  deriving DecidableEq,Repr

/-- How many callbacks come of one that does this, itself included. -/
def Code.size : Code → Nat
  | .done => 1
  | .emit _ run rest => run.size + rest.size

structure Callback where
  address : Nat
  run : Code
  deriving DecidableEq,Repr

structure FrameEvent where
  _lst_cb_begin : List Callback
  _lst_cb_end : List Callback
  _lst_cb_msg_end : List Callback
  deriving DecidableEq,Repr

namespace FrameEvent

def lst (f : FrameEvent) : Lst → List Callback
  | .begin => f._lst_cb_begin
  | .msgEnd => f._lst_cb_msg_end
  | .end_ => f._lst_cb_end

def set (f : FrameEvent) (cs : List Callback) : Lst → FrameEvent
  | .begin => {f with _lst_cb_begin := cs}
  | .msgEnd => {f with _lst_cb_msg_end := cs}
  | .end_ => {f with _lst_cb_end := cs}

theorem lst_set (f : FrameEvent) (cs : List Callback) (l q : Lst) :
    (f.set cs l).lst q = if q = l then cs else f.lst q := by
  cases l <;> cases q <;> rfl

end FrameEvent

inductive Event where
  | emit (l : Lst) (address : Nat)
  | run (l : Lst) (address : Nat)
  | free (address : Nat)
  deriving DecidableEq,Repr

/-- The process, with what has been done so far. `next` is the address of the next callback. -/
structure World where
  events : FrameEvent
  next : Nat
  log : List Event
  deriving DecidableEq,Repr

namespace World

def start : World := ⟨⟨[],[],[]⟩,0,[]⟩

def push (w : World) (l : Lst) (run : Code) : World where
  events := w.events.set (w.events.lst l ++ [⟨w.next,run⟩]) l
  next := w.next + 1
  log := w.log ++ [.emit l w.next]

def EmitBegin (w : World) (run : Code) : World := w.push .begin run
def EmitMsgEnd (w : World) (run : Code) : World := w.push .msgEnd run
def EmitEnd (w : World) (run : Code) : World := w.push .end_ run

def Emit : World → Lst → Code → World
  | w, .begin, run => w.EmitBegin run
  | w, .msgEnd, run => w.EmitMsgEnd run
  | w, .end_, run => w.EmitEnd run

def perform : World → Code → World
  | w, .done => w
  | w, .emit l run rest => (w.Emit l run).perform rest

def call (w : World) (e : Event) : World := {w with log := w.log ++ [e]}

/-- One element of the range-based loop: `end()` stays the end of the list while it grows. -/
def updateBody (l : Lst) : Nat × World → Option ((Nat × World) ⊕ World)
  | (i,w) =>
    match (w.events.lst l)[i]? with
    | none => some (.inr {w with events := w.events.set [] l})
    | some c => some (.inl (i+1,((w.call (.run l c.address)).perform c.run).call (.free c.address)))

def weight (l : Lst) (i : Nat) (w : World) : Nat :=
  (((w.events.lst l).drop i).map fun c => c.run.size).sum

def update (w : World) (l : Lst) : Option World :=
  if (w.events.lst l).isEmpty then some w
  else Loop.iterate (updateBody l) (w.weight l 0 + 1) (0,w)

def UpdateBegin (w : World) : Option World := w.update .begin
def UpdateMsgEnd (w : World) : Option World := w.update .msgEnd
def UpdateEnd (w : World) : Option World := w.update .end_

end World

inductive Op where
  | hook (code : Code)
  | update (l : Lst)
  deriving DecidableEq,Repr

def World.step (w : World) : Op → Option World
  | .hook code => some (w.perform code)
  | .update .begin => w.UpdateBegin
  | .update .msgEnd => w.UpdateMsgEnd
  | .update .end_ => w.UpdateEnd

/-- The handlers called in one frame, by what they register; `on_msg` is called for each message
that is popped. -/
structure FrameIn where
  on_frame_begin : Code
  on_update : Code
  on_msg : List Code
  on_update_idle : Option Code
  on_update_busy : Option Code
  on_frame_end : Code

def FrameIn.ops (f : FrameIn) : List Op :=
  [.hook f.on_frame_begin,.update .begin,.hook f.on_update] ++
    f.on_msg.flatMap (fun m => [.hook m,.update .msgEnd]) ++
    f.on_update_idle.toList.map .hook ++ f.on_update_busy.toList.map .hook ++
    [.update .end_,.hook f.on_frame_end]

def _run (on_start : Code) (frames : List FrameIn) (on_stop : Code) : List Op :=
  [.hook on_start] ++ frames.flatMap FrameIn.ops ++ [.hook on_stop]

def Event.emitted (l : Lst) : Event → Option Nat
  | .emit q n => if q = l then some n else none
  | _ => none

def Event.ran (l : Lst) : Event → Option Nat
  | .run q n => if q = l then some n else none
  | _ => none

def Event.runs : Event → Option Nat
  | .run _ n => some n
  | _ => none

def Event.frees : Event → Option Nat
  | .free n => some n
  | _ => none

namespace World

variable {w w' : World} {l q : Lst} {i k : Nat} {running : List Nat} {c : Callback}

def emitted (w : World) (l : Lst) : List Nat := w.log.filterMap (Event.emitted l)
def ran (w : World) (l : Lst) : List Nat := w.log.filterMap (Event.ran l)
def runs (w : World) : List Nat := w.log.filterMap Event.runs
def freed (w : World) : List Nat := w.log.filterMap Event.frees

/-- The callbacks of a list from its `k`-th on. -/
def waiting (w : World) (l : Lst) (k : Nat) : List Nat :=
  ((w.events.lst l).drop k).map (·.address)

/-- Those of one list from the `i`-th on, and those of the others. -/
def pending (w : World) (l : Lst) (i : Nat) : List Nat :=
  [Lst.begin,.msgEnd,.end_].flatMap fun q => w.waiting q (if q = l then i else 0)

/-- Up to the `i`-th all callbacks of `l` have been run and, but for one that is running, freed. -/
structure Inv (l : Lst) (i : Nat) (running : List Nat) (w : World) : Prop where
  inside : i ≤ (w.events.lst l).length
  account : Account (running ++ w.pending l i) w.freed w.next
  order : ∀ q, w.emitted q = w.ran q ++ w.waiting q (if q = l then i else 0)
  ended : w.runs = w.freed ++ running

theorem Emit_eq (w : World) (l : Lst) (run : Code) : w.Emit l run = w.push l run := by
  cases l <;> rfl

theorem push_lst (w : World) (l q : Lst) (run : Code) : (w.push l run).events.lst q =
    w.events.lst q ++ if q = l then [⟨w.next,run⟩] else [] := by
  rw [push,FrameEvent.lst_set]
  split
  next same => rw [same]
  next => rw [List.append_nil]

theorem push_waiting (run : Code) (inside : k ≤ (w.events.lst q).length) :
    (w.push l run).waiting q k = w.waiting q k ++ if q = l then [w.next] else [] := by
  rw [waiting,push_lst,List.drop_append_of_le_length inside,List.map_append,waiting]
  split
  · rfl
  · rfl

theorem push_weight (run : Code) (inside : i ≤ (w.events.lst l).length) :
    (w.push q run).weight l i ≤ w.weight l i + run.size := by
  rw [weight,push_lst,List.drop_append_of_le_length inside,List.map_append,List.sum_append,weight]
  split
  · exact Nat.le_refl _
  · exact Nat.le_add_right _ _

theorem Inv.within (inv : Inv l i running w) (q : Lst) :
    (if q = l then i else 0) ≤ (w.events.lst q).length := by
  split
  next same =>
    rw [same]
    exact inv.inside
  next => exact Nat.zero_le _

theorem push_pending (run : Code)
    (within : ∀ p, (if p = l then i else 0) ≤ (w.events.lst p).length) :
    ((w.push q run).pending l i).Perm (w.next::w.pending l i) := by
  apply List.perm_iff_count.mpr
  intro n
  change _ = List.count n ([w.next] ++ w.pending l i)
  simp only [pending,List.flatMap_cons,List.flatMap_nil,push_waiting run (within _),
    List.count_append,List.count_nil]
  cases q <;> simp only [reduceCtorEq,if_true,if_false,List.count_nil] <;> omega

theorem push_log (w : World) (q : Lst) (run : Code) (f : Event → Option Nat) :
    (w.push q run).log.filterMap f = w.log.filterMap f ++ (f (.emit q w.next)).toList := by
  rw [push,List.filterMap_append,List.filterMap_cons,List.filterMap_nil]
  cases f (.emit q w.next) <;> rfl

theorem Inv.push (inv : Inv l i running w) (q : Lst) (run : Code) :
    Inv l i running (w.push q run) := by
  refine ⟨?_,?_,?_,?_⟩
  · rw [push_lst,List.length_append]
    exact Nat.le_add_right_of_le inv.inside
  · rw [World.freed,push_log]
    refine Account.perm ?_ (List.append_nil w.freed ▸ inv.account.make)
    apply List.Perm.trans List.perm_middle.symm
    exact (push_pending run inv.within).symm.append_left running
  · intro p
    rw [emitted,push_log,ran,push_log,push_waiting run (inv.within p)]
    have order := inv.order p
    rw [emitted,ran] at order
    simp only [Event.emitted,Event.ran,order,Option.toList_none,List.append_nil,List.append_assoc]
    by_cases same : p = q
    · rw [if_pos same,if_pos same.symm]
      rfl
    · rw [if_neg same,if_neg (Ne.symm same)]
      rfl
  · have ended := inv.ended
    rw [runs,World.freed] at ended
    rw [runs,push_log,World.freed,push_log,ended]
    simp only [Event.runs,Event.frees,Option.toList_none,List.append_nil]

theorem call_log (w : World) (e : Event) (f : Event → Option Nat) :
    (w.call e).log.filterMap f = w.log.filterMap f ++ (f e).toList := by
  rw [call,List.filterMap_append,List.filterMap_cons,List.filterMap_nil]
  cases f e <;> rfl

theorem call_waiting (w : World) (e : Event) (l : Lst) (k : Nat) :
    (w.call e).waiting l k = w.waiting l k := rfl

theorem call_weight (w : World) (e : Event) (l : Lst) (i : Nat) :
    (w.call e).weight l i = w.weight l i := rfl

/-- What a piece of code registers is behind what is there, and counts as part of it. -/
theorem Inv.perform (inv : Inv l i running w) (code : Code) :
    Inv l i running (w.perform code) ∧ (w.perform code).weight l i < w.weight l i + code.size := by
  induction code generalizing w with
  | done => exact ⟨inv,Nat.lt_succ_self _⟩
  | emit q run rest _ ih =>
    rw [World.perform,Emit_eq]
    obtain ⟨rested,less⟩ := ih (inv.push q run)
    have grown : (w.push q run).weight l i ≤ w.weight l i + run.size := push_weight run inv.inside
    refine ⟨rested,?_⟩
    rw [Code.size]
    omega

theorem waiting_cons (at_ : (w.events.lst l)[i]? = some c) :
    w.waiting l i = c.address::w.waiting l (i+1) := by
  obtain ⟨inside,same⟩ := List.getElem?_eq_some_iff.mp at_
  rw [waiting,waiting,← List.getElem_cons_drop inside,same,List.map_cons]

theorem Inv.run (inv : Inv l i [] w) (at_ : (w.events.lst l)[i]? = some c) :
    Inv l (i+1) [c.address] (w.call (.run l c.address)) := by
  have inside : i < (w.events.lst l).length := (List.getElem?_eq_some_iff.mp at_).1
  have moved (p : Lst) : w.waiting p (if p = l then i else 0) =
      (if p = l then [c.address] else []) ++ w.waiting p (if p = l then i+1 else 0) := by
    split
    next same =>
      rw [same]
      exact waiting_cons at_
    next => rfl
  refine ⟨inside,?_,?_,?_⟩
  · rw [World.freed,call_log]
    refine Account.perm ?_ (List.append_nil w.freed ▸ inv.account)
    apply List.perm_iff_count.mpr
    intro n
    simp only [pending,List.flatMap_cons,List.flatMap_nil,List.count_append,moved,List.count_nil,
      call_waiting]
    cases l <;> simp only [reduceCtorEq,if_true,if_false,List.count_nil] <;> omega
  · intro p
    rw [emitted,call_log,ran,call_log]
    have order := inv.order p
    rw [emitted,ran,moved] at order
    simp only [Event.emitted,Event.ran,order,Option.toList_none,List.append_nil,List.append_assoc]
    by_cases same : p = l
    · rw [if_pos same,if_pos same.symm]
      rfl
    · rw [if_neg same,if_neg (Ne.symm same)]
      rfl
  · have ended := inv.ended
    rw [runs,World.freed] at ended
    rw [runs,call_log,World.freed,call_log,ended]
    simp only [Event.runs,Event.frees,Option.toList_none,Option.toList_some,List.append_nil]

theorem Inv.free {n : Nat} (inv : Inv l i [n] w) : Inv l i [] (w.call (.free n)) := by
  refine ⟨inv.inside,?_,?_,?_⟩
  · rw [World.freed,call_log]
    exact inv.account.free_all
  · intro p
    rw [emitted,call_log,ran,call_log]
    have order := inv.order p
    rw [emitted,ran] at order
    simp only [Event.emitted,Event.ran,Option.toList_none,List.append_nil,order]
    rfl
  · have ended := inv.ended
    rw [runs,World.freed] at ended
    rw [runs,call_log,World.freed,call_log,ended]
    simp only [Event.runs,Event.frees,Option.toList_none,Option.toList_some,List.append_nil]

theorem Inv.clear (inv : Inv l i [] w) (whole : (w.events.lst l).length ≤ i) :
    Inv l 0 [] {w with events := w.events.set [] l} := by
  have same (p : Lst) : World.waiting {w with events := w.events.set [] l} p
      (if p = l then 0 else 0) = w.waiting p (if p = l then i else 0) := by
    simp only [waiting,FrameEvent.lst_set]
    split
    next same => rw [same,List.drop_of_length_le whole,List.drop_nil]
    next => rfl
  refine ⟨Nat.zero_le _,?_,?_,inv.ended⟩
  · have pending : World.pending {w with events := w.events.set [] l} l 0 = w.pending l i := by
      simp only [World.pending,same]
    rw [pending]
    exact inv.account
  · intro p
    rw [same]
    exact inv.order p

theorem Inv.between (inv : Inv l 0 [] w) (q : Lst) : Inv q 0 [] w := by
  have pending : w.pending q 0 = w.pending l 0 := by
    simp only [World.pending,ite_self]
  refine ⟨Nat.zero_le _,?_,?_,inv.ended⟩
  · rw [pending]
    exact inv.account
  · intro p
    have order := inv.order p
    rw [ite_self] at order ⊢
    exact order

theorem updateBody_spec (inv : Inv l i [] w) :
    (∃ w', updateBody l (i,w) = some (.inl (i+1,w')) ∧ Inv l (i+1) [] w' ∧
      w'.weight l (i+1) < w.weight l i) ∨
    ∃ w', updateBody l (i,w) = some (.inr w') ∧ Inv l 0 [] w' ∧ w'.events.lst l = [] := by
  cases at_ : (w.events.lst l)[i]? with
  | none =>
    right
    refine ⟨{w with events := w.events.set [] l},?_,?_,?_⟩
    · simp only [updateBody,at_]
    · exact inv.clear (List.getElem?_eq_none_iff.mp at_)
    · rw [FrameEvent.lst_set,if_pos rfl]
  | some c =>
    left
    obtain ⟨done,less⟩ := (inv.run at_).perform c.run
    refine ⟨_,?_,done.free,?_⟩
    · simp only [updateBody,at_]
    · obtain ⟨inside,same⟩ := List.getElem?_eq_some_iff.mp at_
      have first : w.weight l i = c.run.size + w.weight l (i+1) := by
        rw [weight,weight,← List.getElem_cons_drop inside,same,List.map_cons,List.sum_cons]
      rw [call_weight] at less ⊢
      omega

/-- A phase returns, however the callbacks register others, and leaves its list empty. -/
theorem update_spec (inv : Inv l 0 [] w) :
    ∃ w', w.update l = some w' ∧ Inv l 0 [] w' ∧ w'.events.lst l = [] := by
  unfold update
  split
  next empty => exact ⟨w,rfl,inv,List.isEmpty_iff.mp empty⟩
  next =>
    apply Loop.iterate_total (fun s : Nat × World => Inv l s.1 [] s.2)
      (fun w' => Inv l 0 [] w' ∧ w'.events.lst l = []) (fun s => s.2.weight l s.1) _ inv
    · exact Nat.lt_succ_self _
    · rintro ⟨i,w⟩ inv
      rcases updateBody_spec inv with ⟨w',again,inv',less⟩ | ⟨w',left_,inv',empty⟩
      · exact .inl ⟨(i+1,w'),again,inv',less⟩
      · exact .inr ⟨w',left_,inv',empty⟩

theorem step_update (w : World) (l : Lst) : w.step (.update l) = w.update l := by
  cases l <;> rfl

theorem Inv.start : Inv .begin 0 [] start where
  inside := Nat.le_refl 0
  account := Account.empty
  order q := by cases q <;> rfl
  ended := rfl

theorem step_spec (inv : Inv .begin 0 [] w) (o : Op) :
    ∃ w', w.step o = some w' ∧ Inv .begin 0 [] w' := by
  cases o with
  | hook code => exact ⟨_,rfl,(inv.perform code).1⟩
  | update l =>
    obtain ⟨w',returned,inv',_⟩ := update_spec (inv.between l)
    rw [step_update]
    exact ⟨w',returned,inv'.between .begin⟩

theorem inv_step {o : Op} (inv : Inv .begin 0 [] w) (stepped : w.step o = some w') :
    Inv .begin 0 [] w' := by
  obtain ⟨v,returned,inv'⟩ := step_spec inv o
  rwa [Option.some.inj (stepped.symm.trans returned)]

theorem run_returns (os : List Op) (inv : Inv .begin 0 [] w) :
    ∃ w', Runs.run step w os = some w' := by
  induction os generalizing w with
  | nil => exact ⟨w,rfl⟩
  | cons o os ih =>
    obtain ⟨v,stepped,inv'⟩ := step_spec inv o
    rw [Runs.run_cons,stepped]
    exact ih inv'

theorem Inv.atMostOnce (inv : Inv l i [] w) (n : Nat) :
    w.runs.count n ≤ 1 ∧ w.freed.count n ≤ 1 := by
  have once : w.freed.Nodup := by
    have distinct := Ledger.nodup inv.account
    rw [List.map_id] at distinct
    exact (List.nodup_append.mp distinct).2.1
  have count : w.freed.count n ≤ 1 := List.nodup_iff_count_le_one.mp once n
  rw [inv.ended,List.append_nil]
  exact ⟨count,count⟩

theorem Inv.all_ran (inv : Inv l 0 [] w) (empty : w.events.lst l = []) :
    w.emitted l = w.ran l := by
  have order := inv.order l
  rwa [ite_self,waiting,empty,List.drop_nil,List.map_nil,List.append_nil] at order

theorem Inv.once (inv : Inv l 0 [] w) (empty : w.events.lst l = []) {n : Nat}
    (member : n ∈ w.emitted l) : w.runs.count n = 1 ∧ w.freed.count n = 1 := by
  have ran : n ∈ w.runs := by
    rw [inv.all_ran empty] at member
    obtain ⟨e,logged,same⟩ := List.mem_filterMap.mp member
    refine List.mem_filterMap.mpr ⟨e,logged,?_⟩
    cases e with
    | run q n' =>
      simp only [Event.ran] at same
      split at same
      · exact same
      · cases same
    | emit => cases same
    | free => cases same
  obtain ⟨few,few'⟩ := inv.atMostOnce n
  have some_ : 0 < w.runs.count n := List.count_pos_iff.mpr ran
  have ended := inv.ended
  rw [List.append_nil] at ended
  rw [← ended]
  omega

/-- No callback has been run or freed twice, and those of a list were run in the order in which
they were registered. -/
def Orderly (w : World) : Prop :=
  (∀ n, w.runs.count n ≤ 1 ∧ w.freed.count n ≤ 1) ∧ ∀ l, w.ran l <+: w.emitted l

/-- At the end of a phase each callback registered in its list has been run and freed once. -/
def Completes (w : World) (o : Op) : Prop :=
  ∀ l w', o = .update l → w.step o = some w' → w'.ran l = w'.emitted l ∧
    ∀ n ∈ w'.emitted l, w'.runs.count n = 1 ∧ w'.freed.count n = 1

theorem Inv.orderly (inv : Inv l 0 [] w) : w.Orderly :=
  ⟨inv.atMostOnce,fun q => ⟨_,(inv.order q).symm⟩⟩

theorem Inv.completes (inv : Inv .begin 0 [] w) (o : Op) : w.Completes o := by
  intro l v same stepped
  obtain ⟨w',returned,inv',empty⟩ := update_spec (inv.between l)
  rw [same,step_update,returned] at stepped
  cases stepped
  exact ⟨(inv'.all_ran empty).symm,fun n member => inv'.once empty member⟩

/-- Every run of the frame loop gets through its phases, whatever the handlers and the callbacks
register, and runs and frees each callback once, in order. -/
theorem callbacks_run_once (on_start on_stop : Code) (frames : List FrameIn) :
    (∃ w, Runs.run step start (_run on_start frames on_stop) = some w) ∧
      Runs.Always step Orderly start (_run on_start frames on_stop) ∧
      Runs.Meets step Completes start (_run on_start frames on_stop) := by
  refine ⟨run_returns _ Inv.start,?_,?_⟩
  · exact Runs.always_of_pres (Inv .begin 0 []) (fun _ => Inv.orderly)
      (fun _ _ _ => inv_step) Inv.start
  · exact Runs.meets_of_pres (Inv .begin 0 []) (fun _ o inv => inv.completes o)
      (fun _ _ _ => inv_step) Inv.start

/-- One callback registers another behind itself and one for the end of the frame. -/
example : (Runs.run step start
    [.hook (.emit .begin (.emit .begin .done (.emit .end_ .done .done)) .done),
      .update .begin]).map (·.log) =
    some [.emit .begin 0,.run .begin 0,.emit .begin 1,.emit .end_ 2,.free 0,.run .begin 1,
      .free 1] := by
  decide

end World

end Pworld.Frame.Events
