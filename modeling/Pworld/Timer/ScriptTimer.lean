import Pworld.Timer.Ids

/-! The timers that scripts make. Their callbacks run on the `ScriptTimer` that made them,
which keeps their ids to cancel them before it is gone. -/
namespace Pworld.Timing

structure ScriptTimer where
  _script_timers : List Nat  -- without repetition, in no order that matters
  deriving DecidableEq

/-- What `cb_script_timer` is bound to. -/
structure Bound where
  obj : Nat  -- `this`
  cb : Nat
  sp : Nat
  loop : Nat
  deriving DecidableEq

/-- The objects are numbered in the order of their construction; `none` is one that was
destroyed. With each timer made goes its callback, if it is that of a `ScriptTimer`. -/
structure World where
  mgr : TimerMgr
  objs : List (Option ScriptTimer)
  bound : List (Option Bound)
  deriving DecidableEq

inductive WorldOp where
  | construct
  | create (o tick itv cb sp loop : Nat)
  | cancel (o tid : Nat)
  | cancelAll (o : Nat)
  | destroy (o : Nat)
  | other (op : TimerOp)  -- `Update`, and code that uses the timer manager itself
  deriving DecidableEq

namespace World

open TimerMgr (Inv Numbered Silenced)

def new : World := ⟨TimerMgr.new,[],[]⟩

def obj (w : World) (o : Nat) : Option ScriptTimer := (w.objs[o]?).join

def Create (w : World) (o tick itv cb sp loop : Nat) (t : ScriptTimer) : Option World := do
  let mgr ← w.mgr.step (.createCb tick itv (some w.mgr.made) loop)
  let tid := mgr.maker
  some {
    mgr := mgr
    objs := w.objs.set o (some ⟨t._script_timers.insert tid⟩)
    bound := w.bound ++ [some ⟨o,cb,sp,loop⟩]}

def Cancel (w : World) (o tid : Nat) (t : ScriptTimer) : Option World := do
  let mgr ← w.mgr.step (.cancel tid)
  some {w with mgr := mgr, objs := w.objs.set o (some ⟨t._script_timers.filter (· ≠ tid)⟩)}

/-- `CancelAll`, and what is left of the object. -/
def cancelAll (w : World) (o : Nat) (t : ScriptTimer) (left : Option ScriptTimer) :
    Option World := do
  let mgr ← Runs.run TimerMgr.step w.mgr (t._script_timers.map .cancel)
  some {w with mgr := mgr, objs := w.objs.set o left}

def other (w : World) (op : TimerOp) : Option World := do
  let mgr ← w.mgr.step op
  some {w with mgr := mgr, bound := w.bound ++ (w.mgr.makes op).toList.map fun _ => none}

/-- No member function of an object that was destroyed is called. -/
def step (w : World) : WorldOp → Option World
  | .construct => if w.mgr.outside then some {w with objs := w.objs ++ [some ⟨[]⟩]} else none
  | .create o tick itv cb sp loop => (w.obj o).bind (w.Create o tick itv cb sp loop)
  | .cancel o tid => (w.obj o).bind (w.Cancel o tid)
  | .cancelAll o =>
    if w.mgr.outside then (w.obj o).bind (w.cancelAll o · (some ⟨[]⟩)) else none
  | .destroy o => if w.mgr.outside then (w.obj o).bind (w.cancelAll o · none) else none
  | .other op => w.other op

/-- The timer number `n` is one of `o`. -/
def Owns (w : World) (o n : Nat) : Prop := ∃ b, w.bound[n]? = some (some b) ∧ b.obj = o

/-- Each timer of a `ScriptTimer` that may still run has its id kept there. -/
def Covered (w : World) : Prop :=
  ∀ o n t, w.Owns o n → w.mgr.timer n = some t → t.canceled = false →
    ∃ obj, w.obj o = some obj ∧ n + 1 ∈ obj._script_timers

structure Sound (w : World) : Prop where
  inv : w.mgr.Inv
  numbered : w.mgr.Numbered
  bounds : w.bound.length = w.mgr.made

/-- What a step does. -/
inductive Stepped (w : World) : WorldOp → World → Prop where
  | construct : Stepped w .construct {w with objs := w.objs ++ [some ⟨[]⟩]}
  | create {o tick itv cb sp loop : Nat} {obj : ScriptTimer} {mgr : TimerMgr}
    (there : w.obj o = some obj)
    (stepped : w.mgr.step (.createCb tick itv (some w.mgr.made) loop) = some mgr) :
    Stepped w (.create o tick itv cb sp loop) {
      mgr := mgr
      objs := w.objs.set o (some ⟨obj._script_timers.insert mgr.maker⟩)
      bound := w.bound ++ [some ⟨o,cb,sp,loop⟩]}
  | cancel {o tid : Nat} {obj : ScriptTimer} {mgr : TimerMgr} (there : w.obj o = some obj)
    (stepped : w.mgr.step (.cancel tid) = some mgr) :
    Stepped w (.cancel o tid)
      {w with mgr := mgr, objs := w.objs.set o (some ⟨obj._script_timers.filter (· ≠ tid)⟩)}
  | all {op : WorldOp} {o : Nat} {obj : ScriptTimer} {left : Option ScriptTimer} {mgr : TimerMgr}
    (ends : op = .cancelAll o ∧ left = some ⟨[]⟩ ∨ op = .destroy o ∧ left = none)
    (there : w.obj o = some obj)
    (ran : Runs.run TimerMgr.step w.mgr (obj._script_timers.map .cancel) = some mgr) :
    Stepped w op {w with mgr := mgr, objs := w.objs.set o left}
  | other {op : TimerOp} {mgr : TimerMgr} (stepped : w.mgr.step op = some mgr) :
    Stepped w (.other op)
      {w with mgr := mgr, bound := w.bound ++ (w.mgr.makes op).toList.map fun _ => none}

theorem step_cases {w w' : World} {op : WorldOp} (stepped : w.step op = some w') :
    Stepped w op w' := by
  cases op with
  | construct =>
    simp only [step] at stepped
    split_ifs at stepped
    cases stepped
    exact .construct
  | create o tick itv cb sp loop =>
    obtain ⟨obj,there,called⟩ := Option.bind_eq_some_iff.mp stepped
    obtain ⟨mgr,moved,same⟩ := Option.bind_eq_some_iff.mp called
    cases same
    exact .create there moved
  | cancel o tid =>
    obtain ⟨obj,there,called⟩ := Option.bind_eq_some_iff.mp stepped
    obtain ⟨mgr,moved,same⟩ := Option.bind_eq_some_iff.mp called
    cases same
    exact .cancel there moved
  | cancelAll o =>
    simp only [step] at stepped
    split_ifs at stepped
    obtain ⟨obj,there,called⟩ := Option.bind_eq_some_iff.mp stepped
    obtain ⟨mgr,ran,same⟩ := Option.bind_eq_some_iff.mp called
    cases same
    exact .all (Or.inl ⟨rfl,rfl⟩) there ran
  | destroy o =>
    simp only [step] at stepped
    split_ifs at stepped
    obtain ⟨obj,there,called⟩ := Option.bind_eq_some_iff.mp stepped
    obtain ⟨mgr,ran,same⟩ := Option.bind_eq_some_iff.mp called
    cases same
    exact .all (Or.inr ⟨rfl,rfl⟩) there ran
  | other op =>
    obtain ⟨mgr,moved,same⟩ := Option.bind_eq_some_iff.mp stepped
    cases same
    exact .other moved

theorem step_runs {w w' : World} {op : WorldOp} (stepped : w.step op = some w') :
    ∃ ops, Runs.run TimerMgr.step w.mgr ops = some w'.mgr := by
  have one {s s' : TimerMgr} {op : TimerOp} (moved : s.step op = some s') :
      Runs.run TimerMgr.step s [op] = some s' := by
    rw [Runs.run_cons,moved]
    rfl
  cases step_cases stepped with
  | construct => exact ⟨[],rfl⟩
  | create _ moved | cancel _ moved | other moved => exact ⟨[_],one moved⟩
  | all _ _ ran => exact ⟨_,ran⟩

end World

namespace TimerMgr

variable {s s' : TimerMgr}

/-- With fewer than 2^32 timers made, the id of a timer is its number and one. -/
theorem Inv.tid_eq (inv : s.Inv) (numbered : s.Numbered) (few : s.made < 2^32) {n : Nat}
    {t : Timer} (there : s.timer n = some t) : t.tid = n + 1 := by
  obtain ⟨member,serial⟩ := inv.timer_iff.mp there
  have made := inv.ledger.made member
  rw [numbered.tids n t there,u32,Nat.mod_eq_of_lt (by omega)]

theorem cancel_marks (inv : s.Inv) (numbered : s.Numbered) (few : s.made < 2^32) {n : Nat}
    {t' : Timer} (after : (s.CancelTimer (n+1)).timer n = some t') : t'.canceled = true := by
  rcases cancel_perm s (n+1) with ⟨others,same⟩ | ⟨t,rest,found,same,changed⟩
  · rw [same] at after
    exact absurd (inv.tid_eq numbered few after) (others t' (inv.timer_iff.mp after).1)
  · have there : s.timer t.serial = some t := (inv.timer_cons same _).trans (if_pos rfl)
    have number : t.serial = n := Nat.succ.inj ((inv.tid_eq numbered few there).symm.trans found)
    have marked := (cancel_timer inv same changed).1
    rw [number] at marked
    cases marked.symm.trans after
    rfl

theorem cancels_made {tids : List Nat} (ran : Runs.run step s (tids.map .cancel) = some s') :
    s'.made = s.made := by
  induction tids generalizing s with
  | nil =>
    cases ran
    rfl
  | cons tid tids ih =>
    obtain ⟨mid,stepped,ran⟩ := Runs.run_cons_some ran
    exact (ih ran).trans (step_counts stepped rfl).1

/-- Timers that may run after some are cancelled could run before, and are not among them. -/
theorem cancels_fade {tids : List Nat} (inv : s.Inv) (numbered : s.Numbered)
    (few : s.made < 2^32) (ran : Runs.run step s (tids.map .cancel) = some s') (n : Nat)
    (t' : Timer) (after : s'.timer n = some t') (live : t'.canceled = false) :
    (∃ t, s.timer n = some t ∧ t.canceled = false) ∧ n + 1 ∉ tids := by
  induction tids generalizing s with
  | nil =>
    cases ran
    exact ⟨⟨t',after,live⟩,List.not_mem_nil⟩
  | cons tid tids ih =>
    obtain ⟨mid,stepped,ran⟩ := Runs.run_cons_some ran
    have few' := (step_counts stepped rfl).1 ▸ few
    obtain ⟨⟨t,middle,live'⟩,absent⟩ :=
      ih (inv_step inv stepped) (numbered_step inv numbered stepped) few' ran
    constructor
    · rcases step_timer inv stepped middle with ⟨u,before,_,_,free⟩ | ⟨makes,_⟩
      · exact ⟨u,before,free live'⟩
      · cases makes
    · intro member
      rcases List.mem_cons.mp member with rfl | later
      · cases step_cases stepped with
        | cancel => cases live'.symm.trans (cancel_marks inv numbered few middle)
      · exact absent later

end TimerMgr

namespace World

open TimerMgr (Inv Numbered Silenced)

variable {w w' : World} {op : WorldOp}

theorem sound_step (sound : w.Sound) (stepped : w.step op = some w') : w'.Sound := by
  obtain ⟨ops,ran⟩ := step_runs stepped
  have kept := Runs.run_pres (fun s => s.Inv ∧ s.Numbered) (fun s o s' known moved =>
    ⟨TimerMgr.inv_step known.1 moved,TimerMgr.numbered_step known.1 known.2 moved⟩)
    ⟨sound.inv,sound.numbered⟩ ran
  refine ⟨kept.1,kept.2,?_⟩
  cases step_cases stepped with
  | construct => exact sound.bounds
  | create _ moved =>
    rw [List.length_append,sound.bounds,(TimerMgr.makes_counts rfl moved).1]
    rfl
  | cancel _ moved => exact sound.bounds.trans (TimerMgr.step_counts moved rfl).1.symm
  | all _ _ swept => exact sound.bounds.trans (TimerMgr.cancels_made swept).symm
  | @other op mgr moved =>
    cases making : w.mgr.makes op with
    | none =>
      simp only [Option.toList,List.map_nil,List.append_nil]
      exact sound.bounds.trans (TimerMgr.step_counts moved making).1.symm
    | some t =>
      rw [List.length_append,sound.bounds,(TimerMgr.makes_counts making moved).1]
      rfl

theorem obj_set (w : World) {o : Nat} {x : ScriptTimer} (there : w.obj o = some x)
    (left : Option ScriptTimer) (o' : Nat) :
    ((w.objs.set o left)[o']?).join = if o' = o then left else w.obj o' := by
  have inside : o < w.objs.length := by
    by_contra beyond
    rw [obj,List.getElem?_eq_none (Nat.le_of_not_lt beyond)] at there
    cases there
  by_cases same : o' = o
  · rw [if_pos same,same,List.getElem?_set_self inside]
    rfl
  · rw [if_neg same,List.getElem?_set_ne (Ne.symm same)]
    rfl

/-- The timers of an object after one was bound are those before it and that one. -/
theorem owns_append {bound : List (Option Bound)} {x : Option Bound} {n : Nat} {b : Bound}
    (found : (bound ++ [x])[n]? = some (some b)) :
    bound[n]? = some (some b) ∨ n = bound.length ∧ x = some b := by
  rcases Nat.lt_or_ge n bound.length with inside | beyond
  · rw [List.getElem?_append_left inside] at found
    exact Or.inl found
  · rw [List.getElem?_append_right beyond] at found
    cases rest : n - bound.length with
    | zero =>
      rw [rest] at found
      exact Or.inr ⟨by omega,Option.some.inj found⟩
    | succ k =>
      rw [rest] at found
      cases found

theorem step_fades {mgr : TimerMgr} {op : TimerOp} (sound : w.Sound)
    (moved : w.mgr.step op = some mgr) {n : Nat} {t' : Timer} (after : mgr.timer n = some t')
    (live : t'.canceled = false) (old : w.mgr.makes op = none ∨ n ≠ w.mgr.made) :
    ∃ t, w.mgr.timer n = some t ∧ t.canceled = false := by
  rcases TimerMgr.step_timer sound.inv moved after with ⟨u,before,_,_,free⟩ | ⟨makes,here⟩
  · exact ⟨u,before,free live⟩
  · rcases old with none | other
    · cases none.symm.trans makes
    · exact absurd here other

theorem covered_create {o tick itv cb sp loop : Nat} {x : ScriptTimer} {mgr : TimerMgr}
    (sound : w.Sound) (covered : w.Covered) (few : w.mgr.made < 2^32 - 1) (there : w.obj o = some x)
    (moved : w.mgr.step (.createCb tick itv (some w.mgr.made) loop) = some mgr) :
    ({mgr := mgr,objs := w.objs.set o (some ⟨x._script_timers.insert mgr.maker⟩)
      bound := w.bound ++ [some ⟨o,cb,sp,loop⟩]} : World).Covered := by
  have id : mgr.maker = w.mgr.made + 1 := by
    rw [(TimerMgr.makes_counts rfl moved).2,sound.numbered.maker,u32,u32,
      Nat.mod_eq_of_lt (by omega),Nat.mod_eq_of_lt (by omega)]
  intro o' n t' owns after live
  obtain ⟨b,found,owner⟩ := owns
  simp only [obj,obj_set w there]
  rcases owns_append found with old | ⟨here,same⟩
  · have inside := (List.getElem?_eq_some_iff.mp old).1
    rw [sound.bounds] at inside
    obtain ⟨t,before,live'⟩ := step_fades sound moved after live (Or.inr inside.ne)
    obtain ⟨y,has,member⟩ := covered o' n t ⟨b,old,owner⟩ before live'
    by_cases own : o' = o
    · subst own
      cases there.symm.trans has
      exact ⟨_,if_pos rfl,List.mem_insert_of_mem member⟩
    · exact ⟨y,(if_neg own).trans has,member⟩
  · cases same
    rw [sound.bounds] at here
    refine ⟨_,if_pos owner.symm,?_⟩
    rw [here,id]
    exact List.mem_insert_self

theorem covered_step (sound : w.Sound) (covered : w.Covered) (few : w'.mgr.made < 2^32)
    (stepped : w.step op = some w') : w'.Covered := by
  cases step_cases stepped with
  | construct =>
    intro o n t owns before live
    obtain ⟨x,there,member⟩ := covered o n t owns before live
    refine ⟨x,?_,member⟩
    have inside : o < w.objs.length := by
      by_contra beyond
      rw [obj,List.getElem?_eq_none (Nat.le_of_not_lt beyond)] at there
      cases there
    rw [obj,List.getElem?_append_left inside]
    exact there
  | create there moved =>
    apply covered_create sound covered _ there moved
    have counts := (TimerMgr.makes_counts rfl moved).1
    dsimp only at few
    omega
  | @cancel o tid x mgr there moved =>
    intro o' n t' owns after live
    obtain ⟨t,before,live'⟩ := step_fades sound moved after live (Or.inl rfl)
    obtain ⟨y,has,member⟩ := covered o' n t owns before live'
    simp only [obj,obj_set w there]
    by_cases own : o' = o
    · subst own
      cases there.symm.trans has
      refine ⟨_,if_pos rfl,List.mem_filter.mpr ⟨member,?_⟩⟩
      rw [decide_eq_true_eq]
      rintro rfl
      have made := (TimerMgr.step_counts moved rfl).1
      cases TimerMgr.step_cases moved with
      | cancel =>
        cases live.symm.trans (TimerMgr.cancel_marks sound.inv sound.numbered (made ▸ few) after)
    · exact ⟨y,(if_neg own).trans has,member⟩
  | @all op o x left mgr _ there swept =>
    have made := TimerMgr.cancels_made swept
    intro o' n t' owns after live
    obtain ⟨⟨t,before,live'⟩,absent⟩ :=
      TimerMgr.cancels_fade sound.inv sound.numbered (made ▸ few) swept n t' after live
    obtain ⟨y,has,member⟩ := covered o' n t owns before live'
    simp only [obj,obj_set w there]
    by_cases own : o' = o
    · subst own
      cases there.symm.trans has
      exact absurd member absent
    · exact ⟨y,(if_neg own).trans has,member⟩
  | @other op mgr moved =>
    intro o n t' owns after live
    obtain ⟨b,found,owner⟩ := owns
    have old : w.bound[n]? = some (some b) ∧ (w.mgr.makes op = none ∨ n ≠ w.mgr.made) := by
      cases making : w.mgr.makes op with
      | none =>
        simp only [making,Option.toList,List.map_nil,List.append_nil] at found
        exact ⟨found,Or.inl rfl⟩
      | some t =>
        simp only [making,Option.toList,List.map_cons,List.map_nil] at found
        rcases owns_append found with old | ⟨_,same⟩
        · have inside := (List.getElem?_eq_some_iff.mp old).1
          rw [sound.bounds] at inside
          exact ⟨old,Or.inr inside.ne⟩
        · cases same
    obtain ⟨t,before,live'⟩ := step_fades sound moved after live old.2
    exact covered o n t ⟨b,old.1,owner⟩ before live'

/-- What each step of the timer manager keeps, each step of the world keeps. -/
theorem step_pres {P : TimerMgr → Prop}
    (pres : ∀ s op s', P s → TimerMgr.step s op = some s' → P s') (holds : P w.mgr)
    (stepped : w.step op = some w') : P w'.mgr := by
  obtain ⟨ops,ran⟩ := step_runs stepped
  exact Runs.run_pres P pres holds ran

theorem made_mono (stepped : w.step op = some w') : w.mgr.made ≤ w'.mgr.made :=
  step_pres (P := fun s => w.mgr.made ≤ s.made)
    (fun _ _ _ less moved => Nat.le_trans less (TimerMgr.made_mono moved)) (Nat.le_refl _) stepped

theorem run_made {ops : List WorldOp} (ran : Runs.run step w ops = some w') :
    w.mgr.made ≤ w'.mgr.made :=
  Runs.run_pres (fun v => w.mgr.made ≤ v.mgr.made)
    (fun _ _ _ less stepped => Nat.le_trans less (made_mono stepped)) (Nat.le_refl _) ran

theorem sound_new : new.Sound := ⟨TimerMgr.inv_new,TimerMgr.numbered_new,rfl⟩

theorem covered_run {ops : List WorldOp} (ran : Runs.run step new ops = some w) :
    w.Sound ∧ (w.mgr.made < 2^32 → w.Covered) := by
  apply Runs.run_pres (fun w => w.Sound ∧ (w.mgr.made < 2^32 → w.Covered)) _ _ ran
  · intro v op v' known stepped
    refine ⟨sound_step known.1 stepped,fun few => ?_⟩
    have less := made_mono stepped
    exact covered_step known.1 (known.2 (Nat.lt_of_le_of_lt less few)) few stepped
  · exact ⟨sound_new,fun _ _ _ _ ⟨_,absent,_⟩ => by cases absent⟩

/-- `CancelAll` marks each timer of the object that is held. -/
theorem ends_silenced {o n : Nat} (sound : w.Sound) (covered : w.Covered)
    (few : w.mgr.made < 2^32) (ends : op = .cancelAll o ∨ op = .destroy o)
    (stepped : w.step op = some w') (owns : w.Owns o n) :
    Silenced n (w'.mgr.starts n) w'.mgr := by
  have sound' := sound_step sound stepped
  have less := made_mono stepped
  obtain ⟨b,found,owner⟩ := owns
  have made := sound.bounds ▸ (List.getElem?_eq_some_iff.mp found).1
  refine ⟨Nat.lt_of_lt_of_le made less,fun t member serial => ?_,rfl⟩
  have there := sound'.inv.timer_iff.mpr ⟨member,serial⟩
  by_contra live
  have live : t.canceled = false := by simpa using live
  cases step_cases stepped with
  | @all _ o' x left mgr same has swept =>
    have own : o' = o := by
      rcases ends with rfl | rfl <;> rcases same with ⟨same,_⟩ | ⟨same,_⟩ <;> cases same <;> rfl
    subst own
    obtain ⟨⟨u,before,live'⟩,absent⟩ :=
      TimerMgr.cancels_fade sound.inv sound.numbered few swept n t there live
    obtain ⟨y,has',kept⟩ := covered o' n u ⟨b,found,owner⟩ before live'
    cases has.symm.trans has'
    exact absent kept
  | _ => rcases ends with same | same <;> cases same

/-- After `CancelAll` or the destructor, `cb_script_timer` is not started on the object for
a timer made before. -/
theorem no_call_when_ended (ops : List WorldOp) (w : World)
    (ran : Runs.run step new ops = some w) (o : Nat) (op : WorldOp)
    (ends : op = .cancelAll o ∨ op = .destroy o) (w' : World) (stepped : w.step op = some w')
    (ops' : List WorldOp) (w'' : World) (later : Runs.run step w' ops' = some w'')
    (few : w''.mgr.made < 2^32) (n : Nat) (owns : w.Owns o n) :
    w''.mgr.starts n = w'.mgr.starts n := by
  obtain ⟨sound,covered⟩ := covered_run ran
  have few' := Nat.lt_of_le_of_lt (Nat.le_trans (made_mono stepped) (run_made later)) few
  have silenced := ends_silenced sound (covered few') few' ends stepped owns
  have kept := Runs.run_pres (fun v => Silenced n (w'.mgr.starts n) v.mgr)
    (fun _ _ _ silenced stepped => step_pres
      (fun _ _ _ silenced moved => TimerMgr.silenced_step silenced moved) silenced stepped)
    silenced later
  exact kept.calls

/-- Two timers of one object, the first in its callback, in which the object is destroyed. -/
def destroyedInside : List WorldOp :=
  [.construct,.create 0 1 5 7 8 0,.create 0 1 5 7 8 0,.other (.update 1),.other .visit]

theorem no_call_when_ended_inside : ∃ w w' w'', Runs.run step new destroyedInside = some w ∧
    w.step (.destroy 0) = some w' ∧
    Runs.run step w' [.other .ret,.other .visit,.other .leave] = some w'' ∧
    w''.mgr.starts 1 = w'.mgr.starts 1 := by
  let w := (Runs.run step new destroyedInside).getD new
  let w' := (w.step (.destroy 0)).getD new
  let after : List WorldOp := [.other .ret,.other .visit,.other .leave]
  let w'' := (Runs.run step w' after).getD new
  have ran : Runs.run step new destroyedInside = some w := by decide
  have stepped : w.step (.destroy 0) = some w' := by decide
  have later : Runs.run step w' after = some w'' := by decide
  exact ⟨w,w',w'',ran,stepped,later,no_call_when_ended destroyedInside w ran 0 _ (Or.inr rfl) w'
    stepped after w'' later (by decide) 1 ⟨⟨0,7,8,0⟩,by decide,rfl⟩⟩

end World

end Pworld.Timing
