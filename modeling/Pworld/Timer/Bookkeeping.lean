import Pworld.Timer.ScriptTimer

/-! Whether the ids that a `ScriptTimer` keeps are those of its timers: they are as long as
every timer leaves the timer manager through the object it was made by. -/
namespace Pworld.Timing

namespace TimerMgr

variable {s s' : TimerMgr} {op : TimerOp}

/-- A timer that may run stays so, but if it is cancelled, was to run once, or all are freed. -/
theorem step_persists (inv : s.Inv) (stepped : s.step op = some s') {n : Nat} {t : Timer}
    (before : s.timer n = some t) (live : t.canceled = false) (callable : t.callable = true) :
    (∃ t', s'.timer n = some t' ∧ t'.canceled = false ∧ t'.tid = t.tid) ∨ op = .cancel t.tid ∨
      t.once ≠ 0 ∧ s.calling n ∧ op = .ret ∨ op = .release := by
  cases step_fate inv stepped n with
  | kept same => exact Or.inl ⟨t,same.trans before,live,rfl⟩
  | made _ _ none => cases before.symm.trans none
  | marked cancel there =>
    cases before.symm.trans there
    exact Or.inr (Or.inl cancel)
  | started _ _ there _ _ after | fired there _ after =>
    cases before.symm.trans there
    exact Or.inl ⟨_,after,live,rfl⟩
  | freed there why =>
    cases before.symm.trans there
    rcases why with ⟨canceled,_⟩ | ⟨once,⟨calling,ret⟩ | ⟨silent,_⟩⟩
    · cases live.symm.trans canceled
    · exact Or.inr (Or.inr (Or.inl ⟨once,calling,ret⟩))
    · cases callable.symm.trans silent
  | released release => exact Or.inr (Or.inr (Or.inr release))

theorem cancels_persist {tids : List Nat} (inv : s.Inv)
    (ran : Runs.run step s (tids.map .cancel) = some s') {n : Nat} {t : Timer}
    (before : s.timer n = some t) (live : t.canceled = false) (callable : t.callable = true)
    (other : t.tid ∉ tids) :
    ∃ t', s'.timer n = some t' ∧ t'.canceled = false ∧ t'.tid = t.tid := by
  induction tids generalizing s t with
  | nil =>
    cases ran
    exact ⟨t,before,live,rfl⟩
  | cons tid tids ih =>
    obtain ⟨mid,stepped,ran⟩ := Runs.run_cons_some ran
    obtain ⟨apart,others⟩ := not_or.mp (mt List.mem_cons.mpr other)
    rcases step_persists inv stepped before live callable with
      ⟨u,there,live',same⟩ | cancel | ⟨_,_,ret⟩ | release
    · have callable' : u.callable = true := by
        rcases step_timer inv stepped there with ⟨v,before',_,same,_⟩ | ⟨makes,_⟩
        · cases before.symm.trans before'
          exact same ▸ callable
        · cases makes
      obtain ⟨t',after,live'',same'⟩ :=
        ih (inv_step inv stepped) ran there live' callable' (same ▸ others)
      exact ⟨t',after,live'',same'.trans same⟩
    · cases cancel
      exact absurd rfl apart
    · cases ret
    · cases release

theorem released_stuck (released : s.released = true) (idle : s.walk = .idle) :
    s.step op = none := by
  have out : s.outside = false := by
    rw [outside,idle,released]
    rfl
  cases op <;> simp [step,out,idle]

theorem step_released (stepped : s.step op = some s') (other : op ≠ .release) :
    s'.released = s.released := by
  have look (now : Nat) (t : Timer) (ran : Bool) : (s.look now t ran).released = s.released := by
    unfold look
    split <;> rfl
  have after (s : TimerMgr) (now i : Nat) (t : Timer) :
      (s.after now i t).released = s.released := by
    unfold TimerMgr.after
    split <;> rfl
  cases step_cases stepped with
  | createCb | createFunc =>
    unfold createTimer
    dsimp only
    split <;> rfl
  | cancel =>
    unfold CancelTimer
    split <;> rfl
  | visit =>
    unfold visit
    split
    · rfl
    split
    · dsimp only
      split
      · exact look ..
      · exact (after ..).trans (look ..)
    · exact look ..
  | ret => exact after ..
  | update | leave => rfl
  | release => exact absurd rfl other

/-- The timer manager is destroyed only while `Update` is not running. -/
theorem rests_step (rests : s.released = true → s.walk = .idle) (stepped : s.step op = some s') :
    s'.released = true → s'.walk = .idle := by
  intro released
  by_cases release : op = .release
  · subst release
    cases step_cases stepped with
    | release idle => exact idle
  · rw [step_released stepped release] at released
    cases (released_stuck released (rests released)).symm.trans stepped

end TimerMgr

namespace World

variable {w w' : World} {op : WorldOp}

/-- A timer that may still run, of an object that is there. -/
structure May (w : World) (o n : Nat) (t : Timer) : Prop where
  owns : w.Owns o n
  there : (w.obj o).isSome
  held : w.mgr.timer n = some t
  live : t.canceled = false

/-- The ids kept are those of the timers that may still run. -/
def Exact (w : World) : Prop :=
  ∀ o x, w.obj o = some x → ∀ tid, tid ∈ x._script_timers ↔ ∃ n t, w.May o n t ∧ t.tid = tid

/-- Each id kept is that of a timer that may still run. -/
def Current (w : World) : Prop :=
  ∀ o x, w.obj o = some x → ∀ tid ∈ x._script_timers, ∃ n t, w.May o n t ∧ t.tid = tid

/-- No timer of an object that is there runs once and is freed for it, or is cancelled but
through the object. -/
def Careful (w : World) : WorldOp → Prop
  | .other .ret => ∀ o n t, w.May o n t → w.mgr.calling n → t.once = 0
  | .other (.cancel tid) => ∀ o n t, w.May o n t → t.tid ≠ tid
  | .cancel o tid => ∀ o' n t, w.May o' n t → t.tid = tid → o' = o
  | _ => True

/-- At the end of `Update` the ids kept are exact. -/
def EndsExact (w : World) (op : WorldOp) : Prop :=
  op = .other .leave → ∀ w', w.step op = some w' → w'.mgr.made < 2^32 → w'.Exact

theorem Owns.unique {o o' n : Nat} (one : w.Owns o n) (other : w.Owns o' n) : o = o' := by
  obtain ⟨b,found,rfl⟩ := one
  obtain ⟨b',found',rfl⟩ := other
  cases found.symm.trans found'
  rfl

theorem owns_mono {o n : Nat} (owns : w.Owns o n) (stepped : w.step op = some w') :
    w'.Owns o n := by
  obtain ⟨b,found,owner⟩ := owns
  have inside := (List.getElem?_eq_some_iff.mp found).1
  refine ⟨b,?_,owner⟩
  cases step_cases stepped with
  | construct | cancel | all => exact found
  | create | other => rw [List.getElem?_append_left inside,found]

/-- The timers of a `ScriptTimer` have a callback. -/
def Callable (w : World) : Prop :=
  ∀ o n t, w.Owns o n → w.mgr.timer n = some t → t.callable = true

theorem callable_step (sound : w.Sound) (callable : w.Callable)
    (stepped : w.step op = some w') : w'.Callable := by
  -- of the timers bound before the step, whatever the timer manager does
  have old : w'.mgr.Inv ∧ w.bound.length ≤ w'.mgr.made ∧ ∀ n b t,
      w.bound[n]? = some (some b) → w'.mgr.timer n = some t → t.callable = true := by
    apply step_pres (P := fun s => s.Inv ∧ w.bound.length ≤ s.made ∧ ∀ n b t,
      w.bound[n]? = some (some b) → s.timer n = some t → t.callable = true) _ _ stepped
    · intro s op s' ⟨inv,less,all⟩ moved
      refine ⟨TimerMgr.inv_step inv moved,Nat.le_trans less (TimerMgr.made_mono moved),?_⟩
      intro n b t found after
      rcases TimerMgr.step_timer inv moved after with ⟨u,before,_,same,_⟩ | ⟨_,here⟩
      · exact same ▸ all n b u found before
      · have inside := (List.getElem?_eq_some_iff.mp found).1
        omega
    · exact ⟨sound.inv,sound.bounds.le,fun n b t found => callable b.obj n t ⟨b,found,rfl⟩⟩
  intro o n t ⟨b,found,owner⟩ after
  have before (found : w.bound[n]? = some (some b)) := old.2.2 n b t found after
  cases step_cases stepped with
  | construct | cancel | all => exact before found
  | create _ moved =>
    rcases owns_append found with older | ⟨here,_⟩
    · exact before older
    · rw [sound.bounds] at here
      rcases TimerMgr.step_timer sound.inv moved after with ⟨u,there,_⟩ | ⟨makes,_⟩
      · cases there.symm.trans (sound.inv.timer_none here.ge)
      · cases makes
        rfl
  | @other op mgr moved =>
    cases making : w.mgr.makes op with
    | none =>
      simp only [making,Option.toList,List.map_nil,List.append_nil] at found
      exact before found
    | some u =>
      simp only [making,Option.toList,List.map_cons,List.map_nil] at found
      rcases owns_append found with older | ⟨_,same⟩
      · exact before older
      · cases same

theorem owns_append_obj {o : Nat} {x : ScriptTimer}
    (has : ((w.objs ++ [some ⟨[]⟩])[o]?).join = some x) : w.obj o = some x ∨ x = ⟨[]⟩ := by
  rcases Nat.lt_or_ge o w.objs.length with inside | beyond
  · rw [List.getElem?_append_left inside] at has
    exact Or.inl has
  · rw [List.getElem?_append_right beyond] at has
    cases rest : o - w.objs.length with
    | zero =>
      rw [rest] at has
      exact Or.inr (Option.some.inj has).symm
    | succ k =>
      rw [rest] at has
      cases has

structure Kept (w : World) : Prop where
  sound : w.Sound
  callable : w.Callable
  covered : w.mgr.made < 2^32 → w.Covered
  current : w.mgr.made < 2^32 → w.mgr.released = false → w.Current
  rests : w.mgr.released = true → w.mgr.walk = .idle

/-- A timer that may run still may, where the timer manager keeps it and the object is there. -/
theorem May.step {o n : Nat} {t : Timer} (may : w.May o n t) (stepped : w.step op = some w')
    (there : (w'.obj o).isSome)
    (kept : ∃ t', w'.mgr.timer n = some t' ∧ t'.canceled = false ∧ t'.tid = t.tid) :
    ∃ n t', w'.May o n t' ∧ t'.tid = t.tid := by
  obtain ⟨t',held,live,same⟩ := kept
  exact ⟨n,t',⟨owns_mono may.owns stepped,there,held,live⟩,same⟩

/-- An operation that leaves the timer `n` in the timer manager. -/
structure Spares (w : World) (n : Nat) (t : Timer) (op : TimerOp) : Prop where
  cancel : op ≠ .cancel t.tid
  ret : op = .ret → w.mgr.calling n → t.once = 0
  release : op ≠ .release

theorem spares_create (w : World) (n : Nat) (t : Timer) {tick itv loop : Nat} {cb : Option Nat} :
    w.Spares n t (.createCb tick itv cb loop) := ⟨nofun,nofun,nofun⟩

theorem spares_cancel (w : World) (n : Nat) {t : Timer} {tid : Nat} (other : tid ≠ t.tid) :
    w.Spares n t (.cancel tid) := ⟨fun same => other (TimerOp.cancel.inj same),nofun,nofun⟩

theorem May.keep {o n : Nat} {t : Timer} {op' : TimerOp} (may : w.May o n t) (kept : w.Kept)
    (stepped : w.step op = some w') (there : (w'.obj o).isSome)
    (moved : w.mgr.step op' = some w'.mgr) (spares : w.Spares n t op') :
    ∃ n t', w'.May o n t' ∧ t'.tid = t.tid := by
  have callable := kept.callable o n t may.owns may.held
  apply may.step stepped there
  rcases TimerMgr.step_persists kept.sound.inv moved may.held may.live callable with
    kept | canceled | ⟨once,calling,returned⟩ | released
  · exact kept
  · exact absurd canceled spares.cancel
  · exact absurd (spares.ret returned calling) once
  · exact absurd released spares.release

theorem current_all {o : Nat} {x : ScriptTimer} {left : Option ScriptTimer} {mgr : TimerMgr}
    (kept : w.Kept) (current : w.Current) (few : w.mgr.made < 2^32)
    (there : w.obj o = some x) (nothing : ∀ y, left = some y → y._script_timers = [])
    (swept : Runs.run TimerMgr.step w.mgr (x._script_timers.map .cancel) = some mgr)
    (stepped : w.step op = some {w with mgr := mgr, objs := w.objs.set o left}) :
    ({w with mgr := mgr, objs := w.objs.set o left} : World).Current := by
  intro o' y has tid member
  have here := has
  simp only [obj,obj_set w there] at has
  by_cases own : o' = o
  · rw [if_pos own] at has
    rw [nothing y has] at member
    exact absurd member List.not_mem_nil
  · rw [if_neg own] at has
    obtain ⟨n,t,may,rfl⟩ := current o' y has tid member
    apply may.step stepped (by rw [here]; rfl)
    apply TimerMgr.cancels_persist kept.sound.inv swept may.held may.live
      (kept.callable o' n t may.owns may.held)
    -- an id that the other object keeps is that of another timer
    intro taken
    obtain ⟨m,u,may',same⟩ := current o x there t.tid taken
    rw [kept.sound.inv.tid_eq kept.sound.numbered few may.held,
      kept.sound.inv.tid_eq kept.sound.numbered few may'.held] at same
    cases Nat.succ.inj same
    exact own (may.owns.unique may'.owns)

theorem current_step (kept : w.Kept) (current : w.Current) (few : w'.mgr.made < 2^32)
    (careful : w.Careful op) (unreleased : w'.mgr.released = false)
    (stepped : w.step op = some w') : w'.Current := by
  have few' := Nat.lt_of_le_of_lt (made_mono stepped) few
  cases step_cases stepped with
  | construct =>
    intro o x has tid member
    have here := has
    rcases owns_append_obj has with older | rfl
    · obtain ⟨n,t,may,rfl⟩ := current o x older tid member
      exact may.step stepped (by rw [here]; rfl) ⟨t,may.held,may.live,rfl⟩
    · exact absurd member List.not_mem_nil
  | @create o tick itv cb sp loop x mgr there moved =>
    intro o' y has tid member
    have here : (World.obj _ o').isSome := Option.isSome_of_eq_some has
    simp only [obj,obj_set w there] at has
    by_cases own : o' = o
    · rw [if_pos own] at has
      cases has
      rcases List.mem_insert_iff.mp member with rfl | older
      · have makes := TimerMgr.makes_timer kept.sound.inv rfl moved
        have new : (w.bound ++ [some ⟨o,cb,sp,loop⟩])[w.mgr.made]? = some (some ⟨o,cb,sp,loop⟩) := by
          rw [← kept.sound.bounds,List.getElem?_append_right (Nat.le_refl _),Nat.sub_self]
          rfl
        refine ⟨_,_,⟨⟨_,new,own.symm⟩,here,makes.1,rfl⟩,?_⟩
        exact (TimerMgr.makes_counts rfl moved).2.symm
      · obtain ⟨n,t,may,rfl⟩ := current o x there tid older
        exact (own ▸ may).keep kept stepped here moved (spares_create w n t)
    · rw [if_neg own] at has
      obtain ⟨n,t,may,rfl⟩ := current o' y has tid member
      exact may.keep kept stepped here moved (spares_create w n t)
  | @cancel o tid x mgr there moved =>
    intro o' y has id member
    have here : (World.obj _ o').isSome := Option.isSome_of_eq_some has
    simp only [obj,obj_set w there] at has
    by_cases own : o' = o
    · rw [if_pos own] at has
      cases has
      obtain ⟨older,other⟩ := List.mem_filter.mp member
      obtain ⟨n,t,may,rfl⟩ := current o x there id older
      apply (own ▸ may).keep kept stepped here moved (spares_cancel w n _)
      intro same
      simp [same] at other
    · rw [if_neg own] at has
      obtain ⟨n,t,may,rfl⟩ := current o' y has id member
      apply may.keep kept stepped here moved (spares_cancel w n _)
      rintro rfl
      exact own (careful o' n t may rfl)
  | @all op o x left mgr ends there swept =>
    apply current_all kept current few' there _ swept stepped
    intro y same
    rcases ends with ⟨_,rfl⟩ | ⟨_,rfl⟩
    · cases same
      rfl
    · cases same
  | @other op mgr moved =>
    intro o y has tid member
    obtain ⟨n,t,may,rfl⟩ := current o y has tid member
    apply may.keep kept stepped may.there moved
    constructor
    · rintro rfl
      exact careful o n t may rfl
    · rintro rfl calling
      exact careful o n t may calling
    · rintro rfl
      cases TimerMgr.step_cases moved with
      | release => cases unreleased

theorem kept_step (kept : w.Kept) (careful : w.Careful op) (stepped : w.step op = some w') :
    w'.Kept where
  sound := sound_step kept.sound stepped
  callable := callable_step kept.sound kept.callable stepped
  covered := fun few => covered_step kept.sound
    (kept.covered (Nat.lt_of_le_of_lt (made_mono stepped) few)) few stepped
  current := by
    intro few unreleased
    apply current_step kept _ few careful unreleased stepped
    apply kept.current (Nat.lt_of_le_of_lt (made_mono stepped) few)
    by_contra released
    have rests : w.mgr.released = true ∧ w.mgr.walk = .idle :=
      have released : w.mgr.released = true := by simpa using released
      ⟨released,kept.rests released⟩
    have still := step_pres (P := fun s => s.released = true ∧ s.walk = .idle)
      (fun s op s' known moved => by
        cases (TimerMgr.released_stuck known.1 known.2).symm.trans moved) rests stepped
    cases unreleased.symm.trans still.1
  rests := step_pres (P := fun s => s.released = true → s.walk = .idle)
    (fun _ _ _ rests moved => TimerMgr.rests_step rests moved) kept.rests stepped

theorem kept_new : new.Kept where
  sound := sound_new
  callable := fun _ _ _ ⟨_,absent,_⟩ => by cases absent
  covered := fun _ _ _ _ ⟨_,absent,_⟩ => by cases absent
  current := fun _ _ _ _ absent => by cases absent
  rests := fun released => by cases released

theorem Kept.exact (kept : w.Kept) (few : w.mgr.made < 2^32)
    (unreleased : w.mgr.released = false) : w.Exact := by
  intro o x has tid
  constructor
  · exact kept.current few unreleased o x has tid
  · rintro ⟨n,t,may,rfl⟩
    obtain ⟨y,there,member⟩ := kept.covered few o n t may.owns may.held may.live
    cases has.symm.trans there
    rwa [kept.sound.inv.tid_eq kept.sound.numbered few may.held]

/-- In a run in which timers leave the timer manager through their objects, these keep the
ids of their timers at the end of each `Update`. -/
theorem bookkeeping_exact (ops : List WorldOp) (careful : Runs.Meets step Careful new ops) :
    Runs.Meets step EndsExact new ops := by
  apply Runs.meets_of_inv Kept _ _ kept_new careful
  · exact fun _ _ _ kept careful stepped => kept_step kept careful stepped
  · intro w op kept careful leave w' stepped few
    subst leave
    have after := kept_step kept careful stepped
    apply after.exact few
    cases step_cases stepped with
    | all ends => rcases ends with ⟨same,_⟩ | ⟨same,_⟩ <;> cases same
    | other moved =>
      rw [TimerMgr.step_released moved nofun]
      cases TimerMgr.step_cases moved with
      | leave walk =>
        by_contra released
        have idle := kept.rests (by simpa using released)
        cases walk.symm.trans idle

/-- A repeating timer of a script, run once. -/
def repeated : List WorldOp :=
  [.construct,.create 0 1 5 7 8 0,.other (.update 1),.other .visit,.other .ret,.other .leave]

theorem bookkeeping_exact_repeated : Runs.Meets step EndsExact new repeated := by
  apply bookkeeping_exact
  refine ⟨trivial,fun w1 made => ⟨trivial,fun w2 created => ⟨trivial,fun w3 began => ⟨trivial,
    fun w4 visited => ⟨?_,fun w5 returned => ⟨trivial,fun _ _ => trivial⟩⟩⟩⟩⟩⟩
  cases made
  cases created
  cases began
  cases visited
  intro o n t may _
  cases List.mem_singleton.mp (List.mem_of_find?_eq_some may.held)
  rfl

/-- A timer made by a script to run once, run. -/
def fired : List WorldOp :=
  [.construct,.create 0 1 5 7 8 1,.other (.update 1),.other .visit,.other .ret,.other .leave]

/-- The id of a timer that has run once stays. -/
theorem fired_id_kept :
    ∃ w, Runs.run step new fired = some w ∧ w.mgr.made < 2^32 ∧ ¬ w.Exact := by
  let w := (Runs.run step new fired).getD new
  have ran : Runs.run step new fired = some w := by decide
  have few : w.mgr.made < 2^32 := by decide
  refine ⟨w,ran,few,fun exact_ => ?_⟩
  have there : w.obj 0 = some ⟨[1]⟩ := by decide
  obtain ⟨n,t,may,_⟩ := (exact_ 0 _ there 1).mp List.mem_cons_self
  have gone : w.mgr.timer n = none := rfl
  cases gone.symm.trans may.held

end World

end Pworld.Timing
