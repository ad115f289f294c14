import Pworld.Support.Ledger
import Pworld.Timer.TimerMgr

/-! No timer is lost, freed twice, run after it was cancelled, or run in the pass of
`Update` that it was made in. -/
namespace Pworld.Timing

/-- The callback of the timer was called. -/
def Event.starts (n : Nat) : Event → Bool
  | .looked serial _ _ ran => serial == n && ran
  | _ => false

/-- When the time of a timer began to count, from what happened to it. -/
def base (past : List Event) : Nat :=
  past.foldl (fun b e => match e with
    | .created _ tick _ _ => tick
    | .fired _ now => now
    | _ => b) 0

/-- The past of one timer: made first, and never reached in the pass it was made in. -/
def Past (serial itv : Nat) (born : Option Nat) (past : List Event) : Prop :=
  ∃ tick rest, past = .created serial tick itv born :: rest ∧
    ∀ e ∈ rest, (∃ now, e = .fired serial now) ∨
      ∃ now pass ran, e = .looked serial now pass ran ∧ born ≠ some pass

def Live (t : Timer) (past : List Event) : Prop :=
  Past t.serial t.interval t.born past ∧ base past = t.count_time

def Dead (past : List Event) : Prop := ∃ serial itv born, Past serial itv born past

theorem Past.append {serial itv : Nat} {born : Option Nat} {past : List Event} {e : Event}
    (known : Past serial itv born past) (next : (∃ now, e = .fired serial now) ∨
      ∃ now pass ran, e = .looked serial now pass ran ∧ born ≠ some pass) :
    Past serial itv born (past ++ [e]) := by
  obtain ⟨tick,rest,rfl,all⟩ := known
  refine ⟨tick,rest ++ [e],rfl,fun f member => ?_⟩
  rcases List.mem_append.mp member with old | new
  · exact all f old
  · rw [List.mem_singleton.mp new]
    exact next

theorem base_looked (past : List Event) (serial now pass : Nat) (ran : Bool) :
    base (past ++ [.looked serial now pass ran]) = base past := by
  simp [base]

theorem base_fired (past : List Event) (serial now : Nat) :
    base (past ++ [.fired serial now]) = now := by
  simp [base]

namespace TimerMgr

def held (s : TimerMgr) : List Timer := s.lstTimers ++ s.lstNewTimer

/-- While `Update` walks, what it walks over was made before; new timers wait aside. -/
def Walking (s : TimerMgr) : Prop :=
  match s.walk with
  | .idle => s.in_process = false ∧ s.lstNewTimer = []
  | _ => s.in_process = true ∧ ∀ t ∈ s.lstTimers, t.born ≠ some s.pass

structure Inv (s : TimerMgr) : Prop where
  ledger : Ledger Timer.serial Event.serial Live Dead s.held s.freed s.made s.log
  walking : s.Walking
  passes : ∀ t ∈ s.held, ∀ p, t.born = some p → p ≤ s.pass

/-- The timer at `i` apart from the others, and what becomes of the lists when it is
changed or taken out. -/
theorem held_perm {s : TimerMgr} {i : Nat} {t : Timer} (at_ : s.lstTimers[i]? = some t) :
    ∃ rest, s.held.Perm (t::rest) ∧
      (∀ u, (s.lstTimers.set i u ++ s.lstNewTimer).Perm (u::rest)) ∧
      (s.lstTimers.eraseIdx i ++ s.lstNewTimer).Perm rest := by
  obtain ⟨rest,same,changed,gone⟩ := set_perm at_
  exact ⟨rest ++ s.lstNewTimer,same.append_right _,fun u => (changed u).append_right _,
    gone.append_right _⟩

theorem mem_held {s : TimerMgr} {t : Timer} {i : Nat} (at_ : s.lstTimers[i]? = some t) :
    t ∈ s.held := List.mem_append_left _ (List.mem_of_getElem? at_)

theorem inv_erase {s : TimerMgr} (inv : s.Inv) {now i : Nat} {t : Timer}
    (at_ : s.lstTimers[i]? = some t) (process : s.in_process = true)
    (earlier : ∀ u ∈ s.lstTimers, u.born ≠ some s.pass) : (s.erase now i t).Inv where
  ledger := by
    obtain ⟨rest,same,_,gone⟩ := held_perm at_
    have ledger := inv.ledger.perm same
    have live := ledger.live t List.mem_cons_self
    have freed := ledger.free [] (by simp)
      (by rw [List.append_nil]; exact ⟨_,_,_,live.1⟩)
    rw [List.append_nil] at freed
    exact freed.perm gone.symm
  walking := ⟨process,fun u member => earlier u (List.mem_of_mem_eraseIdx member)⟩
  passes := by
    intro u member p born
    refine inv.passes u ?_ p born
    rcases List.mem_append.mp member with old | new
    · exact List.mem_append_left _ (List.mem_of_mem_eraseIdx old)
    · exact List.mem_append_right _ new

theorem inv_after {s : TimerMgr} (inv : s.Inv) {now i : Nat} {t : Timer}
    (at_ : s.lstTimers[i]? = some t) (process : s.in_process = true)
    (earlier : ∀ u ∈ s.lstTimers, u.born ≠ some s.pass) : (s.after now i t).Inv := by
  unfold after
  split
  · exact inv_erase inv at_ process earlier
  have member := List.mem_of_getElem? at_
  refine ⟨?_,⟨process,fun u inside => ?_⟩,fun u inside p born => ?_⟩
  · obtain ⟨rest,same,changed,_⟩ := held_perm at_
    have ledger := inv.ledger.perm same
    have live := ledger.live t List.mem_cons_self
    have fired := ledger.replace (y := {t with count_time := now}) [.fired t.serial now]
      (by simp [Event.serial]) rfl ⟨live.1.append (.inl ⟨now,rfl⟩),base_fired ..⟩
    exact fired.perm (changed _).symm
  · rcases List.mem_or_eq_of_mem_set inside with old | rfl
    · exact earlier u old
    · exact earlier t member
  · rcases List.mem_append.mp inside with there | new
    · rcases List.mem_or_eq_of_mem_set there with old | rfl
      · exact inv.passes u (List.mem_append_left _ old) p born
      · exact inv.passes t (mem_held at_) p born
    · exact inv.passes u (List.mem_append_right _ new) p born

theorem inv_look {s : TimerMgr} (inv : s.Inv) {now i : Nat} {t : Timer} (ran : Bool)
    (at_ : s.lstTimers[i]? = some t) (earlier : ∀ u ∈ s.lstTimers, u.born ≠ some s.pass) :
    (s.look now t ran).Inv := by
  unfold look
  split
  · refine ⟨?_,inv.walking,inv.passes⟩
    obtain ⟨rest,same,_,_⟩ := held_perm at_
    have ledger := inv.ledger.perm same
    have live := ledger.live t List.mem_cons_self
    have other := earlier t (List.mem_of_getElem? at_)
    have looked := ledger.replace (y := t) [.looked t.serial now s.pass ran]
      (by simp [Event.serial]) rfl
      ⟨live.1.append (.inr ⟨now,s.pass,ran,rfl,other⟩),(base_looked ..).trans live.2⟩
    exact looked.perm same.symm
  · exact inv

theorem inv_walk {s : TimerMgr} (inv : s.Inv) {walk : Walk} (idle : walk ≠ .idle)
    (process : s.in_process = true) (earlier : ∀ u ∈ s.lstTimers, u.born ≠ some s.pass) :
    ({s with walk := walk} : TimerMgr).Inv := by
  refine ⟨inv.ledger,?_,inv.passes⟩
  cases walk with
  | idle => exact absurd rfl idle
  | scan now i => exact ⟨process,earlier⟩
  | call now i => exact ⟨process,earlier⟩

theorem look_lists (s : TimerMgr) (now : Nat) (t : Timer) (ran : Bool) :
    (s.look now t ran).lstTimers = s.lstTimers ∧ (s.look now t ran).in_process = s.in_process ∧
      (s.look now t ran).pass = s.pass := by
  unfold look
  split <;> exact ⟨rfl,rfl,rfl⟩

theorem inv_visit {s : TimerMgr} (inv : s.Inv) {now i : Nat} {t : Timer}
    (at_ : s.lstTimers[i]? = some t) (process : s.in_process = true)
    (earlier : ∀ u ∈ s.lstTimers, u.born ≠ some s.pass) : (s.visit now i t).Inv := by
  have looked (ran : Bool) : (s.look now t ran).Inv ∧ (s.look now t ran).in_process = true ∧
      (∀ u ∈ (s.look now t ran).lstTimers, u.born ≠ some (s.look now t ran).pass) := by
    obtain ⟨lists,processes,pass⟩ := look_lists s now t ran
    rw [lists,processes,pass]
    exact ⟨inv_look inv ran at_ earlier,process,earlier⟩
  unfold visit
  split
  · exact inv_erase inv at_ process earlier
  split
  · obtain ⟨inv',process',earlier'⟩ := looked true
    simp only
    split
    · exact inv_walk inv' nofun process' earlier'
    · refine inv_after inv' ?_ process' earlier'
      rw [(look_lists s now t true).1]
      exact at_
  · obtain ⟨inv',process',earlier'⟩ := looked false
    exact inv_walk inv' nofun process' earlier'

/-- A timer just made: only what is to be called may still differ. -/
structure Fresh (s : TimerMgr) (t : Timer) : Prop where
  serial : t.serial = s.made
  born : t.born = s.bornIn
  interval : t.interval < 2^32

theorem inv_create {s : TimerMgr} (inv : s.Inv) {t : Timer} (fresh : s.Fresh t) :
    (s.createTimer t).Inv := by
  have live : Live t [.created s.made t.count_time t.interval s.bornIn] :=
    ⟨⟨t.count_time,[],by rw [fresh.serial,fresh.born],by simp⟩,rfl⟩
  have ledger := inv.ledger.make _ (by simp [Event.serial]) fresh.serial live
  have bound (p : Nat) (here : t.born = some p) : p ≤ s.pass := by
    rw [fresh.born,bornIn] at here
    split_ifs at here
    cases here
    exact Nat.le_refl _
  have passes (u : Timer) (member : u ∈ t::s.held) (p : Nat) (born : u.born = some p) :
      p ≤ s.pass := by
    rcases List.mem_cons.mp member with rfl | old
    · exact bound p born
    · exact inv.passes u old p born
  have walking := inv.walking
  unfold createTimer
  by_cases process : s.in_process = true
  · simp only [process,if_true]
    have same : (s.lstTimers ++ (s.lstNewTimer ++ [t])).Perm (t::s.held) := by
      rw [← List.append_assoc]
      exact List.perm_append_singleton t s.held
    refine ⟨ledger.perm same.symm,?_,fun u member => passes u (same.mem_iff.mp member)⟩
    simp only [Walking] at walking ⊢
    split at walking
    next => rw [walking.1] at process; cases process
    next => exact ⟨trivial,walking.2⟩
  · simp only [process,Bool.false_eq_true,if_false]
    have same : (s.lstTimers ++ [t] ++ s.lstNewTimer).Perm (t::s.held) := by
      rw [List.append_assoc]
      exact List.perm_middle
    refine ⟨ledger.perm same.symm,?_,fun u member => passes u (same.mem_iff.mp member)⟩
    simp only [Walking] at walking ⊢
    split at walking
    next => exact ⟨trivial,walking.2⟩
    next => exact absurd walking.1 process

/-- What marking a timer leaves as it was. -/
structure Marked (ts us : List Timer) (t : Timer) : Prop where
  member : t ∈ ts
  perm : ∃ rest, ts.Perm (t::rest) ∧ us.Perm (t.SetCancel::rest)

theorem marked {ts : List Timer} {i : Nat} {p : Timer → Bool} (found : ts.findIdx? p = some i) :
    ∃ t, Marked ts (ts.modify i Timer.SetCancel) t ∧ p t = true := by
  obtain ⟨inside,here,_⟩ := List.findIdx?_eq_some_iff_getElem.mp found
  have at_ : ts[i]? = some ts[i] := List.getElem?_eq_getElem inside
  obtain ⟨rest,same,changed,_⟩ := set_perm at_
  refine ⟨ts[i],⟨List.getElem_mem inside,rest,same,?_⟩,here⟩
  have set_ : ts.modify i Timer.SetCancel = ts.set i ts[i].SetCancel :=
    List.modify_eq_set_get _ inside
  rw [set_]
  exact changed _

theorem Marked.mem {ts us : List Timer} {t u : Timer} (marked : Marked ts us t) (member : u ∈ us) :
    u = t.SetCancel ∨ u ∈ ts := by
  obtain ⟨rest,same,changed⟩ := marked.perm
  rcases List.mem_cons.mp (changed.mem_iff.mp member) with rfl | old
  · exact .inl rfl
  · exact .inr (same.mem_iff.mpr (List.mem_cons_of_mem _ old))

/-- `CancelTimer` marks the timer that it finds, wherever it is. -/
inductive Cancelled (s : TimerMgr) (tid : Nat) : TimerMgr → Prop where
  | none (none_ : ∀ t ∈ s.held, t.tid ≠ tid) : Cancelled s tid s
  | old {us : List Timer} {t : Timer} (marked : Marked s.lstTimers us t) (found : t.tid = tid) :
    Cancelled s tid {s with lstTimers := us}
  | new {us : List Timer} {t : Timer} (marked : Marked s.lstNewTimer us t) (found : t.tid = tid) :
    Cancelled s tid {s with lstNewTimer := us}

theorem cancel_cases (s : TimerMgr) (tid : Nat) : Cancelled s tid (s.CancelTimer tid) := by
  have absent {ts : List Timer} (none_ : ts.findIdx? (fun t => t.tid == tid) = none) (t : Timer)
      (member : t ∈ ts) : t.tid ≠ tid := by
    simpa using List.findIdx?_eq_none_iff.mp none_ t member
  unfold CancelTimer GetTimer
  cases old : s.lstTimers.findIdx? (fun t => t.tid == tid) with
  | some i =>
    obtain ⟨t,marked,here⟩ := marked old
    exact .old marked (by simpa using here)
  | none =>
    cases new : s.lstNewTimer.findIdx? (fun t => t.tid == tid) with
    | some i =>
      obtain ⟨t,marked,here⟩ := marked new
      exact .new marked (by simpa using here)
    | none =>
      refine .none fun t member => ?_
      rcases List.mem_append.mp member with inside | aside
      · exact absent old t inside
      · exact absent new t aside

theorem inv_cancel {s : TimerMgr} (inv : s.Inv) (tid : Nat) : (s.CancelTimer tid).Inv := by
  have walking := inv.walking
  have live {t : Timer} {rest : List Timer} (same : s.held.Perm (t::rest)) :
      Ledger Timer.serial Event.serial Live Dead (t.SetCancel::rest) s.freed s.made s.log := by
    have ledger := inv.ledger.perm same
    have replaced := ledger.replace (y := t.SetCancel) [] (by simp) rfl
      (by rw [List.append_nil]; exact ledger.live t List.mem_cons_self)
    rwa [List.append_nil] at replaced
  have result := cancel_cases s tid
  generalize s.CancelTimer tid = s' at result
  cases result with
  | none => exact inv
  | @old us t marked found =>
    obtain ⟨rest,same,changed⟩ := marked.perm
    have member := List.mem_append_left s.lstNewTimer marked.member
    refine ⟨(live (same.append_right s.lstNewTimer)).perm (changed.append_right _).symm,?_,?_⟩
    · simp only [Walking] at walking ⊢
      split at walking
      next => exact walking
      next =>
        refine ⟨walking.1,fun u inside => ?_⟩
        rcases marked.mem inside with rfl | there
        · exact walking.2 t marked.member
        · exact walking.2 u there
    · intro u inside p born
      rcases List.mem_append.mp inside with changed | aside
      · rcases marked.mem changed with rfl | there
        · exact inv.passes t member p born
        · exact inv.passes u (List.mem_append_left _ there) p born
      · exact inv.passes u (List.mem_append_right _ aside) p born
  | @new us t marked found =>
    obtain ⟨rest,same,changed⟩ := marked.perm
    have front (u : Timer) (ts : List Timer) (here : ts.Perm (u::rest)) :
        (s.lstTimers ++ ts).Perm (u::(s.lstTimers ++ rest)) :=
      (here.append_left _).trans List.perm_middle
    have member := List.mem_append_right s.lstTimers marked.member
    refine ⟨(live (front t _ same)).perm (front _ _ changed).symm,?_,?_⟩
    · simp only [Walking] at walking ⊢
      split at walking
      next =>
        have nothing := marked.member
        rw [walking.2] at nothing
        exact absurd nothing List.not_mem_nil
      next => exact walking
    · intro u inside p born
      rcases List.mem_append.mp inside with old | changed
      · exact inv.passes u (List.mem_append_left _ old) p born
      · rcases marked.mem changed with rfl | there
        · exact inv.passes t member p born
        · exact inv.passes u (List.mem_append_right _ there) p born

/-- What each step does, and where it can be taken. -/
inductive Stepped (s : TimerMgr) : TimerOp → TimerMgr → Prop where
  | createCb {tick itv once : Nat} {cb : Option Nat} {t : Timer} (fresh : s.Fresh t)
    (time : s.readTick t.count_time) : Stepped s (.createCb tick itv cb once) (s.createTimer t)
  | createFunc {tick itv param once : Nat} {func : Option Nat} {t : Timer} (fresh : s.Fresh t)
    (time : s.readTick t.count_time) :
    Stepped s (.createFunc tick itv func param once) (s.createTimer t)
  | cancel {tid : Nat} : Stepped s (.cancel tid) (s.CancelTimer tid)
  | update {tick : Nat} (idle : s.walk = .idle) (time : s.readTick tick) :
    Stepped s (.update tick)
      {s with in_process := true, walk := .scan tick 0, pass := s.pass + 1, clock := tick}
  | visit {now i : Nat} {t : Timer} (walk : s.walk = .scan now i)
    (at_ : s.lstTimers[i]? = some t) : Stepped s .visit (s.visit now i t)
  | ret {now i : Nat} {t : Timer} (walk : s.walk = .call now i)
    (at_ : s.lstTimers[i]? = some t) : Stepped s .ret (s.ret now i t)
  | leave {now i : Nat} (walk : s.walk = .scan now i) : Stepped s .leave s.leave
  | release (idle : s.walk = .idle) : Stepped s .release s._release

theorem step_cases {s s' : TimerMgr} {op : TimerOp} (stepped : s.step op = some s') :
    Stepped s op s' := by
  cases op with
  | createCb tick itv cb once =>
    simp only [step] at stepped
    split_ifs at stepped with ok
    cases stepped
    exact .createCb ⟨rfl,rfl,Nat.mod_lt _ (by decide)⟩ ok.2
  | createFunc tick itv func param once =>
    simp only [step] at stepped
    split_ifs at stepped with ok
    cases stepped
    exact .createFunc ⟨rfl,rfl,Nat.mod_lt _ (by decide)⟩ ok.2
  | cancel tid =>
    simp only [step] at stepped
    split_ifs at stepped
    cases stepped
    exact .cancel
  | update tick =>
    simp only [step] at stepped
    split_ifs at stepped with ok
    cases stepped
    exact .update ok.1 ok.2.2
  | visit =>
    simp only [step] at stepped
    split at stepped
    next now i walk =>
      obtain ⟨t,at_,same⟩ := Option.map_eq_some_iff.mp stepped
      rw [← same]
      exact .visit walk at_
    next => cases stepped
  | ret =>
    simp only [step] at stepped
    split at stepped
    next now i walk =>
      obtain ⟨t,at_,same⟩ := Option.map_eq_some_iff.mp stepped
      rw [← same]
      exact .ret walk at_
    next => cases stepped
  | leave =>
    simp only [step] at stepped
    split at stepped
    next now i walk =>
      split_ifs at stepped
      cases stepped
      exact .leave walk
    next => cases stepped
  | release =>
    simp only [step] at stepped
    split_ifs at stepped with ok
    cases stepped
    exact .release ok.1

theorem Inv.walks {s : TimerMgr} (inv : s.Inv) (walk : s.walk ≠ .idle) :
    s.in_process = true ∧ ∀ t ∈ s.lstTimers, t.born ≠ some s.pass := by
  have walking := inv.walking
  unfold Walking at walking
  split at walking
  next idle => exact absurd idle walk
  next => exact walking

theorem Inv.rests {s : TimerMgr} (inv : s.Inv) (idle : s.walk = .idle) :
    s.in_process = false ∧ s.lstNewTimer = [] := by
  have walking := inv.walking
  rw [Walking,idle] at walking
  exact walking

theorem inv_release {s : TimerMgr} (inv : s.Inv) (idle : s.walk = .idle) : s._release.Inv where
  ledger := by
    have all := inv.ledger.perm (List.Perm.of_eq (List.append_nil s.held).symm)
    have freed := all.free_all (fun _ => []) (by simp)
      (fun t _ h live => by rw [List.append_nil]; exact ⟨_,_,_,live.1⟩)
    have none_ : s.held.flatMap (fun _ => ([] : List Event)) = [] := by simp
    rw [none_,List.append_nil,held,List.map_append,← List.append_assoc] at freed
    exact freed
  walking := by
    obtain ⟨process,_⟩ := inv.rests idle
    rw [Walking,_release,idle]
    exact ⟨process,rfl⟩
  passes := fun t member => absurd member List.not_mem_nil

theorem inv_step {s s' : TimerMgr} {op : TimerOp} (inv : s.Inv) (stepped : s.step op = some s') :
    s'.Inv := by
  cases step_cases stepped with
  | createCb fresh time | createFunc fresh time => exact inv_create inv fresh
  | cancel => exact inv_cancel inv _
  | update idle time =>
    refine ⟨inv.ledger,⟨rfl,fun t member born => ?_⟩,fun t member p born => ?_⟩
    · have before : s.pass + 1 ≤ s.pass := inv.passes t (List.mem_append_left _ member) _ born
      omega
    · have before := inv.passes t member p born
      exact Nat.le_succ_of_le before
  | visit walk at_ =>
    obtain ⟨process,earlier⟩ := inv.walks (by rw [walk]; nofun)
    exact inv_visit inv at_ process earlier
  | ret walk at_ =>
    obtain ⟨process,earlier⟩ := inv.walks (by rw [walk]; nofun)
    exact inv_after inv at_ process earlier
  | leave walk =>
    refine ⟨?_,⟨rfl,rfl⟩,fun t member => ?_⟩
    · refine inv.ledger.perm (List.Perm.of_eq ?_)
      exact (List.append_nil _).symm
    · apply inv.passes t
      rcases List.mem_append.mp member with there | nothing
      · exact there
      · exact absurd nothing List.not_mem_nil
  | release idle => exact inv_release inv idle

theorem inv_new : new.Inv where
  ledger := .empty
  walking := ⟨rfl,rfl⟩
  passes := fun _ member => absurd member List.not_mem_nil

theorem inv_run {s : TimerMgr} {ops : List TimerOp} (ran : Runs.run step new ops = some s) : s.Inv :=
  Runs.run_pres Inv (fun _ _ _ inv stepped => inv_step inv stepped) inv_new ran

theorem Inv.past {s : TimerMgr} (inv : s.Inv) {n : Nat} (made : n < s.made) :
    Dead (history Event.serial s.log n) := by
  have member := inv.ledger.all.mem_iff.mpr (List.mem_range.mpr made)
  rcases List.mem_append.mp member with held | gone
  · obtain ⟨t,there,same⟩ := List.mem_map.mp held
    rw [← same]
    exact ⟨_,_,_,(inv.ledger.live t there).1⟩
  · exact inv.ledger.dead n gone

/-- The calls of a timer's callback. -/
def starts (s : TimerMgr) (n : Nat) : Nat := s.log.countP (Event.starts n)

/-- Every timer made is in one of the two lists, or freed once; none is even looked at
in the pass that it was made in. -/
structure Safe (s : TimerMgr) : Prop where
  place : ∀ n < s.made, (s.lstTimers.map Timer.serial).count n +
    (s.lstNewTimer.map Timer.serial).count n + s.freed.count n = 1
  later : ∀ n tick itv p, .created n tick itv (some p) ∈ s.log →
    ∀ now ran, .looked n now p ran ∉ s.log

theorem Inv.safe {s : TimerMgr} (inv : s.Inv) : s.Safe where
  place := by
    intro n made
    have once := inv.ledger.once made
    rwa [held,List.map_append,List.count_append] at once
  later := by
    intro n tick itv p created now ran looked
    have own {e : Event} (member : e ∈ s.log) (about : e.serial = n) :
        e ∈ history Event.serial s.log n := List.mem_filter.mpr ⟨member,decide_eq_true about⟩
    have made : n < s.made := by
      by_contra beyond
      have member := own created rfl
      rw [inv.ledger.fresh n (by omega)] at member
      exact List.not_mem_nil member
    obtain ⟨serial,itv',born,tick',rest,past,all⟩ := inv.past made
    have first := own created rfl
    have second := own looked rfl
    rw [past] at first second
    rcases List.mem_cons.mp first with same | inside
    · cases same
      rcases List.mem_cons.mp second with same | inside
      · cases same
      · rcases all _ inside with ⟨_,same⟩ | ⟨_,_,_,same,other⟩
        · cases same
        · cases same
          exact other rfl
    · rcases all _ inside with ⟨_,same⟩ | ⟨_,_,_,same,_⟩ <;> cases same

/-- A timer that is marked, or gone, with the calls made of its callback so far. -/
structure Silenced (n calls : Nat) (s : TimerMgr) : Prop where
  made : n < s.made
  marked : ∀ t ∈ s.held, t.serial = n → t.canceled = true
  calls : s.starts n = calls

theorem Silenced.keep {n calls : Nat} {s s' : TimerMgr} (silenced : Silenced n calls s)
    (made : s.made ≤ s'.made)
    (held : ∀ u ∈ s'.held, ∃ t ∈ s.held, u.serial = t.serial ∧ (t.canceled = true → u.canceled = true))
    (starts : s'.starts n = s.starts n) : Silenced n calls s' where
  made := by have before := silenced.made; omega
  marked := by
    intro u member same
    obtain ⟨t,there,serial,kept⟩ := held u member
    exact kept (silenced.marked t there (serial.symm.trans same))
  calls := starts.trans silenced.calls

theorem starts_append (s : TimerMgr) (n : Nat) {log : List Event} {e : Event}
    (same : log = s.log ++ [e]) (quiet : ∀ now pass, e ≠ .looked n now pass true) :
    ({s with log := log} : TimerMgr).starts n = s.starts n := by
  have nothing : e.starts n = false := by
    cases e with
    | looked serial now pass ran =>
      cases ran with
      | false => simp [Event.starts]
      | true =>
        have other : serial ≠ n := fun same => quiet now pass (by rw [same])
        simp [Event.starts,other]
    | _ => rfl
  simp only [starts,same,List.countP_append,List.countP_singleton,nothing]
  rfl

theorem silenced_erase {n calls : Nat} {s : TimerMgr} (silenced : Silenced n calls s)
    (now i : Nat) (t : Timer) : Silenced n calls (s.erase now i t) := by
  refine silenced.keep (Nat.le_refl _) (fun u member => ⟨u,?_,rfl,fun h => h⟩) rfl
  rcases List.mem_append.mp member with old | new
  · exact List.mem_append_left _ (List.mem_of_mem_eraseIdx old)
  · exact List.mem_append_right _ new

theorem silenced_after {n calls : Nat} {s : TimerMgr} (silenced : Silenced n calls s)
    {now i : Nat} {t : Timer} (at_ : s.lstTimers[i]? = some t) :
    Silenced n calls (s.after now i t) := by
  unfold after
  split
  · exact silenced_erase silenced now i t
  · refine silenced.keep (Nat.le_refl _) (fun u member => ?_) ?_
    · rcases List.mem_append.mp member with there | new
      · rcases List.mem_or_eq_of_mem_set there with old | rfl
        · exact ⟨u,List.mem_append_left _ old,rfl,fun h => h⟩
        · exact ⟨t,mem_held at_,rfl,fun h => h⟩
      · exact ⟨u,List.mem_append_right _ new,rfl,fun h => h⟩
    · exact starts_append s n rfl nofun

theorem silenced_visit {n calls : Nat} {s : TimerMgr} (silenced : Silenced n calls s)
    {now i : Nat} {t : Timer} (at_ : s.lstTimers[i]? = some t) :
    Silenced n calls (s.visit now i t) := by
  unfold visit
  split
  · exact silenced_erase silenced now i t
  next live =>
    -- a timer that is not marked is another one
    have other : t.serial ≠ n := fun same => live (silenced.marked t (mem_held at_) same)
    have looked (ran : Bool) : Silenced n calls (s.look now t ran) := by
      unfold look
      split
      · refine silenced.keep (Nat.le_refl _) (fun u member => ⟨u,member,rfl,fun h => h⟩) ?_
        apply starts_append s n rfl
        intro now' pass same
        cases same
        exact other rfl
      · exact silenced
    have walks {s : TimerMgr} (silenced : Silenced n calls s) (walk : Walk) :
        Silenced n calls {s with walk := walk} := ⟨silenced.made,silenced.marked,silenced.calls⟩
    split
    · simp only
      split
      · exact walks (looked true) _
      · apply silenced_after (looked true)
        rw [(look_lists s now t true).1]
        exact at_
    · exact walks (looked false) _

theorem silenced_cancel {n calls : Nat} {s : TimerMgr} (silenced : Silenced n calls s) (tid : Nat) :
    Silenced n calls (s.CancelTimer tid) := by
  have result := cancel_cases s tid
  generalize s.CancelTimer tid = s' at result
  cases result with
  | none => exact silenced
  | @old us t marked found =>
    refine silenced.keep (Nat.le_refl _) (fun u member => ?_) rfl
    rcases List.mem_append.mp member with changed | aside
    · rcases marked.mem changed with rfl | there
      · exact ⟨t,List.mem_append_left _ marked.member,rfl,fun _ => rfl⟩
      · exact ⟨u,List.mem_append_left _ there,rfl,fun h => h⟩
    · exact ⟨u,List.mem_append_right _ aside,rfl,fun h => h⟩
  | @new us t marked found =>
    refine silenced.keep (Nat.le_refl _) (fun u member => ?_) rfl
    rcases List.mem_append.mp member with old | changed
    · exact ⟨u,List.mem_append_left _ old,rfl,fun h => h⟩
    · rcases marked.mem changed with rfl | there
      · exact ⟨t,List.mem_append_right _ marked.member,rfl,fun _ => rfl⟩
      · exact ⟨u,List.mem_append_right _ there,rfl,fun h => h⟩

theorem silenced_create {n calls : Nat} {s : TimerMgr} (silenced : Silenced n calls s) {t : Timer}
    (fresh : s.Fresh t) : Silenced n calls (s.createTimer t) := by
  have made := silenced.made
  have serial := fresh.serial
  have all (u : Timer) (member : u = t ∨ u ∈ s.held) (same : u.serial = n) : u.canceled = true := by
    rcases member with rfl | old
    · omega
    · exact silenced.marked u old same
  have calls_ : (s.log ++ [Event.created s.made t.count_time t.interval s.bornIn]).countP
      (Event.starts n) = calls := by
    rw [← silenced.calls,List.countP_append]
    rfl
  unfold createTimer
  dsimp only
  split
  · refine ⟨Nat.lt_succ_of_lt made,fun u member => all u ?_,calls_⟩
    rcases List.mem_append.mp member with old | new
    · exact .inr (List.mem_append_left _ old)
    · rcases List.mem_append.mp new with old | here
      · exact .inr (List.mem_append_right _ old)
      · exact .inl (List.mem_singleton.mp here)
  · refine ⟨Nat.lt_succ_of_lt made,fun u member => all u ?_,calls_⟩
    rcases List.mem_append.mp member with new | old
    · rcases List.mem_append.mp new with old | here
      · exact .inr (List.mem_append_left _ old)
      · exact .inl (List.mem_singleton.mp here)
    · exact .inr (List.mem_append_right _ old)

theorem silenced_step {n calls : Nat} {s s' : TimerMgr} {op : TimerOp}
    (silenced : Silenced n calls s) (stepped : s.step op = some s') : Silenced n calls s' := by
  cases step_cases stepped with
  | createCb fresh time | createFunc fresh time => exact silenced_create silenced fresh
  | cancel => exact silenced_cancel silenced _
  | update idle time => exact ⟨silenced.made,silenced.marked,silenced.calls⟩
  | visit walk at_ => exact silenced_visit silenced at_
  | ret walk at_ => exact silenced_after silenced at_
  | leave walk =>
    refine silenced.keep (Nat.le_refl _) (fun u member => ⟨u,?_,rfl,fun h => h⟩) rfl
    rcases List.mem_append.mp member with there | nothing
    · exact there
    · exact absurd nothing List.not_mem_nil
  | release idle =>
    exact silenced.keep (Nat.le_refl _) (fun u member => absurd member List.not_mem_nil) rfl

/-- With distinct ids `CancelTimer` marks the timer it is called for. -/
theorem cancel_silences {s : TimerMgr} (inv : s.Inv) {t : Timer} (member : t ∈ s.held)
    (distinct : (s.held.map Timer.tid).Nodup) :
    Silenced t.serial ((s.CancelTimer t.tid).starts t.serial) (s.CancelTimer t.tid) := by
  have made := inv.ledger.made member
  have unique {u : Timer} (there : u ∈ s.held) (same : u.tid = t.tid) : u = t :=
    List.inj_on_of_nodup_map distinct there member same
  have others {rest : List Timer} (same : s.held.Perm (t::rest)) (u : Timer) (inside : u ∈ rest) :
      u.serial ≠ t.serial := (inv.ledger.perm same).apart.1 u inside
  have result := cancel_cases s t.tid
  generalize s.CancelTimer t.tid = s' at result
  cases result with
  | none none_ => exact absurd rfl (none_ t member)
  | @old us v marked found =>
    cases unique (List.mem_append_left _ marked.member) found
    obtain ⟨rest,same,changed⟩ := marked.perm
    refine ⟨made,fun u inside serial => ?_,rfl⟩
    have place := (changed.append_right s.lstNewTimer).mem_iff.mp inside
    rcases List.mem_cons.mp place with rfl | other
    · rfl
    · exact absurd serial (others (same.append_right s.lstNewTimer) u other)
  | @new us v marked found =>
    cases unique (List.mem_append_right _ marked.member) found
    obtain ⟨rest,same,changed⟩ := marked.perm
    refine ⟨made,fun u inside serial => ?_,rfl⟩
    have front := (same.append_left s.lstTimers).trans List.perm_middle
    have place := ((changed.append_left s.lstTimers).trans List.perm_middle).mem_iff.mp inside
    rcases List.mem_cons.mp place with rfl | other
    · rfl
    · exact absurd serial (others front u other)

theorem timers_safe (ops : List TimerOp) (s : TimerMgr) (ran : Runs.run step new ops = some s) :
    s.Safe ∧ ∀ t ∈ s.held, (s.held.map Timer.tid).Nodup →
      ∀ s', s.step (.cancel t.tid) = some s' →
        ∀ ops' s'', Runs.run step s' ops' = some s'' → s''.starts t.serial = s'.starts t.serial := by
  have inv := inv_run ran
  refine ⟨inv.safe,fun t member distinct s' stepped ops' s'' later => ?_⟩
  cases step_cases stepped with
  | cancel =>
    exact (Runs.run_pres (Silenced t.serial _)
      (fun _ _ _ silenced stepped => silenced_step silenced stepped)
      (cancel_silences inv member distinct) later).calls

/-- Two timers, the first of them in its callback. -/
def inCallback : List TimerOp :=
  [.createCb 1 0 (some 0) 0,.createFunc 1 5 (some 7) 8 1,.update 1,.visit,.createCb 2 0 (some 1) 1]

theorem timers_safe_callback : ∃ s s' s'', Runs.run step new inCallback = some s ∧
    s.step (.cancel 2) = some s' ∧ Runs.run step s' [.ret,.visit,.leave,.update 3,.visit] = some s'' ∧
    s''.freed = [1] ∧ s''.starts 1 = s'.starts 1 := by
  let s := (Runs.run step new inCallback).getD new
  let t : Timer := ⟨1,none,1,5,2,1,false,some 7,8,none⟩
  have ran : Runs.run step new inCallback = some s := by decide
  have cancelled : s.step (.cancel 2) = some (s.CancelTimer 2) := by decide
  have later : (Runs.run step (s.CancelTimer 2) [.ret,.visit,.leave,.update 3,.visit]).map freed =
      some [1] := by decide
  obtain ⟨s'',later,freed⟩ := Option.map_eq_some_iff.mp later
  exact ⟨s,_,s'',ran,cancelled,later,freed,
    (timers_safe inCallback s ran).2 t (by decide) (by decide) _ cancelled _ s'' later⟩

end TimerMgr

end Pworld.Timing
