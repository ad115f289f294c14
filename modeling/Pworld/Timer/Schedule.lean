import Pworld.Support.Calendar
import Pworld.Support.Runs

/-! `ScheduleBase`: what `Update` calls when an hour, a day, a week, a month or a year begins,
where it is let through at least once in every hour. -/
namespace Pworld.Scheduling

open Calendar

structure Tm where
  tm_hour : Int
  tm_mday : Int
  tm_mon : Int
  tm_year : Int
  tm_wday : Int
  tm_yday : Int
  deriving DecidableEq,Repr

/-- Seconds since 1970 on the local clock, which is `offset` hours ahead. -/
def clock (offset now : Int) : Int := now + 3600 * offset

def localtime (offset now : Int) : Tm :=
  let day := clock offset now / 86400
  { tm_hour := clock offset now % 86400 / 3600
    tm_mday := (monthDay day).2 + 1
    tm_mon := (monthDay day).1
    tm_year := year day - 1900
    tm_wday := weekDay day
    tm_yday := yearDay day }

inductive Event where
  | newHour
  | newDay
  | newWeek
  | newMonth
  | newYear
  deriving DecidableEq,Repr

structure ScheduleBase where
  _last_update_t : Int
  _curr_hour : Int
  _sb_hour : Int
  _sb_mday : Int
  _sb_mon : Int
  _sb_year : Int
  _sb_wday : Int
  _sb_yday : Int
  deriving DecidableEq,Repr

namespace ScheduleBase

def new (offset now : Int) : ScheduleBase :=
  { _last_update_t := 0, _curr_hour := (localtime offset now).tm_hour, _sb_hour := 0
    _sb_mday := 0, _sb_mon := 0, _sb_year := 0, _sb_wday := 0, _sb_yday := 0 }

def throttled (s : ScheduleBase) (now : Int) : Bool := now - s._last_update_t < 30

/-- With the calls it makes, the first one first. -/
def Update (offset now : Int) (s : ScheduleBase) : List Event × ScheduleBase :=
  if s.throttled now then ([],s)
  else
    let lt := localtime offset now
    let s := {s with
      _last_update_t := now
      _sb_hour := lt.tm_hour
      _sb_mday := lt.tm_mday
      _sb_mon := lt.tm_mon
      _sb_year := lt.tm_year
      _sb_wday := lt.tm_wday
      _sb_yday := lt.tm_yday}
    if s._curr_hour ≠ lt.tm_hour then
      let s := {s with _curr_hour := lt.tm_hour}
      if s._sb_hour = 0 then
        if lt.tm_wday = 0 then
          if s._sb_mday = 1 then
            if s._sb_yday = 0 then ([.newHour,.newDay,.newWeek,.newMonth,.newYear],s)
            else ([.newHour,.newDay,.newWeek,.newMonth],s)
          else ([.newHour,.newDay,.newWeek],s)
        else ([.newHour,.newDay],s)
      else ([.newHour],s)
    else ([],s)

end ScheduleBase

/-- One `Update` that was let through: the time of the one before or of the construction,
its own time, and its calls. -/
structure Pass where
  since : Int
  now : Int
  calls : List Event
  deriving DecidableEq,Repr

structure Schedule where
  self : ScheduleBase
  since : Int
  passes : List Pass
  deriving DecidableEq,Repr

namespace Schedule

def start (offset now : Int) : Schedule := ⟨.new offset now,now,[]⟩

/-- Where an hour or more has gone by, or less than nothing, it is `none`. -/
def step (offset : Int) (s : Schedule) (now : Int) : Option Schedule :=
  if s.self.throttled now then some s
  else if s.since ≤ now ∧ now < s.since + 3600 then
    some ⟨(s.self.Update offset now).2,now,
      s.passes ++ [⟨s.since,now,(s.self.Update offset now).1⟩]⟩
  else none

def calls (s : Schedule) : List Event := s.passes.flatMap Pass.calls

end Schedule

namespace Pass

/-- A local midnight after which it is Sunday. -/
def Week (offset : Int) (p : Pass) : Prop :=
  ∃ t, p.since < t ∧ t ≤ p.now ∧ clock offset t % 86400 = 0 ∧ (localtime offset t).tm_wday = 0

def Year (offset : Int) (p : Pass) : Prop :=
  (localtime offset p.now).tm_year ≠ (localtime offset p.since).tm_year

def Month (offset : Int) (p : Pass) : Prop :=
  (localtime offset p.now).tm_mon ≠ (localtime offset p.since).tm_mon ∨ p.Year offset

instance (offset : Int) (p : Pass) : Decidable (p.Year offset) := by
  unfold Year
  infer_instance

instance (offset : Int) (p : Pass) : Decidable (p.Month offset) := by
  unfold Month
  infer_instance

/-- The calls for the week, the month and the year are those that are due. -/
structure Right (offset : Int) (p : Pass) : Prop where
  once : p.calls.Nodup
  week : .newWeek ∈ p.calls ↔ p.Week offset
  month : .newMonth ∈ p.calls ↔ p.Month offset
  year : .newYear ∈ p.calls ↔ p.Year offset

end Pass

/-- Each call is made only where the one before it is. -/
structure Cascade (lt : Tm) (curr_hour : Int) (calls : List Event) : Prop where
  once : calls.Nodup
  hour : .newHour ∈ calls ↔ curr_hour ≠ lt.tm_hour
  day : .newDay ∈ calls ↔ .newHour ∈ calls ∧ lt.tm_hour = 0
  week : .newWeek ∈ calls ↔ .newDay ∈ calls ∧ lt.tm_wday = 0
  month : .newMonth ∈ calls ↔ .newWeek ∈ calls ∧ lt.tm_mday = 1
  year : .newYear ∈ calls ↔ .newMonth ∈ calls ∧ lt.tm_yday = 0

section

variable {offset : Int}

theorem Update_cascade {s : ScheduleBase} {now : Int} (passes : s.throttled now = false) :
    Cascade (localtime offset now) s._curr_hour (s.Update offset now).1 ∧
      (s.Update offset now).2._curr_hour = (localtime offset now).tm_hour := by
  rw [ScheduleBase.Update,passes]
  generalize localtime offset now = lt
  split
  next wrong => cases wrong
  dsimp only
  by_cases hour : s._curr_hour = lt.tm_hour
  · rw [if_neg (not_not_intro hour)]
    refine ⟨⟨?_,?_,?_,?_,?_,?_⟩,hour⟩ <;> simp [hour]
  · rw [if_pos hour]
    have called {more : List Event} : .newHour ∈ .newHour::more ↔ s._curr_hour ≠ lt.tm_hour :=
      iff_of_true List.mem_cons_self hour
    by_cases midnight : lt.tm_hour = 0
    · rw [if_pos midnight]
      by_cases sunday : lt.tm_wday = 0
      · rw [if_pos sunday]
        by_cases first : lt.tm_mday = 1
        · rw [if_pos first]
          by_cases newYear : lt.tm_yday = 0
          · rw [if_pos newYear]
            refine ⟨⟨?_,called,?_,?_,?_,?_⟩,rfl⟩ <;> simp [midnight,sunday,first,newYear]
          · rw [if_neg newYear]
            refine ⟨⟨?_,called,?_,?_,?_,?_⟩,rfl⟩ <;> simp [midnight,sunday,first,newYear]
        · rw [if_neg first]
          refine ⟨⟨?_,called,?_,?_,?_,?_⟩,rfl⟩ <;> simp [midnight,sunday,first]
      · rw [if_neg sunday]
        refine ⟨⟨?_,called,?_,?_,?_,?_⟩,rfl⟩ <;> simp [midnight,sunday]
    · rw [if_neg midnight]
      refine ⟨⟨?_,called,?_,?_,?_,?_⟩,rfl⟩ <;> simp [midnight]

/-- Less than an hour later it is the same hour of the same day, the next hour of the same day
or the first hour of the next one. -/
theorem clock_next {since now : Int} (le : since ≤ now) (lt : now < since + 3600) :
    (localtime offset now).tm_hour = (localtime offset since).tm_hour ∧
        clock offset now / 3600 = clock offset since / 3600 ∧
        clock offset now / 86400 = clock offset since / 86400 ∨
      (localtime offset now).tm_hour = (localtime offset since).tm_hour + 1 ∧
        clock offset now / 3600 = clock offset since / 3600 + 1 ∧
        clock offset now / 86400 = clock offset since / 86400 ∨
      (localtime offset now).tm_hour = 0 ∧ (localtime offset since).tm_hour = 23 ∧
        clock offset now / 3600 = clock offset since / 3600 + 1 ∧
        clock offset now / 86400 = clock offset since / 86400 + 1 := by
  simp only [localtime,clock]
  omega

/-- The local midnights that begin a Sunday, the months and the years, of two times on the same
or on consecutive days. -/
theorem day_next {since now : Int}
    (next : clock offset now / 86400 = clock offset since / 86400 + 1) {calls : List Event} :
    (Pass.Week offset ⟨since,now,calls⟩ ↔ (localtime offset now).tm_wday = 0) ∧
      (Pass.Month offset ⟨since,now,calls⟩ ↔ (localtime offset now).tm_mday = 1) ∧
      (Pass.Year offset ⟨since,now,calls⟩ ↔ (localtime offset now).tm_yday = 0) := by
  have year : Pass.Year offset ⟨since,now,calls⟩ ↔
      Calendar.year (clock offset since / 86400 + 1) ≠ Calendar.year (clock offset since / 86400) := by
    simp only [Pass.Year,localtime,next]
    omega
  refine ⟨?_,?_,?_⟩
  · constructor
    · rintro ⟨t,after,before,midnight,sunday⟩
      have day : clock offset t / 86400 = clock offset now / 86400 := by
        simp only [clock] at *
        omega
      simpa only [localtime,day] using sunday
    · intro sunday
      have back : clock offset (86400 * (clock offset now / 86400) - 3600 * offset) =
          86400 * (clock offset now / 86400) := Int.sub_add_cancel _ _
      refine ⟨86400 * (clock offset now / 86400) - 3600 * offset,?_,?_,?_,?_⟩
      · simp only [clock] at *
        omega
      · simp only [clock]
        omega
      · rw [back,Int.mul_emod_right]
      · simpa only [localtime,back,Int.mul_ediv_cancel_left _ (by decide : (86400 : Int) ≠ 0)]
          using sunday
  · rw [Pass.Month,year]
    simp only [localtime,next]
    have changed := month_changed (clock offset since / 86400)
    rw [Ne,Prod.mk.injEq,not_and_or] at changed
    omega
  · rw [year,year_changed]
    simp only [localtime,next]
    omega

theorem day_same {since now : Int}
    (same : clock offset now / 86400 = clock offset since / 86400) {calls : List Event} :
    ¬ Pass.Week offset ⟨since,now,calls⟩ ∧ ¬ Pass.Month offset ⟨since,now,calls⟩ ∧
      ¬ Pass.Year offset ⟨since,now,calls⟩ := by
  have year : ¬ Pass.Year offset ⟨since,now,calls⟩ := by
    simp only [Pass.Year,localtime,same]
    simp
  refine ⟨?_,?_,year⟩
  · rintro ⟨t,after,before,midnight,_⟩
    simp only [clock] at *
    omega
  · rintro (month | changed)
    · simp only [localtime,same] at month
      exact month rfl
    · exact year changed

theorem hour_day {s : ScheduleBase} {since now : Int} (passes : s.throttled now = false)
    (curr : s._curr_hour = (localtime offset since).tm_hour) (le : since ≤ now)
    (lt : now < since + 3600) :
    (((s.Update offset now).1.count .newHour : Nat) : Int) =
        clock offset now / 3600 - clock offset since / 3600 ∧
      (((s.Update offset now).1.count .newDay : Nat) : Int) =
        clock offset now / 86400 - clock offset since / 86400 := by
  have cascade := (@Update_cascade offset s now passes).1
  rw [cascade.once.count,cascade.once.count]
  simp only [cascade.day,cascade.hour,curr]
  rcases clock_next le lt with ⟨same,hours,days⟩ | ⟨later,hours,days⟩ | ⟨midnight,last,hours,days⟩
  · rw [same,hours,days]
    simp
  · have changed : (localtime offset since).tm_hour ≠ (localtime offset now).tm_hour := by omega
    have inside : (localtime offset now).tm_hour ≠ 0 := by
      have low : 0 ≤ (localtime offset since).tm_hour := by
        simp only [localtime]
        omega
      omega
    rw [if_pos changed,if_neg (fun both => inside both.2),hours,days]
    simp
  · have changed : (localtime offset since).tm_hour ≠ (localtime offset now).tm_hour := by omega
    rw [if_pos changed,if_pos ⟨changed,midnight⟩,hours,days]
    simp

/-- The calls for the month and the year are only reached on a Sunday. -/
theorem right_iff {s : ScheduleBase} {since now : Int} (passes : s.throttled now = false)
    (curr : s._curr_hour = (localtime offset since).tm_hour) (le : since ≤ now)
    (lt : now < since + 3600) : Pass.Right offset ⟨since,now,(s.Update offset now).1⟩ ↔
      (Pass.Month offset ⟨since,now,[]⟩ → (localtime offset now).tm_wday = 0) := by
  have cascade := (@Update_cascade offset s now passes).1
  have quiet (same : clock offset now / 86400 = clock offset since / 86400)
      (idle : .newDay ∉ (s.Update offset now).1) :
      Pass.Right offset ⟨since,now,(s.Update offset now).1⟩ ↔
        (Pass.Month offset ⟨since,now,[]⟩ → (localtime offset now).tm_wday = 0) := by
    obtain ⟨week,month,year⟩ := @day_same offset since now same (s.Update offset now).1
    have noWeek : .newWeek ∉ (s.Update offset now).1 := fun made => idle (cascade.week.mp made).1
    have noMonth : .newMonth ∉ (s.Update offset now).1 :=
      fun made => noWeek (cascade.month.mp made).1
    have noYear : .newYear ∉ (s.Update offset now).1 :=
      fun made => noMonth (cascade.year.mp made).1
    refine iff_of_true ⟨cascade.once,iff_of_false noWeek week,iff_of_false noMonth month,
      iff_of_false noYear year⟩ ?_
    intro changed
    exact absurd changed month
  rcases clock_next le lt with ⟨same,_,days⟩ | ⟨later,_,days⟩ | ⟨midnight,last,_,days⟩
  · apply quiet days
    intro made
    exact (cascade.hour.mp (cascade.day.mp made).1) (curr.trans same.symm)
  · apply quiet days
    intro made
    have first := (cascade.day.mp made).2
    have low : 0 ≤ (localtime offset since).tm_hour := by
      simp only [localtime]
      omega
    omega
  · obtain ⟨week,month,year⟩ := @day_next offset since now days (s.Update offset now).1
    have day : .newDay ∈ (s.Update offset now).1 := by
      rw [cascade.day,cascade.hour,curr]
      omega
    have sundays : Pass.Month offset ⟨since,now,[]⟩ ↔ (localtime offset now).tm_mday = 1 := month
    have first : (localtime offset now).tm_yday = 0 → (localtime offset now).tm_mday = 1 := by
      intro newYear
      exact month.mp (.inr (year.mpr newYear))
    rw [sundays]
    constructor
    · rintro ⟨_,_,months,_⟩ newMonth
      exact (cascade.week.mp (cascade.month.mp (months.mpr (month.mpr newMonth))).1).2
    · intro sunday
      refine ⟨cascade.once,?_,?_,?_⟩
      · rw [week,cascade.week]
        simp [day]
      · rw [month,cascade.month,cascade.week]
        simpa [day] using sunday
      · rw [year,cascade.year,cascade.month,cascade.week]
        constructor
        · intro made
          exact made.2
        · intro newYear
          exact ⟨⟨⟨day,sunday (first newYear)⟩,first newYear⟩,newYear⟩

end

namespace Schedule

variable {offset : Int} {s s' : Schedule} {now : Int}

theorem step_cases (stepped : s.step offset now = some s') :
    s.self.throttled now = true ∧ s' = s ∨
      s.self.throttled now = false ∧ s.since ≤ now ∧ now < s.since + 3600 ∧
      s' = ⟨(s.self.Update offset now).2,now,
        s.passes ++ [⟨s.since,now,(s.self.Update offset now).1⟩]⟩ := by
  unfold step at stepped
  split at stepped
  next early => exact .inl ⟨early,(Option.some.inj stepped).symm⟩
  next passes =>
    split at stepped
    next brief =>
      exact .inr ⟨Bool.eq_false_iff.mpr passes,brief.1,brief.2,(Option.some.inj stepped).symm⟩
    next => cases stepped

/-- The hour that is remembered is the hour of the last time let through. -/
def Current (offset : Int) (s : Schedule) : Prop :=
  s.self._curr_hour = (localtime offset s.since).tm_hour

theorem current_start (offset now : Int) : (start offset now).Current offset := rfl

theorem current_step (current : s.Current offset) (stepped : s.step offset now = some s') :
    s'.Current offset := by
  rcases step_cases stepped with ⟨_,rfl⟩ | ⟨passes,_,_,rfl⟩
  · exact current
  · exact (Update_cascade passes).2

/-- The calls for the hour and the day so far are as many as hours and days have begun. -/
structure Counted (offset begun : Int) (s : Schedule) : Prop where
  current : s.Current offset
  le : begun ≤ s.since
  hours : (s.calls.count .newHour : Int) = clock offset s.since / 3600 - clock offset begun / 3600
  days : (s.calls.count .newDay : Int) = clock offset s.since / 86400 - clock offset begun / 86400

theorem counted_start (offset begun : Int) : (start offset begun).Counted offset begun :=
  ⟨current_start offset begun,Int.le_refl _,(Int.sub_self _).symm,(Int.sub_self _).symm⟩

theorem counted_step {begun : Int} (counted : s.Counted offset begun)
    (stepped : s.step offset now = some s') : s'.Counted offset begun := by
  have current := current_step counted.current stepped
  rcases step_cases stepped with ⟨_,rfl⟩ | ⟨passes,le,lt,rfl⟩
  · exact counted
  · obtain ⟨hours,days⟩ := hour_day passes counted.current le lt
    have calls : (⟨(s.self.Update offset now).2,now,
        s.passes ++ [⟨s.since,now,(s.self.Update offset now).1⟩]⟩ : Schedule).calls =
          s.calls ++ (s.self.Update offset now).1 := by
      simp [Schedule.calls]
    refine ⟨current,Int.le_trans counted.le le,?_,?_⟩
    · rw [calls,List.count_append,Int.natCast_add,hours,counted.hours]
      dsimp only
      omega
    · rw [calls,List.count_append,Int.natCast_add,days,counted.days]
      dsimp only
      omega

/-- As many calls for the hour as local hours have begun since the construction, and as many
for the day as local midnights have passed. -/
theorem hours_and_days (offset begun : Int) (times : List Int) (s : Schedule)
    (ran : Runs.run (step offset) (start offset begun) times = some s) :
    s.calls.count .newHour = borders 3600 (3600 * offset) begun s.since ∧
      s.calls.count .newDay = borders 86400 (3600 * offset) begun s.since := by
  obtain ⟨_,le,hours,days⟩ := Runs.run_pres (Counted offset begun)
    (fun _ _ _ counted stepped => counted_step counted stepped) (counted_start offset begun) ran
  have hours' := borders_eq (by decide : (0 : Int) < 3600) (3600 * offset) le
  have days' := borders_eq (by decide : (0 : Int) < 86400) (3600 * offset) le
  exact ⟨by exact_mod_cast hours.trans hours'.symm,by exact_mod_cast days.trans days'.symm⟩

/-- From the last of January to the first of February 1970, a Sunday, in Greenwich. -/
def toFebruary : List Int := [2678375,2678380,2678405,2680200]

theorem hours_and_days_february : ∃ s, Runs.run (step 0) (start 0 2678370) toFebruary = some s ∧
    borders 3600 (3600 * 0) 2678370 s.since = 1 ∧
    borders 86400 (3600 * 0) 2678370 s.since = 1 := by
  refine ⟨_,rfl,?_,?_⟩
  · rw [← (hours_and_days 0 2678370 toFebruary _ rfl).1]
    decide +kernel
  · rw [← (hours_and_days 0 2678370 toFebruary _ rfl).2]
    decide +kernel

/-- A month that begins before an `Update` is let through begins on a Sunday. -/
def Sundays (offset : Int) (s : Schedule) (now : Int) : Prop :=
  s.self.throttled now = false → Pass.Month offset ⟨s.since,now,[]⟩ →
    (localtime offset now).tm_wday = 0

instance (offset : Int) (s : Schedule) (now : Int) : Decidable (s.Sundays offset now) := by
  unfold Sundays
  infer_instance

/-- What is called for the week is always right; for the month and the year it is as long as
every month begins on a Sunday. -/
theorem months_on_sundays (offset begun : Int) (times : List Int) (s : Schedule)
    (ran : Runs.run (step offset) (start offset begun) times = some s) :
    (∀ p ∈ s.passes, p.Right offset) ↔
      Runs.Meets (step offset) (Sundays offset) (start offset begun) times := by
  apply Runs.good_iff_meets (fun s => s.Current offset ∧ ∀ p ∈ s.passes, p.Right offset)
    (fun s => ∀ p ∈ s.passes, p.Right offset) (fun s both => both.2) _ _ _ _ ran
  · rintro s now s' ⟨current,right⟩ sundays stepped
    refine ⟨current_step current stepped,?_⟩
    rcases step_cases stepped with ⟨_,rfl⟩ | ⟨passes,le,lt,rfl⟩
    · exact right
    · intro p member
      rcases List.mem_append.mp member with older | last
      · exact right p older
      · rw [List.mem_singleton.mp last]
        exact (right_iff passes current le lt).mpr (sundays passes)
  · intro s now s' stepped right
    rcases step_cases stepped with ⟨_,rfl⟩ | ⟨_,_,_,rfl⟩
    · exact right
    · exact fun p older => right p (List.mem_append_left _ older)
  · rintro s now s' ⟨current,_⟩ stepped right passes
    rcases step_cases stepped with ⟨early,rfl⟩ | ⟨_,le,lt,rfl⟩
    · cases early.symm.trans passes
    · exact (right_iff passes current le lt).mp
        (right _ (List.mem_append_right _ (List.mem_singleton_self _)))
  · exact ⟨current_start offset begun,fun p member => absurd member List.not_mem_nil⟩

theorem months_on_sundays_february : ∃ s, Runs.run (step 0) (start 0 2678370) toFebruary = some s ∧
    (∀ p ∈ s.passes, p.Right 0) ∧ (s.passes.map Pass.calls).getLast? = some [] ∧
    .newMonth ∈ s.calls := by
  refine ⟨_,rfl,(months_on_sundays 0 2678370 toFebruary _ rfl).mpr ?_,by decide +kernel,
    by decide +kernel⟩
  decide +kernel

/-- Over the midnight at which the year 1971 begins, on a Friday. -/
theorem new_year_missed : ∃ s, Runs.run (step 0) (start 0 31535970) [31535990,31536020] = some s ∧
    ∃ p ∈ s.passes, ¬ p.Right 0 := by
  refine ⟨_,rfl,⟨31535990,31536020,[.newHour,.newDay]⟩,by decide +kernel,?_⟩
  intro right
  have missed := right.year.mpr (by decide +kernel)
  exact absurd missed (by decide)

end Schedule

end Pworld.Scheduling
