import Mathlib.Data.List.Basic

/-! Streams cut into frames. A `Cutter` looks at the front of what has arrived:
it needs more, rejects for good, or takes one frame off. What it decides never
changes when more arrives, and from this every way of delivering a stream in
pieces gives the frames of the whole stream. -/
namespace Pworld.Framing

universe u v
variable {α : Type u} {β : Type v}

inductive Cut (α : Type u) (β : Type v) where
  | more
  | bad
  | frame (f : β) (rest : List α)

structure Cutter (α : Type u) (β : Type v) where
  cut : List α → Cut α β
  shorter : ∀ {xs f rest}, cut xs = .frame f rest → rest.length < xs.length
  frame_stable : ∀ {xs f rest} (ys : List α), cut xs = .frame f rest →
    cut (xs ++ ys) = .frame f (rest ++ ys)
  bad_stable : ∀ {xs} (ys : List α), cut xs = .bad → cut (xs ++ ys) = .bad

/-- What a stream has given so far: the frames, and the unfinished rest, or
`none` once it was rejected. -/
abbrev Parsed (α : Type u) (β : Type v) := List β × Option (List α)

variable (C : Cutter α β)

def parse (xs : List α) : Parsed α β :=
  match _cut : C.cut xs with
  | .more => ([],some xs)
  | .bad => ([],none)
  | .frame f rest => (f :: (parse rest).1,(parse rest).2)
termination_by xs.length
decreasing_by all_goals exact C.shorter _cut

variable {C}

theorem parse_more {xs : List α} (cut : C.cut xs = .more) : parse C xs = ([],some xs) := by
  rw [parse]
  split
  · rfl
  · next same => rw [cut] at same; cases same
  · next same => rw [cut] at same; cases same

theorem parse_bad {xs : List α} (cut : C.cut xs = .bad) : parse C xs = ([],none) := by
  rw [parse]
  split
  · next same => rw [cut] at same; cases same
  · rfl
  · next same => rw [cut] at same; cases same

theorem parse_frame {xs rest : List α} {f : β} (cut : C.cut xs = .frame f rest) :
    parse C xs = (f :: (parse C rest).1,(parse C rest).2) := by
  rw [parse]
  split
  · next same => rw [cut] at same; cases same
  · next same => rw [cut] at same; cases same
  · next same => rw [cut] at same; cases same; rfl

variable (C) in
/-- One more piece of the stream, given what the pieces before left over. -/
def absorb : Option (List α) → List α → Parsed α β
  | none, _ => ([],none)
  | some rest, ys => parse C (rest ++ ys)

theorem parse_append (xs ys : List α) :
    parse C (xs ++ ys) =
      ((parse C xs).1 ++ (absorb C (parse C xs).2 ys).1,(absorb C (parse C xs).2 ys).2) := by
  cases cut : C.cut xs with
  | more => simp [parse_more cut,absorb]
  | bad => simp [parse_bad cut,parse_bad (C.bad_stable ys cut),absorb]
  | frame f rest =>
    have shorter := C.shorter cut
    simp [parse_frame cut,parse_frame (C.frame_stable ys cut),parse_append rest ys]
termination_by xs.length

theorem absorb_append (before : Option (List α)) (xs ys : List α) :
    absorb C before (xs ++ ys) =
      ((absorb C before xs).1 ++ (absorb C (absorb C before xs).2 ys).1,
        (absorb C (absorb C before xs).2 ys).2) := by
  cases before with
  | none => rfl
  | some rest =>
    rw [absorb,← List.append_assoc]
    exact parse_append (rest ++ xs) ys

theorem parse_rest {xs rest : List α} (left : (parse C xs).2 = some rest) :
    C.cut rest = .more := by
  cases cut : C.cut xs with
  | more =>
    rw [parse_more cut] at left
    cases Option.some.inj left
    exact cut
  | bad => rw [parse_bad cut] at left; cases left
  | frame f after =>
    have shorter := C.shorter cut
    rw [parse_frame cut] at left
    exact parse_rest left
termination_by xs.length

theorem parse_prefix {xs ys : List α} (pre : xs <+: ys) : (parse C xs).1 <+: (parse C ys).1 := by
  obtain ⟨more,rfl⟩ := pre
  rw [parse_append]
  exact List.prefix_append _ _

/-- Every frame was cut off some stream. -/
theorem parse_mem {xs : List α} {f : β} (member : f ∈ (parse C xs).1) :
    ∃ ys rest, C.cut ys = .frame f rest := by
  cases cut : C.cut xs with
  | more => simp [parse_more cut] at member
  | bad => simp [parse_bad cut] at member
  | frame g rest =>
    have shorter := C.shorter cut
    rw [parse_frame cut] at member
    rcases List.mem_cons.mp member with rfl | later
    · exact ⟨xs,rest,cut⟩
    · exact parse_mem later
termination_by xs.length

variable (C) in
def absorbs : Option (List α) → List (List α) → Parsed α β
  | before,[] => ([],before)
  | before,piece::pieces =>
    ((absorb C before piece).1 ++ (absorbs (absorb C before piece).2 pieces).1,
      (absorbs (absorb C before piece).2 pieces).2)

variable (C) in
/-- Nothing is left that could be cut without more bytes. -/
def Settled : Option (List α) → Prop
  | none => True
  | some rest => C.cut rest = .more

theorem absorb_settled (before : Option (List α)) (piece : List α) :
    Settled C (absorb C before piece).2 := by
  cases before with
  | none => trivial
  | some rest =>
    cases left : (absorb C (some rest) piece).2 with
    | none => trivial
    | some after => exact parse_rest left

theorem absorb_nil {before : Option (List α)} (settled : Settled C before) :
    absorb C before [] = ([],before) := by
  cases before with
  | none => rfl
  | some rest =>
    rw [absorb,List.append_nil]
    exact parse_more settled

/-- However a stream is cut into pieces, they give what the whole stream gives. -/
theorem absorbs_flatten {before : Option (List α)} (settled : Settled C before)
    (pieces : List (List α)) : absorbs C before pieces = absorb C before pieces.flatten := by
  induction pieces generalizing before with
  | nil => exact (absorb_nil settled).symm
  | cons piece pieces ih =>
    rw [absorbs,List.flatten_cons,absorb_append,ih (absorb_settled before piece)]

end Pworld.Framing
