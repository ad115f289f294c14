import Pworld.Buffer.ByteBuffer
import Pworld.Support.Runs

/-! Any number of buffers under any operations: exactly which steps keep the cursors
of all of them in order and every access inside their memory. -/
namespace Pworld

open Net

inductive BufferOp where
  | In (data : Bytes)
  | Out (size : Nat)
  | putInt (w n : Nat)
  | getInt (w : Nat)
  | putStr (str : Bytes)
  | getStr
  | readOffset (offset : Int)
  | writeOffset (offset : Int)
  | reset
  | resize (size : Nat) (fresh : Option Bytes)
  | Attach (packet : Message)
  | Detach
  deriving DecidableEq

namespace BufferOp

def apply (b : ByteBuffer) : BufferOp → ByteBuffer
  | .In data => (b.In data).2
  | .Out size => (b.Out size).2
  | .putInt w n => b.putInt w n
  | .getInt w => (b.getInt w).2
  | .putStr str => b.putStr str
  | .getStr => b.getStr.2
  | .readOffset offset => b.readOffset offset
  | .writeOffset offset => b.writeOffset offset
  | .reset => b.reset
  | .resize size fresh => b.resize size fresh
  | .Attach packet => (b.Attach packet).2
  | .Detach => b.Detach

/-- The arguments are of their types, and a block has the length it was asked for. -/
def Valid : BufferOp → Prop
  | .readOffset offset | .writeOffset offset => -2^31 ≤ offset ∧ offset < 2^31
  | .resize size fresh => size < 2^32 ∧ ∀ mem ∈ fresh, mem.length = size
  | _ => True

/-- When an operation leaves a good buffer good. -/
def Keeps (b : ByteBuffer) : BufferOp → Prop
  | .getStr => b.terminator.isSome = true
  | .writeOffset offset =>
    (0 < offset → b.wrPtr + offset < 2^32 ∨ b.rdPtr ≤ b.wrPtr + offset - 2^32) ∧
    (offset < 0 → 2^31 ≤ b.rdPtr → 2^31 ≤ b.wrPtr + offset)
  | .resize size fresh => b.attach = false → b.size < size → fresh.isSome = true
  | .Attach _ => b.size ≠ 0 ∨ b.attach = true
  | _ => True

instance (op : BufferOp) : Decidable op.Valid := by
  cases op <;> unfold Valid <;> infer_instance

instance (b : ByteBuffer) (op : BufferOp) : Decidable (op.Keeps b) := by
  cases op <;> unfold Keeps <;> infer_instance

end BufferOp

namespace ByteBuffer

/-- In order, and nothing outside the memory touched so far. -/
def Good (b : ByteBuffer) : Prop := b.Ok ∧ b.stray = false

instance (b : ByteBuffer) : Decidable b.Good := inferInstanceAs (Decidable (_ ∧ _))

theorem in_good {b : ByteBuffer} (good : b.Good) (data : Bytes) : (b.In data).2.Good := by
  obtain ⟨ok,clean⟩ := good
  by_cases le : data.length ≤ b.size - b.wrPtr
  · obtain ⟨b',ran,ok',_,_,_,_,stray⟩ := in_spec ok le
    rw [ran]
    exact ⟨ok',stray.trans clean⟩
  · rw [in_short ok (by omega)]
    exact ⟨ok,clean⟩

theorem out_good {b : ByteBuffer} (good : b.Good) (size : Nat) : (b.Out size).2.Good := by
  obtain ⟨ok,clean⟩ := good
  by_cases le : size ≤ b.readable.length
  · rw [out_spec ok le]
    rw [readable_length ok] at le
    exact ⟨advance_ok ok le b.stray,clean⟩
  · rw [out_short ok (by omega)]
    exact ⟨ok,clean⟩

theorem getStr_good {b : ByteBuffer} (good : b.Good) :
    b.getStr.2.Good ↔ b.terminator.isSome = true := by
  obtain ⟨ok,clean⟩ := good
  unfold getStr
  cases b.terminator with
  | none => simp [Good]
  | some n =>
    simp only [Option.isSome_some,iff_true]
    split
    · exact ⟨ok,clean⟩
    next le =>
      obtain ⟨order,within,word,fits,small⟩ := ok
      exact ⟨⟨by simp only; omega,within,word,fits,small⟩,clean⟩

theorem toUInt32_eq (n : Int) : (toUInt32 n : Int) = n % 2^32 := by
  unfold toUInt32
  omega

theorem readOffset_good {b : ByteBuffer} (good : b.Good) {offset : Int}
    (valid : -2^31 ≤ offset ∧ offset < 2^31) : (b.readOffset offset).Good := by
  obtain ⟨⟨order,within,word,fits,small⟩,clean⟩ := good
  have wrapped := toUInt32_eq (b.rdPtr + offset)
  unfold readOffset
  split_ifs with forward test backward test
  · exact ⟨⟨test,within,word,fits,small⟩,clean⟩
  · exact ⟨⟨order,within,word,fits,small⟩,clean⟩
  · refine ⟨⟨?_,within,word,fits,small⟩,clean⟩
    simp only [toInt32] at test ⊢
    omega
  · exact ⟨⟨order,within,word,fits,small⟩,clean⟩
  · exact ⟨⟨order,within,word,fits,small⟩,clean⟩

/-- Past 2 GiB the two comparisons of `WriteOffset` no longer order the cursors. -/
theorem writeOffset_good {b : ByteBuffer} (good : b.Good) {offset : Int}
    (valid : -2^31 ≤ offset ∧ offset < 2^31) :
    (b.writeOffset offset).Good ↔ (BufferOp.writeOffset offset).Keeps b := by
  obtain ⟨⟨order,within,word,fits,small⟩,clean⟩ := good
  have wrapped := toUInt32_eq (b.wrPtr + offset)
  unfold writeOffset BufferOp.Keeps
  split_ifs with forward test backward test
  · constructor
    · rintro ⟨⟨order',_,_,_,_⟩,_⟩
      simp only at order'
      omega
    · intro keeps
      refine ⟨⟨?_,test,word,fits,small⟩,clean⟩
      simp only
      omega
  · apply iff_of_true ⟨⟨order,within,word,fits,small⟩,clean⟩
    omega
  · simp only [toInt32] at test
    constructor
    · rintro ⟨⟨order',_,_,_,_⟩,_⟩
      simp only at order'
      omega
    · intro keeps
      refine ⟨⟨?_,?_,word,fits,small⟩,clean⟩
      · simp only
        omega
      · simp only
        omega
  · apply iff_of_true ⟨⟨order,within,word,fits,small⟩,clean⟩
    simp only [toInt32] at test
    omega
  · apply iff_of_true ⟨⟨order,within,word,fits,small⟩,clean⟩
    omega

theorem resize_good {b : ByteBuffer} (good : b.Good) {size : Nat} {fresh : Option Bytes}
    (valid : size < 2^32 ∧ ∀ mem ∈ fresh, mem.length = size) :
    (b.resize size fresh).Good ↔ (BufferOp.resize size fresh).Keeps b := by
  have old := load_length good.1.fits
  obtain ⟨⟨order,within,word,fits,small⟩,clean⟩ := good
  unfold resize BufferOp.Keeps
  split
  next same =>
    refine iff_of_true ⟨⟨order,within,word,fits,small⟩,clean⟩ fun owned more => ?_
    rcases same with attached | le
    · rw [owned] at attached
      cases attached
    · omega
  next grows =>
    simp only [not_or,Bool.not_eq_true,not_le] at grows
    obtain ⟨owned,more⟩ := grows
    cases fresh with
    | none =>
      refine iff_of_false ?_ fun keeps => by cases keeps owned more
      rintro ⟨⟨_,_,_,fits',_⟩,_⟩
      simp only [inside_iff,Option.map_none] at fits'
      omega
    | some mem =>
      have length := valid.2 mem rfl
      refine iff_of_true ⟨⟨order,?_,valid.1,?_,?_⟩,clean⟩ fun _ _ => rfl
      · simp only
        omega
      · simp only [inside_iff,Option.map_some,List.length_append,List.length_take,
          List.length_drop]
        omega
      · intro block here
        cases Option.some.inj here
        simp only [List.length_append,List.length_take,List.length_drop]
        omega

/-- The capacity of an attached buffer counts the two bytes before its base. -/
theorem attach_good {b : ByteBuffer} (good : b.Good) (packet : Message) :
    (b.Attach packet).2.Good ↔ (BufferOp.Attach packet).Keeps b := by
  unfold Attach BufferOp.Keeps
  split
  next refused => exact iff_of_true good refused
  next taken =>
    refine iff_of_false ?_ taken
    rintro ⟨⟨_,_,_,fits,_⟩,_⟩
    have alloc := packet.ok.alloc
    simp only [inside_iff,Message.packetData] at fits
    omega

theorem apply_good {b : ByteBuffer} (good : b.Good) {op : BufferOp} (valid : op.Valid) :
    (op.apply b).Good ↔ op.Keeps b := by
  cases op with
  | In data => exact iff_of_true (in_good good data) trivial
  | Out size => exact iff_of_true (out_good good size) trivial
  | putInt w n => exact iff_of_true (in_good good _) trivial
  | getInt w => exact iff_of_true (out_good good w) trivial
  | putStr str => exact iff_of_true (in_good good _) trivial
  | getStr => exact getStr_good good
  | readOffset offset => exact iff_of_true (readOffset_good good valid) trivial
  | writeOffset offset => exact writeOffset_good good valid
  | reset =>
    obtain ⟨⟨order,within,word,fits,small⟩,clean⟩ := good
    exact iff_of_true ⟨⟨Nat.le_refl 0,Nat.zero_le _,word,fits,small⟩,clean⟩ trivial
  | resize size fresh => exact resize_good good valid
  | Attach packet => exact attach_good good packet
  | Detach =>
    refine iff_of_true ⟨⟨Nat.le_refl 0,Nat.le_refl 0,Nat.two_pow_pos 32,rfl,?_⟩,good.2⟩ trivial
    intro _ here
    cases here

theorem new_good {size : Nat} {fresh : Option Bytes} (word : size < 2^32)
    (length : ∀ mem ∈ fresh, mem.length = size) :
    (new size fresh).Good ↔ (size ≠ 0 → fresh.isSome = true) := by
  unfold new
  cases fresh with
  | none =>
    constructor
    · rintro ⟨⟨_,_,_,fits,_⟩,_⟩ nonzero
      simp only [inside_iff,if_neg nonzero,Option.map_none] at fits
      exact absurd fits nonzero
    · intro keeps
      have zero : size = 0 := Decidable.byContradiction fun nonzero => by cases keeps nonzero
      subst zero
      exact ⟨⟨Nat.le_refl 0,Nat.le_refl 0,word,rfl,by simp⟩,rfl⟩
  | some mem =>
    have whole := length mem rfl
    refine iff_of_true ⟨⟨Nat.le_refl 0,Nat.zero_le _,word,?_,?_⟩,rfl⟩ fun _ => rfl
    · rw [inside_iff]
      by_cases zero : size = 0
      · simp [zero]
      · simp [zero,whole]
    · intro block here
      by_cases zero : size = 0
      · simp [zero] at here
      · rw [if_neg zero] at here
        cases Option.some.inj here
        rwa [whole]

/-- Both sides of a move are good exactly when there was nothing to move. -/
theorem move_good {b rval : ByteBuffer} (clean : b.stray = false) (good : rval.Good) :
    (b.moveFrom rval).Good ∧ (rval.moved.Good ↔ rval.size = 0) := by
  obtain ⟨⟨order,within,word,fits,small⟩,clean'⟩ := good
  refine ⟨⟨⟨order,within,word,fits,small⟩,clean⟩,?_⟩
  constructor
  · rintro ⟨⟨_,_,_,left,_⟩,_⟩
    exact (inside_iff _ _ _).mp left
  · intro zero
    exact ⟨⟨order,within,word,(inside_iff _ _ _).mpr zero,by simp [moved]⟩,clean'⟩

end ByteBuffer

inductive BuffersOp where
  | construct (size : Nat) (fresh : Option Bytes)
  | destruct (i : Nat)
  | moveConstruct (j : Nat) (attach : Bool)
  | moveAssign (i j : Nat)
  | on (i : Nat) (op : BufferOp)
  deriving DecidableEq

/-- All buffers constructed so far, in their order; `none` once destroyed. -/
structure Buffers where
  slots : List (Option ByteBuffer)
  deriving DecidableEq

namespace Buffers

def get (s : Buffers) (i : Nat) : Option ByteBuffer := (s.slots[i]?).join

def set (s : Buffers) (i : Nat) (b : Option ByteBuffer) : Buffers := ⟨s.slots.set i b⟩

def step (s : Buffers) : BuffersOp → Option Buffers
  | .construct size fresh =>
    if size < 2^32 ∧ ∀ mem ∈ fresh, mem.length = size then
      some ⟨s.slots ++ [some (.new size fresh)]⟩
    else none
  | .destruct i => (s.get i).map fun _ => s.set i none
  | .moveConstruct j attach => (s.get j).map fun rval =>
      ⟨(s.set j rval.moved).slots ++ [some ((ByteBuffer.uninit attach).moveFrom rval)]⟩
  -- the target is written first, so that a buffer moved to itself loses its memory too
  | .moveAssign i j =>
    match s.get i,s.get j with
    | some b,some rval =>
      let s := s.set i (b.moveFrom rval)
      (s.get j).map fun rval => s.set j rval.moved
    | _,_ => none
  | .on i op =>
    if op.Valid then (s.get i).map fun b => s.set i (op.apply b) else none

/-- Which steps keep every buffer good. -/
def Sound (s : Buffers) : BuffersOp → Prop
  | .construct size fresh => size ≠ 0 → fresh.isSome = true
  | .destruct _ => True
  | .moveConstruct j _ => ∀ rval ∈ s.get j, rval.size = 0
  | .moveAssign _ j => ∀ rval ∈ s.get j, rval.size = 0
  | .on i op => ∀ b ∈ s.get i, op.Keeps b

def Good (s : Buffers) : Prop := ∀ b, some b ∈ s.slots → b.Good

instance (s : Buffers) : Decidable s.Good :=
  decidable_of_iff (∀ o ∈ s.slots, ∀ b ∈ o, b.Good)
    ⟨fun all b member => all _ member b rfl,fun all _ member b here => all b (here ▸ member)⟩

instance (s : Buffers) (op : BuffersOp) : Decidable (s.Sound op) := by
  cases op <;> unfold Sound <;> infer_instance

theorem get_some {s : Buffers} {i : Nat} {b : ByteBuffer} :
    s.get i = some b ↔ s.slots[i]? = some (some b) := by
  unfold get
  cases s.slots[i]? with
  | none => simp
  | some o => simp

theorem get_mem {s : Buffers} {i : Nat} {b : ByteBuffer} (got : s.get i = some b) :
    some b ∈ s.slots := List.mem_of_getElem? (get_some.mp got)

theorem get_bound {s : Buffers} {i : Nat} {b : ByteBuffer} (got : s.get i = some b) :
    i < s.slots.length := (List.getElem?_eq_some_iff.mp (get_some.mp got)).1

theorem set_good {s : Buffers} (good : s.Good) {i : Nat} (bound : i < s.slots.length)
    {c : Option ByteBuffer} : (s.set i c).Good ↔ ∀ d ∈ c, d.Good := by
  constructor
  · rintro all d rfl
    exact all d (List.mem_set bound _)
  · intro new d member
    rcases List.mem_or_eq_of_mem_set member with old | same
    · exact good d old
    · exact new d same.symm

theorem append_good {s : Buffers} {b : ByteBuffer} :
    (⟨s.slots ++ [some b]⟩ : Buffers).Good ↔ s.Good ∧ b.Good := by
  constructor
  · intro all
    exact ⟨fun d member => all d (List.mem_append_left _ member),
      all b (List.mem_append_right _ (List.mem_singleton.mpr rfl))⟩
  · rintro ⟨old,new⟩ d member
    rcases List.mem_append.mp member with before | last
    · exact old d before
    · cases List.mem_singleton.mp last
      exact new

theorem moveAssign_good {s s' : Buffers} {i j : Nat} (good : s.Good)
    (stepped : s.step (.moveAssign i j) = some s') : s'.Good ↔ s.Sound (.moveAssign i j) := by
  simp only [step] at stepped
  split at stepped
  next b rval target source =>
    obtain ⟨last,got,same⟩ := Option.map_eq_some_iff.mp stepped
    have bound := get_bound target
    obtain ⟨taken,left⟩ := ByteBuffer.move_good (good b (get_mem target)).2
      (good rval (get_mem source))
    have good' : (s.set i (b.moveFrom rval)).Good :=
      (set_good good bound).mpr fun d here => Option.some.inj here ▸ taken
    -- the second half empties whatever is at `j` now, the target itself if `i = j`
    have size : last.size = rval.size := by
      rw [get_some] at got source
      simp only [set,List.getElem?_set] at got
      split at got
      · rw [← Option.some.inj (Option.some.inj got)]
        rfl
      · rw [source] at got
        rw [Option.some.inj (Option.some.inj got)]
    rw [← same,set_good good' (get_bound got)]
    have emptied := (ByteBuffer.move_good (b := last) (good' last (get_mem got)).2
      (good' last (get_mem got))).2
    simp only [Option.mem_some_iff,forall_eq',emptied,size,Sound,source]
  next => cases stepped

theorem step_good {s s' : Buffers} {op : BuffersOp} (good : s.Good)
    (stepped : s.step op = some s') : s'.Good ↔ s.Sound op := by
  cases op with
  | construct size fresh =>
    simp only [step] at stepped
    split_ifs at stepped with valid
    cases Option.some.inj stepped
    rw [append_good,ByteBuffer.new_good valid.1 valid.2]
    exact and_iff_right good
  | destruct i =>
    obtain ⟨b,got,same⟩ := Option.map_eq_some_iff.mp stepped
    rw [← same,set_good good (get_bound got)]
    simp [Sound]
  | moveConstruct j attach =>
    obtain ⟨rval,got,same⟩ := Option.map_eq_some_iff.mp stepped
    have move := ByteBuffer.move_good (b := .uninit attach) rfl (good rval (get_mem got))
    rw [← same,append_good,set_good good (get_bound got)]
    simp only [Option.mem_some_iff,forall_eq',move,and_true,Sound,got]
  | moveAssign i j => exact moveAssign_good good stepped
  | on i op =>
    simp only [step] at stepped
    split_ifs at stepped with valid
    obtain ⟨b,got,same⟩ := Option.map_eq_some_iff.mp stepped
    rw [← same,set_good good (get_bound got)]
    simp only [Option.mem_some_iff,forall_eq',Sound,got]
    exact ByteBuffer.apply_good (good b (get_mem got)) valid

/-- Every live buffer is good in every state of a run exactly when no step attaches,
moves a buffer with a capacity, extracts an unterminated string, wraps
`WriteOffset` or goes on after a failed allocation. -/
theorem buffers_good (ops : List BuffersOp) (s : Buffers)
    (ran : Runs.run step ⟨[]⟩ ops = some s) :
    Runs.Always step Good ⟨[]⟩ ops ↔ Runs.Meets step Sound ⟨[]⟩ ops :=
  Runs.always_iff_meets Good (fun _ _ _ good stepped => step_good good stepped)
    (fun _ member => absurd member List.not_mem_nil) ran

/-- A packet of sixteen bytes, attached to an empty buffer. -/
def attachPacket : List BuffersOp :=
  [.construct 0 none,.on 0 (.Attach (((Message.new 100).reset 16 (by decide)).fill
    (List.replicate 16 7)).1)]

/-- A buffer that is moved from and then written to. -/
def movedFrom : List BuffersOp :=
  [.construct 8 (some (List.replicate 8 0)),.moveConstruct 0 false,.on 0 (.putInt 4 1)]

/-- A string that nothing ends. -/
def unterminated : List BuffersOp :=
  [.construct 4 (some [1,2,3,4]),.on 0 (.In [5,6,7,8]),.on 0 .getStr]

theorem buffers_leave_memory :
    (∃ s, Runs.run step ⟨[]⟩ attachPacket = some s ∧ ¬ s.Good) ∧
    (∃ s, Runs.run step ⟨[]⟩ movedFrom = some s ∧ ¬ s.Good) ∧
    ∃ s, Runs.run step ⟨[]⟩ unterminated = some s ∧ ¬ s.Good := by
  have bad {ops : List BuffersOp}
      (ran : (Runs.run step ⟨[]⟩ ops).map (fun s => decide s.Good) = some false) :
      ∃ s, Runs.run step ⟨[]⟩ ops = some s ∧ ¬ s.Good := by
    obtain ⟨s,ran,not_⟩ := Option.map_eq_some_iff.mp ran
    exact ⟨s,ran,of_decide_eq_false not_⟩
  exact ⟨bad (by decide +kernel),bad (by decide +kernel),bad (by decide +kernel)⟩

/-- Written, moved while empty, grown and read back. -/
def ordinary : List BuffersOp :=
  [.construct 0 none,.moveConstruct 0 true,.on 0 (.resize 8 (some (List.replicate 8 0))),
    .on 0 (.putInt 4 1),.on 0 (.putStr [65,66]),.on 0 (.getInt 4),.on 0 .getStr,
    .on 0 (.writeOffset (-7)),.on 0 .reset,.destruct 0]

theorem buffers_good_ordinary : Runs.Always step Good ⟨[]⟩ ordinary := by
  have done : (Runs.run step ⟨[]⟩ ordinary).isSome = true := by decide +kernel
  have sound : Runs.Meets step Sound ⟨[]⟩ ordinary := by decide +kernel
  obtain ⟨s,ran⟩ := Option.isSome_iff_exists.mp done
  exact (buffers_good ordinary s ran).mpr sound

end Buffers

end Pworld
