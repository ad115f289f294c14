import Pworld.Buffer.ByteBuffer
import Pworld.Support.Runs
import Mathlib.Data.List.TakeWhile

/-! A buffer as a queue of typed values: what lies between the cursors is always the
encodings of the values not yet read, one after the other. -/
namespace Pworld

open Net

inductive Width where
  | w8
  | w16
  | w32
  | w64
  deriving DecidableEq,Repr

def Width.bytes : Width → Nat
  | .w8 => 1
  | .w16 => 2
  | .w32 => 4
  | .w64 => 8

inductive Kind where
  | int (w : Width)
  | str
  | raw (size : Nat)
  deriving DecidableEq,Repr

inductive Item where
  | int (w : Width) (n : BitVec (8 * w.bytes))
  | str (s : Bytes)
  | raw (data : Bytes)
  deriving DecidableEq,Repr

namespace Item

def kind : Item → Kind
  | .int w _ => .int w
  | .str _ => .str
  | .raw data => .raw data.length

/-- What a successful write puts between the cursors. -/
def bytes : Item → Bytes
  | .int w n => Bytes.le w.bytes n.toNat
  | .str s => cstr s
  | .raw data => data

def Plain : Item → Prop
  | .str s => 0 ∉ s
  | _ => True

instance (item : Item) : Decidable item.Plain := by
  cases item <;> unfold Plain <;> infer_instance

end Item

/-- Kinds whose reads fail where there is nothing to read. -/
def Kind.Early : Kind → Prop
  | .int _ => True
  | .str => False
  | .raw size => size ≠ 0

instance (kind : Kind) : Decidable kind.Early := by
  cases kind <;> unfold Kind.Early <;> infer_instance

namespace ByteBuffer

/-- `<<` or `In` of a value, with what `In` answered. -/
def write (b : ByteBuffer) : Item → Bool × ByteBuffer
  | .int w n => b.In (Bytes.le w.bytes n.toNat)
  | .str s => b.In ((cstr s).take (u32 (cstr s).length))
  | .raw data => b.In data

def read (b : ByteBuffer) : Kind → Option Item × ByteBuffer
  | .int w => ((b.getInt w.bytes).1.map fun n => .int w (BitVec.ofNat _ n),(b.getInt w.bytes).2)
  | .str => (b.getStr.1.map .str,b.getStr.2)
  | .raw size => ((b.Out size).1.map .raw,(b.Out size).2)

example (b : ByteBuffer) (w : Width) (n : BitVec (8 * w.bytes)) (s : Bytes) :
    (b.write (.int w n)).2 = b.putInt w.bytes n.toNat ∧ (b.write (.str s)).2 = b.putStr s :=
  ⟨rfl,rfl⟩

theorem cstr_plain {s : Bytes} (plain : 0 ∉ s) : cstr s = s ++ [0] := by
  have all : s.takeWhile (· ≠ 0) = s := by
    apply List.takeWhile_eq_self_iff.mpr
    intro byte member
    simp only [decide_eq_true_eq]
    rintro rfl
    exact plain member
  rw [cstr,all]

/-- A write appends the whole encoding or does nothing, but for a string whose length is
no `uint32`. -/
theorem write_spec {b : ByteBuffer} (ok : b.Ok) (item : Item)
    (whole : ∀ s, item = .str s → (cstr s).length < 2^32 ∨ b.free < u32 (cstr s).length) :
    (∃ b', b.write item = (true,b') ∧ b'.Ok ∧ b'.readable = b.readable ++ item.bytes) ∨
      b.write item = (false,b) := by
  have append (data : Bytes) : (∃ b', b.In data = (true,b') ∧ b'.Ok ∧
      b'.readable = b.readable ++ data) ∨ b.In data = (false,b) := by
    by_cases space : data.length ≤ b.size - b.wrPtr
    · obtain ⟨b',done,ok',readable,_⟩ := in_spec ok space
      exact .inl ⟨b',done,ok',readable⟩
    · exact .inr (in_short ok (by omega))
  cases item with
  | int w n => exact append _
  | raw data => exact append _
  | str s =>
    rcases whole s rfl with small | full
    · have same : u32 (cstr s).length = (cstr s).length := Nat.mod_eq_of_lt small
      rw [write,same,List.take_length]
      exact append _
    · have cut : u32 (cstr s).length ≤ (cstr s).length := Nat.mod_le _ _
      rw [free_eq ok] at full
      exact .inr (in_short ok (by rw [List.length_take]; omega))

theorem out_item {b : ByteBuffer} (ok : b.Ok) {data rest : Bytes}
    (first : b.readable = data ++ rest) :
    ∃ b', b.Out data.length = (some data,b') ∧ b'.Ok ∧ b'.readable = rest := by
  have length := readable_length ok
  rw [first,List.length_append] at length
  refine ⟨_,?_,advance_ok ok (n := data.length) (by omega) b.stray,?_⟩
  · rw [out_spec ok (by rw [first,List.length_append]; omega),first,List.take_left]
  · rw [readable_advance b (by omega),first,List.drop_left]

/-- The first value not yet read comes back as it was written. -/
theorem read_spec {b : ByteBuffer} (ok : b.Ok) {item : Item} {rest : Bytes} (plain : item.Plain)
    (first : b.readable = item.bytes ++ rest) :
    ∃ b', b.read item.kind = (some item,b') ∧ b'.Ok ∧ b'.readable = rest := by
  cases item with
  | int w n =>
    obtain ⟨b',done,ok',readable⟩ := out_item ok first
    rw [Item.bytes,Bytes.le_length] at done
    refine ⟨b',?_,ok',readable⟩
    have fits : n.toNat < 256^w.bytes := by
      have power : 256^w.bytes = 2^(8 * w.bytes) := by
        rw [Nat.pow_mul]
      rw [power]
      exact n.isLt
    rw [Item.kind,read,getInt,done,Option.map_some,Option.map_some,Bytes.ofLe_le_of_lt fits,
      BitVec.ofNat_toNat,BitVec.setWidth_eq]
  | str s =>
    have plain : 0 ∉ s := plain
    have ends : b.readable = s ++ 0 :: rest := by
      rw [first,Item.bytes,cstr_plain plain,List.append_assoc,List.singleton_append]
    have length := readable_length ok
    rw [ends,List.length_append,List.length_cons] at length
    refine ⟨_,?_,advance_ok ok (by omega : s.length + 1 ≤ _) b.stray,?_⟩
    · rw [Item.kind,read,getStr_spec ok plain ends]
      rfl
    · rw [readable_advance b (by omega),ends,List.append_cons,List.drop_left' (by simp)]
  | raw data =>
    obtain ⟨b',done,ok',readable⟩ := out_item ok first
    refine ⟨b',?_,ok',readable⟩
    rw [Item.bytes] at done
    rw [Item.kind,read,done]
    rfl

theorem read_early {b : ByteBuffer} (ok : b.Ok) (empty : b.readable = []) {kind : Kind}
    (early : kind.Early) : b.read kind = (none,b) := by
  have short {size : Nat} (some_ : size ≠ 0) : b.Out size = (none,b) :=
    out_short ok (by rw [empty]; exact Nat.pos_of_ne_zero some_)
  cases kind with
  | int w =>
    rw [read,getInt,short (by cases w <;> decide)]
    rfl
  | str => exact early.elim
  | raw size =>
    rw [read,short early]
    rfl

end ByteBuffer

/-- A buffer, the values of the writes that succeeded and those of the reads. -/
structure Typed where
  bb : ByteBuffer
  written : List Item
  got : List Item
  deriving DecidableEq

inductive TypedOp where
  | write (item : Item)
  | read (kind : Kind)
  deriving DecidableEq

namespace Typed

/-- The next value has this kind, or there is none yet and the read will fail. -/
def Due (s : Typed) (kind : Kind) : Prop :=
  match s.written[s.got.length]? with
  | some item => item.kind = kind
  | none => kind.Early

instance (s : Typed) (kind : Kind) : Decidable (s.Due kind) := by
  unfold Due
  split <;> infer_instance

def step (s : Typed) : TypedOp → Option Typed
  | .write item =>
    if item.Plain then
      some ⟨(s.bb.write item).2,
        if (s.bb.write item).1 then s.written ++ [item] else s.written,s.got⟩
    else none
  | .read kind =>
    if s.Due kind then
      some ⟨(s.bb.read kind).2,s.written,s.got ++ (s.bb.read kind).1.toList⟩
    else none

/-- The queue law, and that a failed `In` or `Out` leaves the buffer as it was. -/
structure Lawful (s : Typed) : Prop where
  order : s.got <+: s.written
  failedIn : ∀ data, (s.bb.In data).1 = false → (s.bb.In data).2 = s.bb
  failedOut : ∀ size, (s.bb.Out size).1 = none → (s.bb.Out size).2 = s.bb
  drained : s.got = s.written → s.bb.avail = 0

/-- A string that is written has a length that `uint32` holds, or does not fit even so. -/
def Whole (s : Typed) : TypedOp → Prop
  | .write (.str str) => (cstr str).length < 2^32 ∨ s.bb.free < u32 (cstr str).length
  | _ => True

instance (s : Typed) (op : TypedOp) : Decidable (s.Whole op) := by
  unfold Whole
  split <;> infer_instance

/-- Between the cursors lie the encodings of the values not yet read. -/
structure Holds (s : Typed) : Prop where
  ok : s.bb.Ok
  unread : ∃ items, s.written = s.got ++ items ∧ s.bb.readable = items.flatMap Item.bytes ∧
    ∀ item ∈ items, item.Plain

theorem step_holds {s s' : Typed} {op : TypedOp} (holds : s.Holds) (whole : s.Whole op)
    (stepped : step s op = some s') : s'.Holds := by
  obtain ⟨ok,items,split,readable,plain⟩ := holds
  cases op with
  | write item =>
    rw [step,Option.ite_none_right_eq_some] at stepped
    obtain ⟨itemPlain,same⟩ := stepped
    cases Option.some.inj same
    have done := ByteBuffer.write_spec ok item (by
      rintro str rfl
      exact whole)
    rcases done with ⟨b',done,ok',readable'⟩ | failed
    · rw [done]
      refine ⟨ok',items ++ [item],?_,?_,?_⟩
      · rw [if_pos rfl,split,List.append_assoc]
      · rw [readable',readable,List.flatMap_append,List.flatMap_singleton]
      · intro other member
        rcases List.mem_append.mp member with old | new
        · exact plain other old
        · rw [List.mem_singleton.mp new]
          exact itemPlain
    · rw [failed]
      exact ⟨ok,items,split,readable,plain⟩
  | read kind =>
    rw [step,Option.ite_none_right_eq_some] at stepped
    obtain ⟨due,same⟩ := stepped
    cases Option.some.inj same
    rw [Due,split,List.getElem?_append_right (Nat.le_refl _),Nat.sub_self] at due
    cases items with
    | nil =>
      rw [ByteBuffer.read_early ok readable due]
      exact ⟨ok,[],by rw [split]; simp,readable,plain⟩
    | cons item items =>
      cases due
      obtain ⟨b',done,ok',readable'⟩ := ByteBuffer.read_spec ok (plain item (.head _)) readable
      rw [done]
      refine ⟨ok',items,?_,readable',fun other member => plain other (.tail _ member)⟩
      rw [split,Option.toList_some,List.append_assoc,List.singleton_append]

theorem holds_lawful {s : Typed} (holds : s.Holds) : s.Lawful := by
  obtain ⟨ok,items,split,readable,plain⟩ := holds
  constructor
  · exact ⟨items,split.symm⟩
  · intro data failed
    unfold ByteBuffer.In at failed ⊢
    split_ifs at failed ⊢
    rfl
  · intro size failed
    unfold ByteBuffer.Out at failed ⊢
    split_ifs at failed ⊢
    rfl
  · intro all
    rw [all] at split
    rw [ByteBuffer.avail_readable ok,readable,List.self_eq_append_right.mp split]
    rfl

theorem typed_queue {b : ByteBuffer} (ok : b.Ok) (empty : b.readable = []) (ops : List TypedOp)
    (whole : Runs.Meets step Whole ⟨b,[],[]⟩ ops) : Runs.Always step Lawful ⟨b,[],[]⟩ ops :=
  Runs.always_of_meets Holds Lawful (fun _ => holds_lawful)
    (fun _ _ _ holds whole stepped => step_holds holds whole stepped)
    ⟨ok,[],rfl,empty,fun _ member => absurd member List.not_mem_nil⟩ whole

/-- The third write does not fit, and the first read comes too early. -/
theorem typed_queue_mixed : Runs.Always step Lawful ⟨.new 8 (some (List.replicate 8 0)),[],[]⟩
    [.read (.int .w32),.write (.int .w32 5),.write (.str [104,105]),.write (.raw [1,2,3]),
      .write (.int .w8 7),.read (.int .w32),.read .str,.read (.int .w8)] :=
  typed_queue (by decide) (by decide) _ (by decide +kernel)

/-- Of a string of this length nothing is written, and `In` reports success. -/
theorem write_wraps (b : ByteBuffer) {s : Bytes} (plain : 0 ∉ s) (length : s.length + 1 = 2^32) :
    b.write (.str s) = b.In [] := by
  have count : u32 (cstr s).length = 0 := by
    rw [ByteBuffer.cstr_plain plain,List.length_append,List.length_singleton,length]
    rfl
  rw [ByteBuffer.write,count,List.take_zero]

def narrow : ByteBuffer := .new 4 (some [0,0,0,0])

theorem typed_queue_wraps : ¬Runs.Always step Lawful ⟨narrow,[],[]⟩
    [.write (.str (List.replicate (2^32-1) 97)),.write (.str [98]),.read .str] := by
  have plain : 0 ∉ List.replicate (2^32-1) (97 : UInt8) := fun member =>
    absurd (List.eq_of_mem_replicate member) (by decide)
  have length := List.length_replicate (n := 2^32-1) (a := (97 : UInt8))
  generalize List.replicate (2^32-1) (97 : UInt8) = s at plain length
  have wraps : narrow.write (.str s) = (true,narrow) := by
    rw [write_wraps narrow plain (by omega)]
    decide
  have wrote : (narrow.write (.str [98])).1 = true := by decide +kernel
  have came : ((narrow.write (.str [98])).2.read .str).1 = some (.str [98]) := by decide +kernel
  have first : step ⟨narrow,[],[]⟩ (.write (.str s)) = some ⟨narrow,[.str s],[]⟩ := by
    rw [step,if_pos (show (Item.str s).Plain from plain),wraps]
    rfl
  have second : step ⟨narrow,[.str s],[]⟩ (.write (.str [98])) =
      some ⟨(narrow.write (.str [98])).2,[.str s,.str [98]],[]⟩ := by
    rw [step,if_pos (by decide),wrote]
    rfl
  have third : step ⟨(narrow.write (.str [98])).2,[.str s,.str [98]],[]⟩ (.read .str) =
      some ⟨((narrow.write (.str [98])).2.read .str).2,[.str s,.str [98]],[.str [98]]⟩ := by
    have due : Due ⟨(narrow.write (.str [98])).2,[.str s,.str [98]],[]⟩ .str :=
      (rfl : (Item.str s).kind = .str)
    rw [step,if_pos due,came]
    rfl
  have ran : Runs.run step ⟨narrow,[],[]⟩ [.write (.str s),.write (.str [98]),.read .str] =
      some ⟨((narrow.write (.str [98])).2.read .str).2,[.str s,.str [98]],[.str [98]]⟩ := by
    rw [Runs.run_cons,first,Option.bind_some,Runs.run_cons,second,Option.bind_some,Runs.run_cons,third]
    rfl
  intro always
  obtain ⟨_,same⟩ := (always.last ran).order
  have head : s = [98] := (Item.str.inj (List.head_eq_of_cons_eq same)).symm
  rw [head] at length
  cases length

end Typed

end Pworld
