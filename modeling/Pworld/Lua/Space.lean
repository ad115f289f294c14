import Pworld.Lua.Faithful

/-! Which encodings are reported as written. `Serialize` does not look at what its `<<`
operations did, so a buffer that is too small loses some of them in silence. -/
namespace Pworld.Lua

open Net

/-- `bb'` came from `bb` by writes, of which some may have failed. -/
structure Extends (bb' bb : ByteBuffer) : Prop where
  ok : bb'.Ok
  rdPtr : bb'.rdPtr = bb.rdPtr
  size : bb'.size = bb.size

theorem Extends.trans {a b c : ByteBuffer} (later : Extends c b) (earlier : Extends b a) :
    Extends c a :=
  ⟨later.ok,later.rdPtr.trans earlier.rdPtr,later.size.trans earlier.size⟩

theorem in_extends {bb : ByteBuffer} (ok : bb.Ok) (data : Bytes) : Extends (bb.In data).2 bb := by
  by_cases space : data.length ≤ bb.size - bb.wrPtr
  · obtain ⟨bb',same,ok',_,rdPtr,_,size,_⟩ := ByteBuffer.in_spec ok space
    rw [same]
    exact ⟨ok',rdPtr,size⟩
  · rw [ByteBuffer.in_short ok (by omega)]
    exact ⟨ok,rfl,rfl⟩

theorem puts_extend {bb : ByteBuffer} (ok : bb.Ok) (puts : List Put) :
    Extends (puts.foldl Put.run bb) bb := by
  induction puts generalizing bb with
  | nil => exact ⟨ok,rfl,rfl⟩
  | cons p puts ih =>
    have first : Extends (p.run bb) bb := by
      cases p with
      | int w n => exact in_extends ok _
      | str s => exact in_extends ok _
    exact (ih first.ok).trans first

variable (wild : Double → BitVec 64)

/-- Success is reported for the whole encoding only, and a buffer without the room for it
is left where it was. -/
structure Honest (v : Value) (bb : ByteBuffer) : Prop where
  complete : (Serialize wild v bb).1 = true →
    (Serialize wild v bb).2.readable = bb.readable ++ bytesOf (encode wild v)
  refuses : bb.free < (bytesOf (encode wild v)).length →
    (Serialize wild v bb).1 = false ∧ (Serialize wild v bb).2.wrPtr = bb.wrPtr

section
variable {wild} {v : Value} {bb : ByteBuffer}

theorem serialize_table (table : v.isTable = true) :
    Serialize wild v bb = (true,(encode wild v).foldl Put.run bb) := by
  rw [Serialize,table]
  rfl

/-- Whatever was written, there is no more to read than there was room for. -/
theorem serialize_room (table : v.isTable = true) (ok : bb.Ok) :
    (Serialize wild v bb).2.readable.length ≤ bb.readable.length + bb.free := by
  have extends_ := puts_extend ok (encode wild v)
  have within := extends_.ok.within
  have order := ok.order
  have within' := ok.within
  rw [extends_.size] at within
  rw [serialize_table table,ByteBuffer.readable_length extends_.ok,extends_.rdPtr,
    ByteBuffer.readable_length ok,ByteBuffer.free_eq ok]
  omega

theorem serialize_honest (table : v.isTable = true) (ok : bb.Ok) :
    Honest wild v bb ↔ (bytesOf (encode wild v)).length ≤ bb.free := by
  constructor
  · intro honest
    have whole := congrArg List.length (honest.complete (by rw [serialize_table table]))
    have room : (Serialize wild v bb).2.readable.length ≤ _ := serialize_room table ok
    rw [whole,List.length_append] at room
    omega
  · intro space
    obtain ⟨_,written⟩ := serialize_written wild table ok space
    exact ⟨fun _ => written.readable,fun short => absurd space (by omega)⟩

end

theorem serialize_honest_tree : Honest tame tree roomy :=
  (serialize_honest rfl (by decide)).mpr (by decide +kernel)

/-- `{"abcdef",7}` -/
def pair : Value := .table ⟨false,false,2⟩
  [(.int 1,.str [97,98,99,100,101,102]),(.int 2,.int 7)]

/-- In a buffer of six bytes the string is lost, and success is reported. -/
theorem serialize_silent : (Serialize tame pair (.new 6 (some (List.replicate 6 0)))).1 = true ∧
    ¬Honest tame pair (.new 6 (some (List.replicate 6 0))) := by
  refine ⟨rfl,fun honest => ?_⟩
  exact absurd (honest.complete rfl) (by decide +kernel)

end Pworld.Lua
