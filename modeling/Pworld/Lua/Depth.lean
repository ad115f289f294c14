import Pworld.Lua.AllOrNothing

/-! How high `Deserialize` builds the Lua stack. The writer counts its levels; the reader
goes as deep as the bytes tell it, two slots a level where the table is the value of a key. -/
namespace Pworld.Lua.Build

/-- What `lua_checkstack` is asked for. -/
def reserve : Nat := 2*maxDepth+1

/-- With `h` slots held at its start, the item is read into more slots than are reserved. -/
inductive Deep (skips : Bool) : Item → Nat → Bytes → Prop where
  | push {ty : LuaValueType} {h : Nat} {bs : Bytes} (full : reserve ≤ h) (val : ¬isBlank ty) :
      Deep skips (.entity ty) h bs
  | table {ty : LuaValueType} {h : Nat} {bs : Bytes} (table : ty.isTable)
      (body : Deep skips (.body ty) (h+1) bs) : Deep skips (.entity ty) h bs
  | elem {b h : Nat} {bs : Bytes} (val : Deep skips (.entity (.ofCode b)) h bs) :
      Deep skips (.round .Arr b) h bs
  | key {b h : Nat} {bs : Bytes} (key : Deep skips (.entity (keyType b)) h bs) :
      Deep skips (.round .Hash b) h bs
  | val {b h : Nat} {bs mid : Bytes} (key : Takes true skips (.entity (keyType b)) bs mid)
      (val : Deep skips (.entity (valType b)) (h+1) mid) : Deep skips (.round .Hash b) h bs
  -- the first type of the table is what its local holds, and so are those of the tables in it
  | bare {ty : LuaValueType} {h : Nat} : Deep skips (.body ty) h []
  | round {ty : LuaValueType} {b : UInt8} {h : Nat} {bs : Bytes} (more : b ≠ 0)
      (round : Deep skips (.round ty b.toNat) h bs) : Deep skips (.body ty) h (b::bs)
  | tail {ty : LuaValueType} {b c : UInt8} {h : Nat} {bs mid : Bytes} (more : b ≠ 0)
      (round : Takes true skips (.round ty b.toNat) bs (c::mid))
      (tail : Deep skips (.body ty) h (c::mid)) : Deep skips (.body ty) h (b::bs)
  -- no type follows, and the last one stays
  | stale {ty : LuaValueType} {b : UInt8} {h : Nat} {bs : Bytes} (more : b ≠ 0)
      (round : Takes true skips (.round ty b.toNat) bs [])
      (again : Deep skips (.round ty b.toNat) h []) : Deep skips (.body ty) h (b::bs)

theorem Takes.length_le {fails skips : Bool} {item : Item} {bs rest : Bytes}
    (takes : Takes fails skips item bs rest) : rest.length ≤ bs.length := by
  induction takes with
  | scalar => simp
  | short | endless | blank => exact Nat.le_refl _
  | str => simp; omega
  | table _ _ ih | elem _ ih => exact ih
  | pair _ _ _ ihKey ihVal => exact ihVal.trans ihKey
  | done => simp
  | more _ _ _ ihRound ihTail => exact (ihTail.trans ihRound).trans (by simp)

variable (debug : Bool) (junk : Nat → Nat) (n : Nat)

/-- The run keeps below `top`, and comes back only with the item read, and with `Q` true
of the stack where no value can be missing. -/
structure Stays (item : Item) (bs : Bytes) (wr top : Nat) (Q : List Slot → Prop) {β : Type}
    (r : Except Halt β × Machine) : Prop where
  peak : r.2.peak ≤ top
  back : ∀ b t, r = (.ok b,t) → ∃ rest, Takes true (!debug) item bs rest ∧ t.reader.At wr rest ∧
    (debug = true → Q t.stack)

section Stays

variable {debug} {item item' : Item} {bs bs' : Bytes} {wr top : Nat} {Q Q' : List Slot → Prop}
  {β γ : Type} {m : Code β} {f : β → Code γ} {s : Machine}

theorem Stays.bind (first : Stays debug item bs wr top Q (m s))
    (rest : ∀ b t mid, m s = (.ok b,t) → Takes true (!debug) item bs mid → t.reader.At wr mid →
      (debug = true → Q t.stack) → t.peak ≤ top → Stays debug item' bs' wr top Q' (f b t)) :
    Stays debug item' bs' wr top Q' ((m >>= f) s) := by
  obtain ⟨peak,back⟩ := first
  rcases Exec.bind_cases m f s with ⟨b,t,ran,same⟩ | ⟨e,t,ran,same⟩
  · obtain ⟨mid,takes,at_,shape⟩ := back b t ran
    rw [ran] at peak
    rw [same]
    exact rest b t mid ran takes at_ shape peak
  · rw [ran] at peak
    rw [same]
    refine ⟨peak,fun b t no => ?_⟩
    cases no

theorem Stays.stopped {e : Halt} (peak : s.peak ≤ top) :
    Stays debug item bs wr top Q (Exec.stop e s : Except Halt β × Machine) := by
  refine ⟨peak,fun b t no => ?_⟩
  cases no

/-- The assignment that ends a round. -/
theorem Stays.assigned {m : Code Unit} {rest : Bytes} (keeps : Exec.Keeps Assigned m)
    (at_ : s.reader.At wr rest) (peak : s.peak ≤ top) (back : ∀ t, m s = (.ok (),t) →
      Takes true (!debug) item bs rest ∧ (debug = true → Q t.stack)) :
    Stays debug item bs wr top Q (m s) := by
  obtain ⟨reader,_,peak'⟩ := keeps s
  refine ⟨Nat.le_trans (Nat.le_of_eq peak') peak,fun b t ran => ?_⟩
  obtain ⟨takes,shape⟩ := back t ran
  rw [ran] at reader
  exact ⟨rest,takes,by rwa [reader],shape⟩

end Stays

variable (base : Nat)

/-- What is asked of the calls for the tables in a table. -/
def Nested (sub : LuaValueType → Code Unit) : Prop := ∀ ty h wr bs s, LuaValueType.isTable ty →
  Reader.At s.reader wr bs → s.stack.length ≤ base + h → s.peak ≤ base + reserve →
    ¬Deep (!debug) (.body ty) h bs →
      Stays debug (.body ty) bs wr (base + reserve) (· = s.stack) (sub ty s)

section Entities

variable {debug base} {sub : LuaValueType → Code Unit} (nested : Nested debug base sub)
  {h wr : Nat} {bs : Bytes} {s : Machine} (at_ : s.reader.At wr bs)
  (low : s.stack.length ≤ base + h) (peak : s.peak ≤ base + reserve)
include nested at_ low peak

end Entities

section Loops

variable {debug junk base n} (nested : Nested debug base (deserializeTable debug junk n)) {h wr : Nat}
  {ty : LuaValueType} (table : ty.isTable)
include nested table

end Loops

section Newtable

variable (s : Machine)

end Newtable

section Rounds

variable {b h : Nat} {bs : Bytes}

end Rounds

section Bodies

variable {ty : LuaValueType} {b : UInt8} (more_ : b ≠ 0) {h : Nat} {bs : Bytes}
include more_

end Bodies

def Within (bb : ByteBuffer) : Prop := ∀ junk n stack heap next,
  (Deserialize debug junk n (start bb stack heap next)).2.peak ≤ stack.length + reserve

section Deserialize

variable {debug} {bb : ByteBuffer} (ok : bb.Ok)
include ok

end Deserialize

end Pworld.Lua.Build
