import Pworld.Lua.Grammar

/-! When `Deserialize` comes to an end. Where a read fails, what the code does next is
up to the memory of an unassigned local; `stale` is memory on which every input that
the grammar does not read keeps it going. -/
namespace Pworld.Lua

/-- In each such local the code of `LVT_Arr`. -/
def stale : Nat → Nat := fun _ => LuaValueType.Arr.code

/-- If a function comes back, to the reader or with an error of Lua, then where `P` says. -/
def Means {α : Type} (P : Option Bytes → Prop) (wr : Nat) : Option (Outcome α) → Prop
  | some (.ok (_,r)) => ∃ rest, r.At wr rest ∧ P (some rest)
  | some (.error (.raised _)) => P none
  | _ => True

theorem Means.bind {α β : Type} {P Q : Option Bytes → Prop} {wr : Nat}
    {o : Option (Outcome α)} {o' : Option (Outcome β)} (means : Means P wr o)
    (back : ∀ a r rest, o = some (.ok (a,r)) → r.At wr rest → P (some rest) → Means Q wr o')
    (pending : o = none → o' = none) (stop : ∀ s, o = some (.error s) → o' = some (.error s))
    (raised : P none → Q none) : Means Q wr o' := by
  match o, means with
  | none, _ =>
    rw [pending rfl]
    trivial
  | some (.error .asserted), _ =>
    rw [stop _ rfl]
    trivial
  | some (.error (.raised r)), means =>
    rw [stop _ rfl]
    exact raised means
  | some (.ok (a,r)), ⟨rest,at_,means⟩ => exact back a r rest rfl at_ means

section
variable {sub : LuaValueType → Entries → Reader → Option (Outcome Entries)}
  {ty : LuaValueType} {wr : Nat} {bs : Bytes} {r : Reader}

def SubMeans (sub : LuaValueType → Entries → Reader → Option (Outcome Entries)) : Prop :=
  ∀ ty es r wr bs, LuaValueType.isTable ty → Reader.At r wr bs →
    Means (Reads (.body ty) bs) wr (sub ty es r)

theorem pushTable_means {P : Option Bytes → Prop} {filled : Option (Outcome Entries)}
    (means : Means P wr filled) : Means P wr (pushTable filled) :=
  match filled, means with
  | none, _ => trivial
  | some (.ok _), means => means
  | some (.error (.raised _)), means => means
  | some (.error .asserted), _ => trivial

theorem table_means (nested : SubMeans sub) (table : ty.isTable) (at_ : r.At wr bs) :
    Means (Reads (.entity ty) bs) wr (pushTable (sub ty [] r)) := by
  refine pushTable_means ((nested ty [] r wr bs table at_).bind ?_ id (fun _ => id) (.table table))
  intro es r' rest read at' reads
  rw [read]
  exact ⟨rest,at',.table table reads⟩

theorem entity_means (nested : SubMeans sub) (ty : LuaValueType) (at_ : r.At wr bs) :
    Means (Reads (.entity ty) bs) wr (deserializeEntity stale sub ty r) := by
  cases width : ty.width with
  | some w =>
    obtain ⟨f,read,_⟩ := entity_scalar stale width
    rw [read,Reader.pushInt]
    by_cases le : w ≤ bs.length
    · rw [Reader.getFresh_spec stale at_ le]
      exact ⟨_,at_.advance le,.scalar width le⟩
    · rw [Reader.getFresh_short stale at_ (by omega)]
      exact ⟨_,⟨at_.ok,at_.wr,at_.readable⟩,.short width (by omega)⟩
  | none =>
    cases ty with
    | i8 | i16 | i32 | i64 | u8 | u16 | u32 | u64 | flt | bool => cases width
    | nil | Unknown => trivial
    | Arr => exact table_means nested (.inl rfl) at_
    | Hash => exact table_means nested (.inr rfl) at_
    | str =>
      by_cases ends : 0 ∈ bs
      · obtain ⟨str,rest,rfl,plain⟩ := List.eq_append_cons_of_mem ends
        have left : (str ++ 0 :: rest).drop (str.length + 1) = rest := by
          rw [← List.drop_drop,List.drop_left]
          rfl
        have at' := at_.advance (n := str.length + 1) (by simp)
        rw [left] at at'
        simp only [deserializeEntity,Reader.getStr_spec plain at_]
        exact ⟨rest,at',.str plain⟩
      · obtain ⟨stray,read⟩ := Reader.getStr_none at_ ends
        simp only [deserializeEntity,read]
        exact ⟨bs,⟨⟨at_.ok.order,at_.ok.within,at_.ok.word,at_.ok.fits,at_.ok.small⟩,at_.wr,
          at_.readable⟩,.endless ends⟩

theorem pushTable_ok {filled : Option (Outcome Entries)} {k : Value} {r' : Reader}
    (pushed : pushTable filled = some (.ok (k,r'))) : ∃ es, k = .table ⟨false,false,0⟩ es := by
  rcases filled with _ | (stop | ⟨es,r⟩)
  · cases pushed
  · cases pushed
  · simp only [pushTable,Option.map_some,Except.map,Option.some.injEq,Except.ok.injEq,
      Prod.mk.injEq] at pushed
    exact ⟨es,pushed.1.symm⟩

theorem entity_number {k : Value} {r' : Reader} (at_ : r.At wr bs)
    (read : deserializeEntity stale sub ty r = some (.ok (k,r'))) (noKey : k.noKey = true) :
    NanKey ty bs := by
  cases width : ty.width with
  | some w =>
    obtain ⟨f,scalar,flt⟩ := entity_scalar stale width
    rw [scalar,Reader.pushInt] at read
    simp only [Option.some.injEq,Except.ok.injEq,Prod.mk.injEq] at read
    rw [← read.1] at noKey
    obtain ⟨rfl,noKey⟩ := (flt _).mp noKey
    cases Option.some.inj width
    by_cases le : 8 ≤ bs.length
    · rw [Reader.getFresh_spec stale at_ le] at noKey
      exact ⟨rfl,le,noKey⟩
    · rw [Reader.getFresh_short stale at_ (by omega)] at noKey
      have number : (Value.flt (BitVec.ofNat 64 (12 % 256^8))).noKey = false := by decide +kernel
      exact absurd (number.symm.trans noKey) (by decide)
  | none =>
    exfalso
    cases ty with
    | i8 | i16 | i32 | i64 | u8 | u16 | u32 | u64 | flt | bool => cases width
    | nil | Unknown => cases read
    | Arr | Hash =>
      obtain ⟨es,rfl⟩ := pushTable_ok read
      cases noKey
    | str =>
      simp only [deserializeEntity,Option.some.injEq,Except.ok.injEq,Prod.mk.injEq] at read
      rw [← read.1] at noKey
      cases noKey

theorem round_means (nested : SubMeans sub) (table : ty.isTable) (at_ : r.At wr bs)
    (idx b : Nat) (es : Entries) :
    Means (Reads (.round ty b) bs) wr (tableRound stale sub ty idx b es r) := by
  rcases table with rfl | rfl
  · refine (entity_means nested (.ofCode b) at_).bind ?_ ?_ ?_ .elem
    · intro v r' rest read at' reads
      simp only [tableRound,arrRound,read]
      exact ⟨rest,at',.elem reads⟩
    · intro read
      simp only [tableRound,arrRound,read]
    · intro s read
      simp only [tableRound,arrRound,read]
  · refine (entity_means nested (keyType b) at_).bind ?_ ?_ ?_ .keyRaised
    · intro k r1 mid readKey at1 key
      refine (entity_means nested (valType b) at1).bind ?_ ?_ ?_ (.valRaised key)
      · intro v r2 rest readVal at2 val
        simp only [tableRound,hashRound,readKey,readVal]
        by_cases noKey : k.noKey = true
        · rw [if_pos noKey]
          exact .nanKey key val (entity_number at_ readKey noKey)
        · rw [if_neg noKey]
          exact ⟨rest,at2,.pair key val fun nan => noKey (entity_nan stale at_ nan readKey)⟩
      · intro readVal
        simp only [tableRound,hashRound,readKey,readVal]
      · intro s readVal
        simp only [tableRound,hashRound,readKey,readVal]
    · intro readKey
      simp only [tableRound,hashRound,readKey]
    · intro s readKey
      simp only [tableRound,hashRound,readKey]

theorem reads_nil {item : Item} {bs : Bytes} {out : Option Bytes} (reads : Reads item bs out)
    (empty : bs = []) : out = some [] := by
  induction reads with
  | scalar | endless => subst empty; simp
  | short => rw [empty]
  | str | done | more | raised => simp at empty
  | table _ _ ih | elem _ ih => exact ih empty
  | pair _ _ _ ihKey ihVal => exact ihVal (Option.some.inj (ihKey empty))
  | nanKey _ _ nan =>
    obtain ⟨_,le,_⟩ := nan
    simp [empty] at le
  | keyRaised _ ih => cases ih empty
  | valRaised _ _ ihKey ihVal => cases ihVal (Option.some.inj (ihKey empty))

/-- The loop on a type that nothing can replace. -/
theorem stuck (nested : SubMeans sub) (table : ty.isTable) {b : Nat}
    (more : b ≠ LuaValueType.nil.code) (k : Nat) (r : Reader) (at_ : r.At wr []) (es : Entries)
    (idx : Nat) : Means (fun _ => False) wr
      (Loop.iterate (tableBody (tableRound stale sub ty)) k (es,r,b,idx)) := by
  induction k generalizing r es idx with
  | zero => trivial
  | succ k ih =>
    apply (round_means nested table at_.round idx b es).bind
    · intro es' r' rest read at' reads
      cases reads_nil reads rfl
      have again := Reader.getAgain_nil at' b
      rw [loop_again more k read,again]
      exact ih r' at' es' _
    · exact loop_pending more k
    · exact fun _ => loop_stopped more k
    · intro reads
      cases reads_nil reads rfl

theorem Means.absurd {α : Type} {P : Option Bytes → Prop} {o : Option (Outcome α)}
    (means : Means (fun _ => False) wr o) : Means P wr o :=
  match o, means with
  | none, _ => trivial
  | some (.ok _), ⟨_,_,no⟩ => no.elim
  | some (.error (.raised _)), no => False.elim no
  | some (.error .asserted), _ => trivial

theorem loop_means (nested : SubMeans sub) (table : ty.isTable) (k : Nat) {b : UInt8}
    {bs : Bytes} (r : Reader) (at_ : r.At wr bs) (es : Entries) (idx : Nat) :
    Means (Reads (.body ty) (b::bs)) wr
      (Loop.iterate (tableBody (tableRound stale sub ty)) k (es,r,b.toNat,idx)) := by
  induction k generalizing b bs r es idx with
  | zero => trivial
  | succ k ih =>
    by_cases more : b = 0
    · subst more
      rw [Loop.iterate_leave k (r := .ok (es,r)) rfl]
      exact ⟨bs,at_,.done⟩
    refine (round_means nested table at_.round idx b.toNat es).bind ?_ ?_ ?_ (.raised more)
    · intro es' r' mid read at' reads
      cases mid with
      | nil =>
        have again := Reader.getAgain_nil at' b.toNat
        rw [loop_again (byte_ne more) k read,again]
        exact (stuck nested table (byte_ne more) k r' at' es' _).absurd
      | cons b' tail =>
        have again := Reader.getAgain_cons at' b.toNat
        rw [loop_again (byte_ne more) k read,again]
        have rest := ih (r'.advance 1) at'.next es' (Net.u32 (idx+1)) (b := b')
        refine rest.bind ?_ id (fun _ => id) (.more more reads)
        intro a r'' rest same at'' tail
        rw [same]
        exact ⟨rest,at'',.more more reads tail⟩
    · exact loop_pending (byte_ne more) k
    · exact fun _ => loop_stopped (byte_ne more) k

/-- What the code comes back from, the grammar reads. -/
theorem deserializeTable_means (n : Nat) : SubMeans (deserializeTable stale n) := by
  induction n with
  | zero => intro _ _ _ _ _ _ _; trivial
  | succ n ih =>
    intro ty es r wr bs table at_
    cases bs with
    | nil =>
      rw [deserializeTable,if_pos (show ty = .Arr ∨ ty = .Hash from table)]
      have first := Reader.getFresh_short stale at_.call (w := 1) (by simp)
      have at' : Reader.At {r.call with drawn := r.call.drawn + 1} wr [] :=
        ⟨at_.ok,at_.wr,at_.readable⟩
      have more : stale r.call.drawn % 256^1 ≠ LuaValueType.nil.code := by
        simp [stale,LuaValueType.code]
      simp only [first]
      exact (stuck ih table more (n+1) _ at' es 1).absurd
    | cons b bs =>
      rw [table_loop stale table n at_]
      exact loop_means ih table (n+1) _ at_.call.next es 1

end

/-- What `Deserialize` did is bounded by `n`. -/
def Bounded (n : Nat) : Outcome (Option Value) → Prop
  | .ok (_,r) | .error (.raised r) => r.rounds ≤ n ∧ r.calls ≤ n
  | .error .asserted => False

theorem start_at {bb : ByteBuffer} (ok : bb.Ok) :
    Reader.At ⟨bb,0,0,0⟩ bb.wrPtr bb.readable := ⟨ok,rfl,rfl⟩

/-- After the first byte. -/
def start (bb : ByteBuffer) : Reader := Reader.advance ⟨bb,0,0,0⟩ 1

/-- What `Deserialize` makes of a call of `deserialize_table`. -/
def pushed (filled : Option (Outcome Entries)) : Option (Outcome (Option Value)) :=
  (pushTable filled).map (Except.map fun (v,r) => (some v,r))

theorem deserialize_table (junk : Nat → Nat) {bb : ByteBuffer} {wr : Nat} {b : UInt8}
    {bs : Bytes} (at_ : Reader.At ⟨bb,0,0,0⟩ wr (b::bs))
    (table : (LuaValueType.ofCode b.toNat).isTable) (n : Nat) :
    Deserialize junk n bb =
      pushed (deserializeTable junk n (.ofCode b.toNat) [] (start bb)) := by
  rw [Deserialize,Reader.getFresh_cons junk at_]
  exact if_pos table

theorem deserialize_other (junk : Nat → Nat) {bb : ByteBuffer} {wr : Nat} {b : UInt8}
    {bs : Bytes} (at_ : Reader.At ⟨bb,0,0,0⟩ wr (b::bs))
    (other : ¬(LuaValueType.ofCode b.toNat).isTable) (n : Nat) :
    Deserialize junk n bb = some (.ok (none,start bb)) := by
  rw [Deserialize,Reader.getFresh_cons junk at_]
  exact if_neg other

/-- A buffer that holds what was written to it. -/
def ByteBuffer.holding (bs : Bytes) : ByteBuffer :=
  ⟨0,bs.length,some ⟨bs,0⟩,bs.length,0,false,false⟩

section
variable (junk : Nat → Nat)
  (sub : LuaValueType → Entries → Reader → Option (Outcome Entries)) {wr : Nat}

end

end Pworld.Lua
