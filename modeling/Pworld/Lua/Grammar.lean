import Pworld.Lua.Deserialize

/-! The bytes that `Deserialize` comes to an end on, as a grammar. It says what each
read consumes, nothing where the bytes do not suffice, and closes a table only at a
terminator that is there. -/
namespace Pworld.Lua

inductive Item where
  | entity (ty : LuaValueType)
  | round (ty : LuaValueType) (b : Nat)
  | body (ty : LuaValueType)

def LuaValueType.width : LuaValueType → Option Nat
  | .i8 | .u8 | .bool => some 1
  | .i16 | .u16 => some 2
  | .i32 | .u32 => some 4
  | .i64 | .u64 | .flt => some 8
  | _ => none

def LuaValueType.isTable (ty : LuaValueType) : Prop := ty = .Arr ∨ ty = .Hash

/-- The bytes start with a double that is not a number. -/
def NanKey (ty : LuaValueType) (bs : Bytes) : Prop :=
  ty = .flt ∧ 8 ≤ bs.length ∧
    (Value.flt (BitVec.ofNat 64 (Bytes.ofLe (bs.take 8)))).noKey = true

/-- `Reads item bs out`: reading the item from `bs` leaves `out`, and raises an error of
Lua where there is no `out`. -/
inductive Reads : Item → Bytes → Option Bytes → Prop where
  | scalar {ty : LuaValueType} {w : Nat} {bs : Bytes} (width : ty.width = some w)
      (le : w ≤ bs.length) : Reads (.entity ty) bs (some (bs.drop w))
  | short {ty : LuaValueType} {w : Nat} {bs : Bytes} (width : ty.width = some w)
      (short : bs.length < w) : Reads (.entity ty) bs (some bs)
  | str {str rest : Bytes} (plain : 0 ∉ str) :
      Reads (.entity .str) (str ++ 0 :: rest) (some rest)
  | endless {bs : Bytes} (endless : 0 ∉ bs) : Reads (.entity .str) bs (some bs)
  | table {ty : LuaValueType} {bs : Bytes} {out : Option Bytes} (table : ty.isTable)
      (body : Reads (.body ty) bs out) : Reads (.entity ty) bs out
  | elem {b : Nat} {bs : Bytes} {out : Option Bytes}
      (val : Reads (.entity (.ofCode b)) bs out) : Reads (.round .Arr b) bs out
  | pair {b : Nat} {bs mid rest : Bytes} (key : Reads (.entity (keyType b)) bs (some mid))
      (val : Reads (.entity (valType b)) mid (some rest)) (number : ¬NanKey (keyType b) bs) :
      Reads (.round .Hash b) bs (some rest)
  | nanKey {b : Nat} {bs mid rest : Bytes} (key : Reads (.entity (keyType b)) bs (some mid))
      (val : Reads (.entity (valType b)) mid (some rest)) (nan : NanKey (keyType b) bs) :
      Reads (.round .Hash b) bs none
  | keyRaised {b : Nat} {bs : Bytes} (key : Reads (.entity (keyType b)) bs none) :
      Reads (.round .Hash b) bs none
  | valRaised {b : Nat} {bs mid : Bytes} (key : Reads (.entity (keyType b)) bs (some mid))
      (val : Reads (.entity (valType b)) mid none) : Reads (.round .Hash b) bs none
  | done {ty : LuaValueType} {rest : Bytes} : Reads (.body ty) (0 :: rest) (some rest)
  | more {ty : LuaValueType} {b : UInt8} {bs mid : Bytes} {out : Option Bytes} (more : b ≠ 0)
      (round : Reads (.round ty b.toNat) bs (some mid)) (tail : Reads (.body ty) mid out) :
      Reads (.body ty) (b :: bs) out
  | raised {ty : LuaValueType} {b : UInt8} {bs : Bytes} (more : b ≠ 0)
      (round : Reads (.round ty b.toNat) bs none) : Reads (.body ty) (b :: bs) none

/-- The first byte is no table's, or the table that it starts comes to an end. -/
def Complete : Bytes → Prop
  | [] => False
  | b::bs => (LuaValueType.ofCode b.toNat).isTable →
      ∃ out, Reads (.body (.ofCode b.toNat)) bs out

theorem body_cons {ty : LuaValueType} {bs : Bytes} {out : Option Bytes}
    (reads : Reads (.body ty) bs out) : ∃ b tail, bs = b :: tail := by
  cases reads with
  | done | more | raised => exact ⟨_,_,rfl⟩

/-- What the functions give where the grammar gives `out`: `rounds` and `calls` bound
what was done, with the bytes that are left already taken off. -/
def Ends {α : Type} (out : Option Bytes) (wr rounds calls : Nat) :
    Option (Outcome α) → Prop
  | some (.ok (_,r)) => ∃ rest, out = some rest ∧ r.At wr rest ∧
      r.rounds + rest.length ≤ rounds ∧ r.calls + rest.length + 1 ≤ calls
  | some (.error (.raised r)) => r.rounds ≤ rounds ∧ r.calls ≤ calls
  | _ => False

theorem Ends.le {α : Type} {out : Option Bytes} {wr rounds calls rounds' calls' : Nat}
    {o : Option (Outcome α)} (ends : Ends out wr rounds calls o) (le : rounds ≤ rounds')
    (le' : calls ≤ calls') : Ends out wr rounds' calls' o := by
  match o, ends with
  | some (.ok _), ⟨rest,same,at_,few,few'⟩ => exact ⟨rest,same,at_,by omega,by omega⟩
  | some (.error (.raised _)), ⟨few,few'⟩ => exact ⟨by omega,by omega⟩

theorem Ends.bind {α β : Type} {mid out : Option Bytes} {wr rounds calls : Nat}
    {o : Option (Outcome α)} {o' : Option (Outcome β)} (ends : Ends mid wr rounds calls o)
    (back : ∀ a r rest, o = some (.ok (a,r)) → mid = some rest → r.At wr rest →
      r.rounds + rest.length ≤ rounds → r.calls + rest.length + 1 ≤ calls →
      Ends out wr rounds calls o')
    (raised : ∀ r, o = some (.error (.raised r)) → o' = some (.error (.raised r))) :
    Ends out wr rounds calls o' := by
  match o, ends with
  | some (.ok (a,r)), ⟨rest,same,at_,few,few'⟩ => exact back a r rest rfl same at_ few few'
  | some (.error (.raised r)), ⟨few,few'⟩ =>
    rw [raised r rfl]
    exact ⟨few,few'⟩

variable (junk : Nat → Nat)

theorem entity_scalar {ty : LuaValueType} {w : Nat} (width : ty.width = some w) :
    ∃ f : Nat → Value,
      (∀ sub r, deserializeEntity junk sub ty r = r.pushInt junk w f) ∧
      ∀ n, (f n).noKey = true ↔ ty = .flt ∧ (Value.flt (BitVec.ofNat 64 n)).noKey = true := by
  cases ty with
  | nil | str | Arr | Hash | Unknown => cases width
  | flt =>
    cases Option.some.inj width
    exact ⟨fun n => .flt (BitVec.ofNat 64 n),fun _ _ => rfl,fun _ => by simp⟩
  | bool =>
    cases Option.some.inj width
    exact ⟨fun n => .bool (n != 0),fun _ _ => rfl,fun _ => by simp [Value.noKey]⟩
  | i8 | i16 | i32 | i64 | u8 | u16 | u32 | u64 =>
    cases Option.some.inj width
    exact ⟨_,fun _ _ => rfl,fun _ => by simp [signed,unsigned,Value.noKey]⟩

/-- A key that is no number, by its bytes. -/
theorem entity_nan {sub : LuaValueType → Entries → Reader → Option (Outcome Entries)}
    {ty : LuaValueType} {wr : Nat} {bs : Bytes} {r r' : Reader} {k : Value} (at_ : r.At wr bs)
    (nan : NanKey ty bs) (read : deserializeEntity junk sub ty r = some (.ok (k,r'))) :
    k.noKey = true := by
  obtain ⟨rfl,le,noKey⟩ := nan
  simp only [deserializeEntity,Reader.pushInt,Reader.getFresh_spec junk at_ le,Option.some.injEq,
    Except.ok.injEq,Prod.mk.injEq] at read
  rw [← read.1]
  exact noKey

/-- With enough fuel, reading the item comes to the end the grammar gives it. -/
def Returns : Item → Bytes → Option Bytes → Prop
  | .entity ty, bs, out => ∃ n, ∀ m, n ≤ m → ∀ wr r, Reader.At r wr bs →
      Ends out wr (r.rounds + bs.length) (r.calls + bs.length + 1)
        (deserializeEntity junk (deserializeTable junk m) ty r)
  | .round ty b, bs, out => ∃ n, ∀ m, n ≤ m → ∀ wr r idx es, Reader.At r wr bs →
      Ends out wr (r.rounds + bs.length) (r.calls + bs.length + 1)
        (tableRound junk (deserializeTable junk m) ty idx b es r)
  | .body ty, bs, out => ∀ b tail, bs = b :: tail →
      ∃ n, ∀ m k, n ≤ m → n ≤ k → ∀ wr r es idx, Reader.At r wr tail →
      Ends out wr (r.rounds + tail.length + 1) (r.calls + tail.length + 1)
        (Loop.iterate (tableBody (tableRound junk (deserializeTable junk m) ty)) k
          (es,r,b.toNat,idx))

theorem returns_scalar {ty : LuaValueType} {w : Nat} {bs : Bytes} (width : ty.width = some w)
    (le : w ≤ bs.length) : Returns junk (.entity ty) bs (some (bs.drop w)) := by
  obtain ⟨f,read,_⟩ := entity_scalar junk width
  refine ⟨0,fun m _ wr r at_ => ?_⟩
  rw [read,Reader.pushInt,Reader.getFresh_spec junk at_ le]
  refine ⟨_,rfl,at_.advance le,?_,?_⟩
  · simp only [Reader.advance,List.length_drop]
    omega
  · simp only [Reader.advance,List.length_drop]
    omega

theorem returns_short {ty : LuaValueType} {w : Nat} {bs : Bytes} (width : ty.width = some w)
    (short : bs.length < w) : Returns junk (.entity ty) bs (some bs) := by
  obtain ⟨f,read,_⟩ := entity_scalar junk width
  refine ⟨0,fun m _ wr r at_ => ?_⟩
  rw [read,Reader.pushInt,Reader.getFresh_short junk at_ short]
  exact ⟨_,rfl,⟨at_.ok,at_.wr,at_.readable⟩,le_refl _,le_refl _⟩

theorem returns_str {str rest : Bytes} (plain : 0 ∉ str) :
    Returns junk (.entity .str) (str ++ 0 :: rest) (some rest) := by
  refine ⟨0,fun m _ wr r at_ => ?_⟩
  have left : (str ++ 0 :: rest).drop (str.length + 1) = rest := by
    rw [← List.drop_drop,List.drop_left]
    rfl
  have at' := at_.advance (n := str.length + 1) (by simp)
  rw [left] at at'
  simp only [deserializeEntity,Reader.getStr_spec plain at_]
  refine ⟨rest,rfl,at',?_,?_⟩
  · simp only [Reader.advance,List.length_append,List.length_cons]
    omega
  · simp only [Reader.advance,List.length_append,List.length_cons]
    omega

theorem returns_endless {bs : Bytes} (endless : 0 ∉ bs) :
    Returns junk (.entity .str) bs (some bs) := by
  refine ⟨0,fun m _ wr r at_ => ?_⟩
  obtain ⟨stray,read⟩ := Reader.getStr_none at_ endless
  simp only [deserializeEntity,read]
  exact ⟨bs,rfl,⟨⟨at_.ok.order,at_.ok.within,at_.ok.word,at_.ok.fits,at_.ok.small⟩,at_.wr,
    at_.readable⟩,le_refl _,le_refl _⟩

/-- A call of `deserialize_table` whose first type is there is its loop. -/
theorem table_loop {ty : LuaValueType} (table : ty.isTable) (m : Nat) {wr : Nat} {r : Reader}
    {b : UInt8} {bs : Bytes} (at_ : r.At wr (b::bs)) (es : Entries) :
    deserializeTable junk (m+1) ty es r =
      Loop.iterate (tableBody (tableRound junk (deserializeTable junk m) ty)) (m+1)
        (es,r.call.advance 1,b.toNat,1) := by
  have first := Reader.getFresh_cons junk at_.call
  rw [deserializeTable,if_pos (show ty = .Arr ∨ ty = .Hash from table)]
  simp only [first]

theorem pushTable_ends {out : Option Bytes} {wr rounds calls : Nat}
    {filled : Option (Outcome Entries)} (ends : Ends out wr rounds calls filled) :
    Ends out wr rounds calls (pushTable filled) :=
  match filled, ends with
  | some (.ok _), ends => ends
  | some (.error (.raised _)), ends => ends

theorem returns_table {ty : LuaValueType} {bs : Bytes} {out : Option Bytes}
    (table : ty.isTable) (some_ : ∃ b tail, bs = b :: tail)
    (body : Returns junk (.body ty) bs out) : Returns junk (.entity ty) bs out := by
  obtain ⟨b,tail,rfl⟩ := some_
  obtain ⟨n,body⟩ := body b tail rfl
  refine ⟨n+1,fun m le wr r at_ => ?_⟩
  obtain ⟨m,rfl⟩ : ∃ k, m = k+1 := ⟨m-1,by omega⟩
  have entity : deserializeEntity junk (deserializeTable junk (m+1)) ty r =
      pushTable (deserializeTable junk (m+1) ty [] r) := by
    rcases table with rfl | rfl <;> rfl
  rw [entity,table_loop junk table m at_]
  refine pushTable_ends ((body m (m+1) (by omega) (by omega) wr _ [] 1 at_.call.next).le ?_ ?_)
  · simp only [Reader.advance,Reader.call,List.length_cons]
    omega
  · simp only [Reader.advance,Reader.call,List.length_cons]
    omega

theorem returns_elem {b : Nat} {bs : Bytes} {out : Option Bytes}
    (val : Returns junk (.entity (.ofCode b)) bs out) : Returns junk (.round .Arr b) bs out := by
  obtain ⟨n,val⟩ := val
  refine ⟨n,fun m le wr r idx es at_ => (val m le wr r at_).bind ?_ ?_⟩
  · intro v r' rest read same at' few few'
    simp only [tableRound,arrRound,read]
    exact ⟨rest,same,at',few,few'⟩
  · intro r' read
    simp only [tableRound,arrRound,read]

theorem returns_pair {b : Nat} {bs mid : Bytes} {read out : Option Bytes}
    (key : Returns junk (.entity (keyType b)) bs (some mid))
    (val : Returns junk (.entity (valType b)) mid read)
    (after : ∀ rest, read = some rest → out = some rest ∨ NanKey (keyType b) bs) :
    Returns junk (.round .Hash b) bs out := by
  obtain ⟨n,key⟩ := key
  obtain ⟨n',val⟩ := val
  refine ⟨max n n',fun m le wr r idx es at_ => (key m (by omega) wr r at_).bind ?_ ?_⟩
  · intro k r1 _ readKey same at1 few few'
    cases same
    apply ((val m (by omega) wr r1 at1).le few few').bind
    · intro v r2 rest readVal same at2 few2 few2'
      simp only [tableRound,hashRound,readKey,readVal]
      by_cases noKey : k.noKey = true
      · rw [if_pos noKey]
        exact ⟨by omega,by omega⟩
      · rw [if_neg noKey]
        rcases after rest same with fine | nan
        · exact ⟨rest,fine,at2,few2,few2'⟩
        · exact absurd (entity_nan junk at_ nan readKey) noKey
    · intro r2 readVal
      simp only [tableRound,hashRound,readKey,readVal]
  · intro r1 readKey
    simp only [tableRound,hashRound,readKey]

theorem returns_keyRaised {b : Nat} {bs : Bytes}
    (key : Returns junk (.entity (keyType b)) bs none) : Returns junk (.round .Hash b) bs none := by
  obtain ⟨n,key⟩ := key
  refine ⟨n,fun m le wr r idx es at_ => (key m le wr r at_).bind ?_ ?_⟩
  · intro k r1 rest _ same
    cases same
  · intro r1 readKey
    simp only [tableRound,hashRound,readKey]

theorem returns_done {ty : LuaValueType} {rest : Bytes} :
    Returns junk (.body ty) (0 :: rest) (some rest) := by
  rintro _ _ ⟨⟩
  refine ⟨1,fun m k _ le wr r es idx at_ => ?_⟩
  obtain ⟨k,rfl⟩ : ∃ j, k = j+1 := ⟨k-1,by omega⟩
  rw [Loop.iterate_leave k (r := .ok (es,r)) rfl]
  exact ⟨rest,rfl,at_,by omega,by omega⟩

theorem byte_ne {b : UInt8} (more : b ≠ 0) : b.toNat ≠ LuaValueType.nil.code :=
  fun zero => more (UInt8.toNat_inj.mp zero)

/-- A round that comes back leads to the rest of the loop, one that raises out of it. -/
theorem returns_more {ty : LuaValueType} {b : UInt8} {bs : Bytes} {mid out : Option Bytes}
    (more : b ≠ 0) (round : Returns junk (.round ty b.toNat) bs mid)
    (tail : ∀ rest, mid = some rest →
      (∃ b tail, rest = b :: tail) ∧ Returns junk (.body ty) rest out) :
    Returns junk (.body ty) (b :: bs) out := by
  rintro _ _ ⟨⟩
  obtain ⟨n,round⟩ := round
  obtain ⟨n',tail⟩ : ∃ n', ∀ rest, mid = some rest → ∃ b' tl, rest = b' :: tl ∧
      ∀ m k, n' ≤ m → n' ≤ k → ∀ wr r es idx, Reader.At r wr tl →
      Ends out wr (r.rounds + tl.length + 1) (r.calls + tl.length + 1)
        (Loop.iterate (tableBody (tableRound junk (deserializeTable junk m) ty)) k
          (es,r,b'.toNat,idx)) := by
    cases mid with
    | none => exact ⟨0,fun _ same => nomatch same⟩
    | some rest =>
      obtain ⟨⟨b',tl,rfl⟩,tail⟩ := tail rest rfl
      obtain ⟨n',tail⟩ := tail b' tl rfl
      refine ⟨n',fun _ same => ?_⟩
      cases same
      exact ⟨b',tl,rfl,tail⟩
  refine ⟨max n n' + 1,fun m k lem lek wr r es idx at_ => ?_⟩
  obtain ⟨k,rfl⟩ : ∃ j, k = j+1 := ⟨k-1,by omega⟩
  have first := round m (by omega) wr r.round idx es at_.round
  refine (first.le ?_ ?_).bind ?_ ?_
  · simp only [Reader.round]
    omega
  · simp only [Reader.round]
    omega
  · intro es' r' rest read same at' few few'
    obtain ⟨b',tl,rfl,tail⟩ := tail rest same
    have again := Reader.getAgain_cons at' b.toNat
    rw [loop_again (byte_ne more) k read,again]
    apply (tail m k (by omega) (by omega) wr _ es' _ at'.next).le
    · simp only [List.length_cons] at few
      simp only [Reader.advance]
      omega
    · simp only [List.length_cons] at few'
      simp only [Reader.advance]
      omega
  · intro r' read
    exact loop_stopped (byte_ne more) k read

theorem returns {item : Item} {bs : Bytes} {out : Option Bytes} (reads : Reads item bs out) :
    Returns junk item bs out := by
  induction reads with
  | scalar width le => exact returns_scalar junk width le
  | short width short => exact returns_short junk width short
  | str plain => exact returns_str junk plain
  | endless endless => exact returns_endless junk endless
  | table table body ih => exact returns_table junk table (body_cons body) ih
  | elem _ ih => exact returns_elem junk ih
  | pair _ _ _ ihKey ihVal => exact returns_pair junk ihKey ihVal fun _ same => .inl same
  | nanKey _ _ nan ihKey ihVal => exact returns_pair junk ihKey ihVal fun _ _ => .inr nan
  | keyRaised _ ih => exact returns_keyRaised junk ih
  | valRaised _ _ ihKey ihVal =>
    exact returns_pair junk ihKey ihVal fun _ same => nomatch same
  | done => exact returns_done junk
  | more more _ tail ihRound ihTail =>
    apply returns_more junk more ihRound
    intro rest same
    cases same
    exact ⟨body_cons tail,ihTail⟩
  | raised more _ ih => exact returns_more junk more ih fun _ same => nomatch same

end Pworld.Lua
