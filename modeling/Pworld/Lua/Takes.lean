import Pworld.Lua.Build

/-! What the bytes describe, for the reader on the stack: where each item ends, and that
the code which reads it pushes one value and nothing else. -/
namespace Pworld.Lua.Build

/-- `Takes fails skips item bs rest`: reading the item takes `bs` down to `rest`. With
`fails` a read may find too few bytes, and with `skips` a code may stand for no value. -/
inductive Takes (fails skips : Bool) : Item → Bytes → Bytes → Prop where
  | scalar {ty : LuaValueType} {w : Nat} {bs : Bytes} (width : ty.width = some w)
      (le : w ≤ bs.length) : Takes fails skips (.entity ty) bs (bs.drop w)
  | short {ty : LuaValueType} {w : Nat} {bs : Bytes} (may : fails = true)
      (width : ty.width = some w) (short : bs.length < w) : Takes fails skips (.entity ty) bs bs
  | str {str rest : Bytes} (plain : 0 ∉ str) :
      Takes fails skips (.entity .str) (str ++ 0::rest) rest
  | endless {bs : Bytes} (may : fails = true) (endless : 0 ∉ bs) :
      Takes fails skips (.entity .str) bs bs
  | blank {ty : LuaValueType} {bs : Bytes} (may : skips = true) (blank : isBlank ty) :
      Takes fails skips (.entity ty) bs bs
  | table {ty : LuaValueType} {bs rest : Bytes} (table : ty.isTable)
      (body : Takes fails skips (.body ty) bs rest) : Takes fails skips (.entity ty) bs rest
  | elem {b : Nat} {bs rest : Bytes} (val : Takes fails skips (.entity (.ofCode b)) bs rest) :
      Takes fails skips (.round .Arr b) bs rest
  | pair {b : Nat} {bs mid rest : Bytes} (key : Takes fails skips (.entity (keyType b)) bs mid)
      (val : Takes fails skips (.entity (valType b)) mid rest)
      (number : skips = true ∨ ¬NanKey (keyType b) bs) : Takes fails skips (.round .Hash b) bs rest
  | done {ty : LuaValueType} {rest : Bytes} : Takes fails skips (.body ty) (0::rest) rest
  | more {ty : LuaValueType} {b : UInt8} {bs mid rest : Bytes} (more : b ≠ 0)
      (round : Takes fails skips (.round ty b.toNat) bs mid)
      (tail : Takes fails skips (.body ty) mid rest) : Takes fails skips (.body ty) (b::bs) rest

theorem takes_body {fails skips : Bool} {ty : LuaValueType} {bs rest : Bytes}
    (takes : Takes fails skips (.body ty) bs rest) : ∃ b tail, bs = b::tail := by
  cases takes with
  | done | more => exact ⟨_,_,rfl⟩

/-- The code came from `s` to `t` with `rest` to read, and wrote no table of before but `own`. -/
structure Took (fails : Bool) (own : Option Nat) (wr : Nat) (rest : Bytes) (s t : Machine) : Prop where
  at_ : t.reader.At wr rest
  next : s.next ≤ t.next
  heap : ∀ a, a < s.next → own ≠ some a → t.heap a = s.heap a
  read : fails = false → t.unread = s.unread

theorem Took.trans {fails : Bool} {own : Option Nat} {wr : Nat} {mid rest : Bytes}
    {s t u : Machine} (first : Took fails own wr mid s t) (second : Took fails own wr rest t u) :
    Took fails own wr rest s u where
  at_ := second.at_
  next := first.next.trans second.next
  heap := fun a old other =>
    (second.heap a (Nat.lt_of_lt_of_le old first.next) other).trans (first.heap a old other)
  read := fun may => (second.read may).trans (first.read may)

/-- A local that was not assigned is never taken for a number that is none. -/
def Tame (junk : Nat → Nat) : Prop :=
  ∀ i, (Value.flt (BitVec.ofNat 64 (junk i % 256^8))).noKey = false

theorem tame_const {c : Nat} (number : (Value.flt (BitVec.ofNat 64 (c % 256^8))).noKey = false) :
    Tame fun _ => c := fun _ => number

variable (debug fails : Bool)

section

variable (junk : Nat → Nat)

/-- An entity was read and pushed. -/
def Pushed (ty : LuaValueType) (bs rest : Bytes) (wr : Nat) (s : Machine)
    (r : Except Halt Unit × Machine) : Prop :=
  ∃ v t, r = (.ok (),t) ∧ t.stack = v::s.stack ∧ (noKey v = true → NanKey ty bs) ∧
    Took fails none wr rest s t

/-- Entries were read into the table on top. -/
def Stored (rest : Bytes) (wr a : Nat) (s : Machine) {β : Type} (r : Except Halt β × Machine) :
    Prop :=
  ∃ b t, r = (.ok b,t) ∧ t.stack = s.stack ∧ Took fails (some a) wr rest s t

end

/-- With enough fuel, whatever the unassigned locals are, the code reads the item. -/
def Built : Item → Bytes → Bytes → Prop
  | .entity ty, bs, rest => ∃ n, ∀ junk, (fails = true → Tame junk) → ∀ m, n ≤ m → ∀ wr s,
      Reader.At s.reader wr bs → Pushed fails ty bs rest wr s
        (deserializeEntity debug junk (deserializeTable debug junk m) ty s)
  | .round ty b, bs, rest => ∃ n, ∀ junk, (fails = true → Tame junk) → ∀ m, n ≤ m → ∀ wr s idx,
      Reader.At s.reader wr bs → ∀ a below, s.stack = .table a::below → Stored fails rest wr a s
        (tableRound debug junk (deserializeTable debug junk m) ty idx b s)
  | .body ty, bs, rest => ∀ b tail, bs = b::tail → ∃ n, ∀ junk, (fails = true → Tame junk) →
      ∀ m k, n ≤ m → n ≤ k → ∀ wr s idx, Reader.At s.reader wr tail →
      ∀ a below, s.stack = .table a::below → Stored fails rest wr a s
        (Exec.loop .pending more (tableBody (tableRound debug junk (deserializeTable debug junk m) ty))
          k (b.toNat,idx) s)

section Scalars

variable {ty : LuaValueType} {w : Nat} {bs : Bytes}

theorem built_scalar (width : ty.width = some w) (le : w ≤ bs.length) :
    Built debug fails (.entity ty) bs (bs.drop w) := by
  refine ⟨0,fun junk _ m _ wr s at_ => ?_⟩
  obtain ⟨f,same,number⟩ := entity_scalar debug junk width
  have read := getFresh_spec junk at_ le
  rw [same,pushRead,Exec.bind_ok read]
  refine ⟨_,_,rfl,rfl,?_,at_.advance le,Nat.le_refl _,fun _ _ _ => rfl,fun _ => rfl⟩
  intro none_
  obtain ⟨rfl,noKey⟩ := (number _).mp none_
  cases Option.some.inj width
  exact ⟨rfl,le,noKey⟩

theorem built_short (may : fails = true) (width : ty.width = some w) (short : bs.length < w) :
    Built debug fails (.entity ty) bs bs := by
  refine ⟨0,fun junk tame m _ wr s at_ => ?_⟩
  obtain ⟨f,same,number⟩ := entity_scalar debug junk width
  have read := getFresh_short junk at_ short
  rw [same,pushRead,Exec.bind_ok read]
  refine ⟨_,_,rfl,rfl,?_,⟨at_.ok,at_.wr,at_.readable⟩,Nat.le_refl _,fun _ _ _ => rfl,?_⟩
  · intro none_
    obtain ⟨rfl,noKey⟩ := (number _).mp none_
    cases Option.some.inj width
    exact absurd (noKey.symm.trans (tame may _)) (Bool.noConfusion)
  · intro whole
    rw [may] at whole
    cases whole

theorem built_str {str rest : Bytes} (plain : 0 ∉ str) :
    Built debug fails (.entity .str) (str ++ 0::rest) rest := by
  refine ⟨0,fun junk _ m _ wr s at_ => ?_⟩
  rw [deserializeEntity,Exec.bind_ok (getStr_spec at_ plain rfl)]
  refine ⟨_,_,rfl,rfl,fun none_ => ?_,at_str at_ rfl,Nat.le_refl _,fun _ _ _ => rfl,fun _ => rfl⟩
  cases none_

theorem built_endless (may : fails = true) (endless : 0 ∉ bs) :
    Built debug fails (.entity .str) bs bs := by
  refine ⟨0,fun junk _ m _ wr s at_ => ?_⟩
  obtain ⟨stray,read⟩ := getStr_none at_ endless
  rw [deserializeEntity,Exec.bind_ok read]
  refine ⟨_,_,rfl,rfl,fun none_ => ?_,at_stray at_ stray,Nat.le_refl _,fun _ _ _ => rfl,?_⟩
  · cases none_
  · intro whole
    rw [may] at whole
    cases whole

end Scalars

theorem newtable_spec (s : Machine) : ∃ t, lua_newtable s = (.ok (),t) ∧ t.reader = s.reader ∧
    t.stack = .table s.next::s.stack ∧ (∀ a, a < s.next → t.heap a = s.heap a) ∧
    t.next = s.next + 1 ∧ t.unread = s.unread := by
  refine ⟨_,rfl,rfl,rfl,fun a old => ?_,rfl,rfl⟩
  exact Function.update_of_ne (Nat.ne_of_lt old) _ _

/-- A call of `deserialize_table` whose first type is there is its loop. -/
theorem table_loop (junk : Nat → Nat) {ty : LuaValueType} (table : ty.isTable) (m : Nat) {wr : Nat}
    {s : Machine} {b : UInt8} {tail : Bytes} (at_ : s.reader.At wr (b::tail)) :
    deserializeTable debug junk (m+1) ty s = (do
      let _ ← Exec.loop .pending more
        (tableBody (tableRound debug junk (deserializeTable debug junk m) ty)) (m+1) (b.toNat,1)
      pure () : Code Unit) {s with reader := s.reader.advance 1} := by
  rw [deserializeTable,tableCall,if_pos (show ty = .Arr ∨ ty = .Hash from table),
    Exec.bind_ok (getFresh_first junk at_ rfl)]

theorem table_filled {ty : LuaValueType} {bs rest : Bytes} (table : ty.isTable)
    (some_ : ∃ b tail, bs = b::tail) (body : Built debug fails (.body ty) bs rest) :
    ∃ n, ∀ junk, (fails = true → Tame junk) → ∀ m, n ≤ m → ∀ wr s, Reader.At s.reader wr bs →
      ∃ fresh t, lua_newtable s = (.ok (),fresh) ∧
        deserializeTable debug junk m ty fresh = (.ok (),t) ∧ t.stack = .table s.next::s.stack ∧
        Took fails none wr rest s t := by
  obtain ⟨b,tail,rfl⟩ := some_
  obtain ⟨n,body⟩ := body b tail rfl
  refine ⟨n+1,fun junk tame m le wr s at_ => ?_⟩
  obtain ⟨m,rfl⟩ : ∃ k, m = k+1 := ⟨m-1,by omega⟩
  obtain ⟨fresh,made,reader,stack₀,heap₀,next₀,unread₀⟩ := newtable_spec s
  have at' : fresh.reader.At wr (b::tail) := by rwa [reader]
  obtain ⟨l,t,ran,stack,took⟩ := body junk tame m (m+1) (by omega) (by omega) wr
    {fresh with reader := fresh.reader.advance 1} 1 at'.next s.next s.stack stack₀
  refine ⟨fresh,t,made,?_,stack.trans stack₀,took.at_,?_,?_,?_⟩
  · rw [table_loop debug junk table m at',Exec.bind_ok ran]
    rfl
  · have next : fresh.next ≤ t.next := took.next
    omega
  · intro a old _
    have young : a < fresh.next := by omega
    have kept := took.heap a young fun same => absurd (Option.some.inj same) (by omega)
    exact kept.trans (heap₀ a old)
  · intro whole
    exact (took.read whole).trans unread₀

theorem built_table {ty : LuaValueType} {bs rest : Bytes} (table : ty.isTable)
    (some_ : ∃ b tail, bs = b::tail) (body : Built debug fails (.body ty) bs rest) :
    Built debug fails (.entity ty) bs rest := by
  obtain ⟨n,filled⟩ := table_filled debug fails table some_ body
  refine ⟨n,fun junk tame m le wr s at_ => ?_⟩
  obtain ⟨fresh,t,made,ran,stack,took⟩ := filled junk tame m le wr s at_
  refine ⟨_,t,?_,stack,?_,took⟩
  · rw [entity_table debug junk _ table,Exec.bind_ok made]
    exact ran
  · intro none_
    cases none_

theorem built_elem {b : Nat} {bs rest : Bytes}
    (val : Built debug fails (.entity (.ofCode b)) bs rest) :
    Built debug fails (.round .Arr b) bs rest := by
  obtain ⟨n,val⟩ := val
  refine ⟨n,fun junk tame m le wr s idx at_ a below stack => ?_⟩
  obtain ⟨v,t,ran,pushed,_,took⟩ := val junk tame m le wr s at_
  rw [tableRound,Exec.bind_ok ran]
  have full : t.stack = v::.table a::below := by rw [pushed,stack]
  refine ⟨(),t.assign a (.int (BitVec.ofNat 64 idx)) v (.table a::below),?_,stack.symm,
    took.at_,took.next,?_,took.read⟩
  · simp only [lua_rawseti,full]
  · intro a' old other
    have apart : a' ≠ a := fun same => other (congrArg some same.symm)
    exact (Function.update_of_ne apart _ _).trans (took.heap a' old (Option.some_ne_none _).symm)

theorem built_pair {b : Nat} {bs mid rest : Bytes}
    (key : Built debug fails (.entity (keyType b)) bs mid)
    (val : Built debug fails (.entity (valType b)) mid rest) (number : ¬NanKey (keyType b) bs) :
    Built debug fails (.round .Hash b) bs rest := by
  obtain ⟨n,key⟩ := key
  obtain ⟨n',val⟩ := val
  refine ⟨max n n',fun junk tame m le wr s idx at_ a below stack => ?_⟩
  obtain ⟨k,t,ran,pushed,none_,took⟩ := key junk tame m (by omega) wr s at_
  obtain ⟨v,u,ran',pushed',_,took'⟩ := val junk tame m (by omega) wr t took.at_
  rw [tableRound,Exec.bind_ok ran,Exec.bind_ok ran']
  have full : u.stack = v::k::.table a::below := by rw [pushed',pushed,stack]
  have fine : ¬noKey k = true := fun bad => number (none_ bad)
  have both := took.trans took'
  refine ⟨(),u.assign a k v (.table a::below),?_,stack.symm,both.at_,both.next,?_,both.read⟩
  · simp only [lua_rawset,full,if_neg fine]
  · intro a' old other
    have apart : a' ≠ a := fun same => other (congrArg some same.symm)
    exact (Function.update_of_ne apart _ _).trans (both.heap a' old (Option.some_ne_none _).symm)

theorem more_iff {b idx : Nat} : more (b,idx) = true ↔ b ≠ LuaValueType.nil.code := bne_iff_ne

theorem built_done {ty : LuaValueType} {rest : Bytes} :
    Built debug fails (.body ty) (0::rest) rest := by
  intro b tail same
  cases same
  refine ⟨1,fun junk _ m k _ le wr s idx at_ a below stack => ?_⟩
  obtain ⟨k,rfl⟩ : ∃ j, k = j+1 := ⟨k-1,by omega⟩
  rw [Exec.loop_leave k rfl]
  exact ⟨_,s,rfl,rfl,at_,Nat.le_refl _,fun _ _ _ => rfl,fun _ => rfl⟩

theorem built_more {ty : LuaValueType} {b : UInt8} {bs mid rest : Bytes} (more_ : b ≠ 0)
    (round : Built debug fails (.round ty b.toNat) bs mid) (some_ : ∃ b tail, mid = b::tail)
    (tail : Built debug fails (.body ty) mid rest) : Built debug fails (.body ty) (b::bs) rest := by
  intro _ _ same
  cases same
  obtain ⟨b',mid,rfl⟩ := some_
  obtain ⟨n,round⟩ := round
  obtain ⟨n',tail⟩ := tail b' mid rfl
  refine ⟨max n n' + 1,fun junk tame m k le lek wr s idx at_ a below stack => ?_⟩
  obtain ⟨k,rfl⟩ : ∃ i, k = i+1 := ⟨k-1,by omega⟩
  obtain ⟨_,t,ran,kept,took⟩ := round junk tame m (by omega) wr s idx at_ a below stack
  have again := getAgain_cons took.at_ rfl b.toNat
  obtain ⟨l,u,ran',kept',took'⟩ := tail junk tame m k (by omega) (by omega) wr
    {t with reader := t.reader.advance 1} (Net.u32 (idx+1)) took.at_.next a below
    (kept.trans stack)
  have body : tableBody (tableRound debug junk (deserializeTable debug junk m) ty) (b.toNat,idx) s =
      (.ok (b'.toNat,Net.u32 (idx+1)),{t with reader := t.reader.advance 1}) := by
    rw [tableBody,Exec.bind_ok ran,Exec.bind_ok again]
    rfl
  rw [Exec.loop_again k (more_iff.mpr (byte_ne more_)),Exec.bind_ok body]
  have step : Took fails (some a) wr mid s {t with reader := t.reader.advance 1} :=
    ⟨took.at_.next,took.next,took.heap,took.read⟩
  exact ⟨l,u,ran',kept'.trans kept,step.trans took'⟩

/-- What the bytes describe is built, on top of any stack. -/
theorem built {item : Item} {bs rest : Bytes} (takes : Takes fails false item bs rest) :
    Built debug fails item bs rest := by
  induction takes with
  | scalar width le => exact built_scalar debug fails width le
  | short may width short => exact built_short debug fails may width short
  | str plain => exact built_str debug fails plain
  | endless may endless => exact built_endless debug fails may endless
  | blank may _ => cases may
  | table table body ih => exact built_table debug fails table (takes_body body) ih
  | elem _ ih => exact built_elem debug fails ih
  | pair _ _ number ihKey ihVal =>
    exact built_pair debug fails ihKey ihVal (number.resolve_left Bool.noConfusion)
  | done => exact built_done debug fails
  | more more_ _ tail ihRound ihTail =>
    exact built_more debug fails more_ ihRound (takes_body tail) ihTail

end Pworld.Lua.Build
