import Pworld.Lua.Takes
import Pworld.Lua.Termination

/-! When `Deserialize` leaves one table or nothing. A run that comes back with every value
in its place has read each of them from the bytes, and so the bytes are well formed. -/
namespace Pworld.Lua.Build

variable (debug : Bool) (junk : Nat → Nat) (n : Nat)

theorem unread_back {β : Type} {m : Code β} (keeps : Exec.Keeps Onward m) {s t : Machine}
    {r : Except Halt β} (ran : m s = (r,t)) (read : t.unread = false) : s.unread = false := by
  have onward := (keeps s).unread
  rw [ran] at onward
  cases before : s.unread with
  | false => rfl
  | true => exact (onward before).symm.trans read

/-- The table is read whole where nothing is missing on the stack afterwards. -/
def Whole : Prop := ∀ ty wr bs s t, LuaValueType.isTable ty → Reader.At s.reader wr bs →
  deserializeTable debug junk n ty s = (.ok (),t) → t.unread = false →
  s.stack.length ≤ t.stack.length →
    ∃ rest, Takes false false (.body ty) bs rest ∧ t.reader.At wr rest ∧ t.stack = s.stack

section Rounds

variable {debug junk n} (nested : Whole debug junk n) {ty : LuaValueType} {wr : Nat} {bs : Bytes}
  {s t : Machine} (at_ : s.reader.At wr bs)
include nested at_

theorem entity_whole
    (ran : deserializeEntity debug junk (deserializeTable debug junk n) ty s = (.ok (),t))
    (read : t.unread = false) (full : s.stack.length + 1 ≤ t.stack.length) :
    ∃ rest v, Takes false false (.entity ty) bs rest ∧ t.reader.At wr rest ∧
      t.stack = v::s.stack ∧ (NanKey ty bs → noKey v = true) := by
  rcases kinds ty with ⟨w,width⟩ | rfl | table | blank
  · obtain ⟨f,same,number⟩ := entity_scalar debug junk width
    rw [same,pushRead] at ran
    by_cases le : w ≤ bs.length
    · rw [Exec.bind_ok (getFresh_spec junk at_ le)] at ran
      cases ran
      refine ⟨_,_,.scalar width le,at_.advance le,rfl,?_⟩
      rintro ⟨rfl,_,noKey⟩
      cases Option.some.inj width
      exact (number _).mpr ⟨rfl,noKey⟩
    · rw [Exec.bind_ok (getFresh_short junk at_ (by omega))] at ran
      cases ran
      cases read
  · by_cases ends : 0 ∈ bs
    · obtain ⟨str,rest,rfl,plain⟩ := List.eq_append_cons_of_mem ends
      rw [deserializeEntity,Exec.bind_ok (getStr_spec at_ plain rfl)] at ran
      cases ran
      refine ⟨rest,_,.str plain,at_str at_ rfl,rfl,?_⟩
      rintro ⟨no,_⟩
      cases no
    · obtain ⟨stray,none_⟩ := getStr_none at_ ends
      rw [deserializeEntity,Exec.bind_ok none_] at ran
      cases ran
      cases read
  · rw [entity_table debug junk _ table] at ran
    obtain ⟨fresh,made,reader,stack,_⟩ := newtable_spec s
    rw [Exec.bind_ok made] at ran
    have at' : fresh.reader.At wr bs := by rwa [reader]
    have room : fresh.stack.length ≤ t.stack.length := by
      rw [stack]
      exact full
    obtain ⟨rest,takes,after,kept⟩ := nested ty wr bs fresh t table at' ran read room
    refine ⟨rest,_,.table table takes,after,kept.trans stack,?_⟩
    rintro ⟨rfl,_⟩
    rcases table with no | no
    · cases no
    · cases no
  · rw [entity_blank debug junk _ blank,coreAssertFalse] at ran
    split at ran
    · cases ran
    · cases ran
      omega

theorem round_whole (table : ty.isTable) {idx b : Nat}
    (ran : tableRound debug junk (deserializeTable debug junk n) ty idx b s = (.ok (),t))
    (read : t.unread = false) (full : s.stack.length ≤ t.stack.length) :
    ∃ rest, Takes false false (.round ty b) bs rest ∧ t.reader.At wr rest ∧ t.stack = s.stack := by
  have adds (ty : LuaValueType) := Adds.entity debug junk (Adds.table debug junk n) ty
  have keeps (ty : LuaValueType) := Onward.entity debug junk (Onward.table debug junk n) ty
  rcases table with rfl | rfl
  · obtain ⟨_,u,val,set⟩ := Exec.bind_back ran
    have read' := unread_back (Onward.rawseti idx) set read
    have less := Adds.rawseti idx u _ t set
    obtain ⟨rest,v,takes,at',stack,_⟩ := entity_whole nested at_ val read' (by omega)
    obtain ⟨v',top⟩ := rawseti_back set
    have assigned := (rawseti_assigned idx u).reader
    rw [set] at assigned
    refine ⟨rest,.elem takes,by rwa [assigned],?_⟩
    exact (List.cons.inj (top.symm.trans stack)).2
  · obtain ⟨_,u,key,ran⟩ := Exec.bind_back ran
    obtain ⟨_,u',val,set⟩ := Exec.bind_back ran
    have read₂ := unread_back Onward.rawset set read
    have read₁ := unread_back (keeps _) val read₂
    have less := Adds.rawset u' _ t set
    have more₂ := adds _ u _ u' val
    have more₁ := adds _ s _ u key
    obtain ⟨mid,k,takes₁,at₁,stack₁,nan⟩ := entity_whole nested at_ key read₁ (by omega)
    obtain ⟨rest,v,takes₂,at₂,stack₂,_⟩ := entity_whole nested at₁ val read₂ (by omega)
    rw [stack₁] at stack₂
    obtain ⟨v',k',top,fine⟩ := rawset_back set
    obtain ⟨_,popped⟩ := List.cons.inj (top.symm.trans stack₂)
    obtain ⟨rfl,kept⟩ := List.cons.inj popped
    have assigned := (rawset_assigned u').reader
    rw [set] at assigned
    exact ⟨rest,.pair takes₁ takes₂ (.inr fun bad => fine (nan bad)),by rwa [assigned],kept⟩

omit at_ in
theorem loop_whole (table : ty.isTable) (k : Nat) {l out : Nat × Nat} {b : UInt8}
    (byte : l.1 = b.toNat) (at_ : s.reader.At wr bs)
    (ran : Exec.loop .pending more (tableBody (tableRound debug junk (deserializeTable debug junk n)
      ty)) k l s = (.ok out,t)) (read : t.unread = false)
    (full : s.stack.length ≤ t.stack.length) :
    ∃ rest, Takes false false (.body ty) (b::bs) rest ∧ t.reader.At wr rest ∧
      t.stack = s.stack := by
  induction k generalizing l b bs s with
  | zero => cases ran
  | succ k ih =>
    obtain ⟨ty',idx⟩ := l
    obtain rfl : ty' = b.toNat := byte
    by_cases nil_ : b = 0
    · subst nil_
      rw [Exec.loop_leave k rfl] at ran
      cases ran
      exact ⟨bs,.done,at_,rfl⟩
    · rw [Exec.loop_again k (more_iff.mpr (byte_ne nil_))] at ran
      obtain ⟨_,u',body,again⟩ := Exec.bind_back ran
      obtain ⟨_,u,round,body⟩ := Exec.bind_back body
      obtain ⟨_,_,get,next⟩ := Exec.bind_back body
      cases next
      have rounds := Adds.round debug junk (Adds.table debug junk n) ty
      have less := Adds.loop rounds k _ u' out t again
      have keeps := Onward.round debug junk (Onward.table debug junk n) ty
      have read' := unread_back (Onward.loop keeps k _) again read
      have onward : Exec.Keeps Onward (getAgain b.toNat) := fun _ => Onward.reads
      have same : u'.stack = u.stack := by
        cases get
        rfl
      rw [same] at less
      obtain ⟨mid,takes,at',kept⟩ := round_whole nested at_ table round
        (unread_back onward get read') (by omega)
      cases mid with
      | nil =>
        rw [getAgain_nil at' rfl] at get
        cases get
        cases read'
      | cons b' mid =>
        rw [getAgain_cons at' rfl] at get
        cases get
        have room : u.stack.length ≤ t.stack.length := by
          rw [kept]
          exact full
        obtain ⟨rest,tail,after,kept'⟩ := ih rfl at'.next again room
        exact ⟨rest,.more nil_ takes tail,after,kept'.trans kept⟩

end Rounds

theorem whole : Whole debug junk n := by
  induction n with
  | zero =>
    intro ty wr bs s t _ _ ran
    cases ran
  | succ n ih =>
    intro ty wr bs s t table at_ ran read full
    cases bs with
    | nil =>
      rw [deserializeTable,tableCall,if_pos (show ty = .Arr ∨ ty = .Hash from table),
        Exec.bind_ok (getFresh_short junk at_ Nat.zero_lt_one)] at ran
      have keeps := Onward.loop (Onward.round debug junk (Onward.table debug junk n) ty)
      cases (unread_back (Exec.keeps_bind Onward.trans (keeps _ _)
        fun _ => Exec.keeps_pure Onward.refl ()) ran read)
    | cons b tail =>
      rw [table_loop debug junk table n at_] at ran
      obtain ⟨_,_,loop,last⟩ := Exec.bind_back ran
      cases last
      apply loop_whole ih table _ rfl _ loop read full
      exact at_.next

structure AllOrNothing (s : Machine) (r : Except Halt Bool × Machine) : Prop where
  result : (r.1 = .ok true ∧ r.2.stack = .table s.next::s.stack) ∨
    (r.1 = .ok false ∧ r.2.stack = s.stack)
  kept : ∀ a, a < s.next → r.2.heap a = s.heap a
  read : r.2.unread = false

/-- There is a first type, and where it is that of a table one follows, with nothing missing. -/
def Proper : Bytes → Prop
  | [] => False
  | b::bs => (LuaValueType.ofCode b.toNat).isTable →
    ∃ rest, Takes false false (.body (.ofCode b.toNat)) bs rest

section First

variable {s : Machine} {wr : Nat} {b : UInt8} {tail : Bytes} (at_ : s.reader.At wr (b::tail))
include at_

theorem deserialize_table (table : (LuaValueType.ofCode b.toNat).isTable) :
    Deserialize debug junk n s = (do
      lua_newtable
      deserializeTable debug junk n (.ofCode b.toNat)
      pure true : Code Bool) {s with reader := s.reader.advance 1} := by
  have here : LuaValueType.ofCode b.toNat = .Arr ∨ LuaValueType.ofCode b.toNat = .Hash := table
  rw [Deserialize,Exec.bind_ok (getFresh_first junk at_ rfl),if_pos here]

theorem deserialize_other (other : ¬(LuaValueType.ofCode b.toNat).isTable) :
    Deserialize debug junk n s = (.ok false,{s with reader := s.reader.advance 1}) := by
  have not_here : ¬(LuaValueType.ofCode b.toNat = .Arr ∨ LuaValueType.ofCode b.toNat = .Hash) :=
    other
  rw [Deserialize,Exec.bind_ok (getFresh_first junk at_ rfl),if_neg not_here]
  rfl

end First

section Deserialize

variable {bb : ByteBuffer} (ok : bb.Ok) (stack : List Slot) (heap : Nat → List (Slot × Slot))
  (next : Nat)
include ok

theorem machine_at : (start bb stack heap next).reader.At bb.wrPtr bb.readable := ⟨ok,rfl,rfl⟩

theorem proper_of (all : AllOrNothing (start bb stack heap next)
    (Deserialize debug junk n (start bb stack heap next))) : Proper bb.readable := by
  have at_ := machine_at ok stack heap next
  obtain ⟨result,_,read⟩ := all
  generalize bb.readable = bs at at_ ⊢
  cases bs with
  | nil =>
    rw [Deserialize,Exec.bind_ok (getFresh_short junk at_ Nat.zero_lt_one)] at read
    have keeps (ty : LuaValueType) : Exec.Keeps Onward (if ty = .Arr ∨ ty = .Hash then (do
        lua_newtable
        deserializeTable debug junk n ty
        pure true) else pure false : Code Bool) := by
      split
      · apply Exec.keeps_bind Onward.trans Onward.newtable
        intro _
        apply Exec.keeps_bind Onward.trans (Onward.table debug junk n ty)
        intro _
        exact Exec.keeps_pure Onward.refl true
      · exact Exec.keeps_pure Onward.refl false
    cases ((keeps _ _).unread rfl).symm.trans read
  | cons b tail =>
    intro table
    match ran : Deserialize debug junk n (start bb stack heap next) with
    | (.error _,_) =>
      rw [ran] at result
      rcases result with ⟨no,_⟩ | ⟨no,_⟩
      · cases no
      · cases no
    | (.ok c,t) =>
      rw [ran] at read result
      rw [deserialize_table debug junk n at_ table] at ran
      obtain ⟨_,u,made,ran⟩ := Exec.bind_back ran
      obtain ⟨_,_,built,last⟩ := Exec.bind_back ran
      cases last
      cases made
      rcases result with ⟨_,same⟩ | ⟨no,_⟩
      · obtain ⟨rest,takes,_⟩ := whole debug junk n _ _ _ _ _ table at_.next built read
          (Nat.le_of_eq (congrArg List.length same).symm)
        exact ⟨rest,takes⟩
      · cases no

theorem of_proper (proper : Proper bb.readable) : ∃ k, ∀ m, k ≤ m →
    AllOrNothing (start bb stack heap next)
      (Deserialize debug junk m (start bb stack heap next)) := by
  have at_ := machine_at ok stack heap next
  generalize bb.readable = bs at at_ proper
  cases bs with
  | nil => exact proper.elim
  | cons b tail =>
    by_cases table : (LuaValueType.ofCode b.toNat).isTable
    · obtain ⟨rest,takes⟩ := proper table
      obtain ⟨k,filled⟩ := table_filled debug false table (takes_body takes)
        (built debug false takes)
      refine ⟨k,fun m le => ?_⟩
      obtain ⟨fresh,t,made,ran,stack',took⟩ := filled junk Bool.noConfusion m le bb.wrPtr
        {start bb stack heap next with reader := (start bb stack heap next).reader.advance 1}
        at_.next
      rw [deserialize_table debug junk m at_ table,Exec.bind_ok made,Exec.bind_ok ran]
      exact ⟨.inl ⟨rfl,stack'⟩,fun a old => took.heap a old (Option.some_ne_none a).symm,
        took.read rfl⟩
    · refine ⟨0,fun m _ => ?_⟩
      rw [deserialize_other debug junk m at_ table]
      exact ⟨.inr ⟨rfl,rfl⟩,fun _ _ => rfl,rfl⟩

/-- Where it comes to an end, `Deserialize` is all or nothing exactly on proper bytes. -/
theorem deserialize_all_or_nothing
    (ended : (Deserialize debug junk n (start bb stack heap next)).1 ≠ .error .pending) :
    AllOrNothing (start bb stack heap next)
      (Deserialize debug junk n (start bb stack heap next)) ↔ Proper bb.readable := by
  apply Iff.intro
  · exact proper_of debug junk n ok stack heap next
  · intro proper
    obtain ⟨k,all⟩ := of_proper debug junk ok stack heap next proper
    have enough := all (max k n) (Nat.le_max_left k n)
    rcases Deserialize_fueled debug junk (Nat.le_max_right k n) (start bb stack heap next) with
      out | same
    · exact absurd out ended
    · rwa [same] at enough

end Deserialize

theorem deserialize_all_or_nothing_closed : AllOrNothing
    (start (ByteBuffer.holding [12,5,7,0]) [.nil] (fun _ => []) 0)
    (Deserialize true (fun _ => 0) 3 (start (ByteBuffer.holding [12,5,7,0]) [.nil] (fun _ => []) 0)) := by
  apply (deserialize_all_or_nothing true (fun _ => 0) 3
    (show (ByteBuffer.holding [12,5,7,0]).Ok by decide) [.nil] (fun _ => []) 0 ?_).mpr
  · intro _
    exact ⟨[],.more (by decide) (.elem (.scalar (w := 1) rfl (by decide))) .done⟩
  · decide +kernel

theorem Takes.first {fails skips : Bool} {ty : LuaValueType} {b : UInt8} {bs rest : Bytes}
    (takes : Takes fails skips (.body ty) (b::bs) rest) (more : b ≠ 0) :
    ∃ mid, Takes fails skips (.round ty b.toNat) bs mid := by
  cases takes with
  | done => exact absurd rfl more
  | more _ round _ => exact ⟨_,round⟩

theorem Takes.val {fails skips : Bool} {b : Nat} {bs rest : Bytes}
    (takes : Takes fails skips (.round .Arr b) bs rest) :
    Takes fails skips (.entity (.ofCode b)) bs rest := by
  cases takes with
  | elem val => exact val

theorem takes_scalar {ty : LuaValueType} {w : Nat} {bs rest : Bytes} (width : ty.width = some w)
    (takes : Takes false false (.entity ty) bs rest) : w ≤ bs.length := by
  cases takes with
  | scalar width' le =>
    cases width.symm.trans width'
    exact le
  | short may | endless may | blank may => cases may
  | str => cases width
  | table table =>
    rcases table with rfl | rfl
    · cases width
    · cases width

/-- An array of a number of eight bytes, of which one is there. -/
theorem short_scalar_kept : (ByteBuffer.holding [12,4,0]).Ok ∧ ∀ debug stack heap next, ∃ n,
    (Deserialize debug (fun _ => 0) n (start (ByteBuffer.holding [12,4,0]) stack heap next)).1
      = .ok true ∧
    ¬AllOrNothing (start (ByteBuffer.holding [12,4,0]) stack heap next)
      (Deserialize debug (fun _ => 0) n (start (ByteBuffer.holding [12,4,0]) stack heap next)) := by
  have ok : (ByteBuffer.holding [12,4,0]).Ok := by decide
  refine ⟨ok,fun debug stack heap next => ?_⟩
  have at_ : (start (ByteBuffer.holding [12,4,0]) stack heap next).reader.At 3 (12::[4,0]) :=
    machine_at ok stack heap next
  have table : (LuaValueType.ofCode (12 : UInt8).toNat).isTable := .inl rfl
  have takes : Takes true false (.body (LuaValueType.ofCode (12 : UInt8).toNat)) [4,0] [] :=
    .more (by decide) (.elem (.short rfl (w := 8) rfl (by decide))) .done
  obtain ⟨n,filled⟩ := table_filled debug true table (takes_body takes) (built debug true takes)
  obtain ⟨fresh,t,made,ran,_,_⟩ := filled (fun _ => 0) (fun _ => tame_const (by decide)) n
    (Nat.le_refl n) 3
    {start (ByteBuffer.holding [12,4,0]) stack heap next with
      reader := (start (ByteBuffer.holding [12,4,0]) stack heap next).reader.advance 1} at_.next
  refine ⟨n,?_,fun all => ?_⟩
  · rw [deserialize_table debug _ n at_ table,Exec.bind_ok made,Exec.bind_ok ran]
    rfl
  · have proper := proper_of debug _ n ok stack heap next all
    obtain ⟨rest,takes⟩ := proper table
    obtain ⟨mid,round⟩ := takes.first (by decide)
    have width : LuaValueType.width .i64 = some 8 := rfl
    exact absurd (takes_scalar width round.val) (by decide)

end Pworld.Lua.Build
