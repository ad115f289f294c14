import Pworld.Support.Runs
import Mathlib.Algebra.Order.Group.Nat
import Mathlib.Data.List.Count

/-! Weak handles: the block that the handles of one holder share, with its 16-bit
count, and what a program of constructions and destructions makes of it. -/
namespace Pworld.Object

structure Shared where
  _obj : Option Nat
  _cnt : UInt16
  deriving DecidableEq

namespace Shared

def new (obj : Nat) : Shared := ⟨some obj,0⟩

def retain (b : Shared) : Option Shared := some {b with _cnt := b._cnt + 1}

/-- `none` is `delete this`. -/
def release (b : Shared) : Option Shared :=
  let b := {b with _cnt := b._cnt - 1}
  if b._cnt = 0 then none else some b

def clean (b : Shared) : Option Shared := some {b with _obj := none}

end Shared

/-- All objects a program has made, numbered in the order of their construction;
`none` where one was destroyed. The value of a handle is its `_shr`. -/
structure Refs where
  blocks : List (Option Shared)
  holders : List (Option (Option Nat))  -- each with its `_ref`
  refs : List (Option (Option Nat))
  undefined : Bool  -- a null block or a deleted one was used
  deriving DecidableEq

inductive RefOp where
  | holder
  | dropHolder (h : Nat)
  | getRef (h : Nat)
  | clone (r : Nat)
  | copy (r : Nat)
  | move (r : Nat)
  | drop (r : Nat)
  deriving DecidableEq,Repr

namespace Refs

def start : Refs := ⟨[],[],[],false⟩

/-- A member function of the block that `_shr` points to. -/
def access (s : Refs) (shr : Option Nat) (f : Shared → Option Shared) : Refs :=
  match shr with
  | none => {s with undefined := true}
  | some b =>
    match (s.blocks[b]?).join with
    | none => {s with undefined := true}
    | some block => {s with blocks := s.blocks.set b (f block)}

-- `obj_ref(const obj_ref& r)`
def copyFrom (s : Refs) (shr : Option Nat) : Refs :=
  let s := s.access shr Shared.retain
  {s with refs := s.refs ++ [some shr]}

-- `~obj_ref()`
def releaseRef (s : Refs) (shr : Option Nat) : Refs :=
  if shr.isSome then s.access shr Shared.release else s

def objPtr (s : Refs) (shr : Option Nat) : Option Nat :=
  match shr with
  | none => none
  | some b => (s.blocks[b]?).join.bind Shared._obj

def holder (s : Refs) : Refs :=
  let shr := some s.blocks.length
  let s := {s with
    blocks := s.blocks ++ [some (Shared.new s.holders.length)]
    holders := s.holders ++ [some shr]}
  s.access shr Shared.retain

def dropHolder (s : Refs) (h : Nat) (shr : Option Nat) : Refs :=
  let s := (s.access shr Shared.clean).releaseRef shr
  {s with holders := s.holders.set h none}

def move (s : Refs) (r : Nat) (shr : Option Nat) : Refs :=
  {s with refs := s.refs.set r (some none) ++ [some shr]}

def drop (s : Refs) (r : Nat) (shr : Option Nat) : Refs :=
  let s := s.releaseRef shr
  {s with refs := s.refs.set r none}

/-- Only objects that have been made and not destroyed can be named. -/
def step (s : Refs) : RefOp → Option Refs
  | .holder => some s.holder
  | .dropHolder h => (s.holders[h]?).join.map (s.dropHolder h)
  | .getRef h => (s.holders[h]?).join.map s.copyFrom
  | .clone r => (s.refs[r]?).join.map s.copyFrom
  | .copy r => (s.refs[r]?).join.map s.copyFrom
  | .move r => (s.refs[r]?).join.map (s.move r)
  | .drop r => (s.refs[r]?).join.map (s.drop r)

/-- How many handles that are alive and not moved from point to the block. -/
def live (s : Refs) (b : Nat) : Nat :=
  s.refs.count (some (some b)) + s.holders.count (some (some b))

def held (s : Refs) (h : Nat) : Bool := (s.holders[h]?).join.isSome

/-- Holder number `b` and block number `b` are made together. -/
structure Good (s : Refs) : Prop where
  defined : s.undefined = false
  pairs : s.holders.length = s.blocks.length
  own : ∀ (h : Nat) shr, s.holders[h]? = some (some shr) → shr = some h
  alive : ∀ b : Nat, s.live b ≠ 0 ↔ ∃ block, s.blocks[b]? = some (some block)
  counted : ∀ (b : Nat) block, s.blocks[b]? = some (some block) → block._cnt.toNat = s.live b
  objPtr : ∀ b, s.live b ≠ 0 → s.objPtr (some b) = if s.held b then some b else none

/-- Copies are made of handles that point to a block, and of which the count can
still tell the number. -/
def Sane (s : Refs) : RefOp → Prop
  | .getRef h => s.live h < 2^16-1
  | .clone r | .copy r =>
    ∃ b < s.blocks.length, s.refs[r]? = some (some (some b)) ∧ s.live b < 2^16-1
  | _ => True

instance (s : Refs) (op : RefOp) : Decidable (s.Sane op) := by
  cases op <;> unfold Sane <;> infer_instance

theorem cnt_retain {n : UInt16} (room : n.toNat < 2^16-1) : (n + 1).toNat = n.toNat + 1 := by
  have one : (1 : UInt16).toNat = 1 := rfl
  rw [UInt16.toNat_add,one]
  omega

theorem cnt_wrap {n : UInt16} (none_left : n.toNat = 2^16-1) : (n + 1).toNat = 0 := by
  rw [UInt16.toNat_add,none_left]
  rfl

theorem cnt_release {n : UInt16} (pos : 0 < n.toNat) : (n - 1).toNat = n.toNat - 1 := by
  have small := n.toNat_lt
  have one : (1 : UInt16).toNat = 1 := rfl
  rw [UInt16.toNat_sub,one]
  omega

theorem count_set {l : List (Option (Option Nat))} {i : Nat} {x : Option (Option Nat)}
    (at_ : l[i]? = some x) (y z : Option (Option Nat)) :
    (l.set i y).count z + (if x = z then 1 else 0) = l.count z + (if y = z then 1 else 0) := by
  obtain ⟨inside,same⟩ := List.getElem?_eq_some_iff.mp at_
  have member : (if x = z then 1 else 0) ≤ l.count z := by
    split_ifs with here
    · rw [← here,← same]
      exact List.count_pos_iff.mpr (List.getElem_mem inside)
    · exact Nat.zero_le _
  rw [List.count_set inside,same]
  simp only [beq_iff_eq]
  omega

theorem access_eq {s : Refs} {b : Nat} {block : Shared} (f : Shared → Option Shared)
    (at_ : s.blocks[b]? = some (some block)) :
    s.access (some b) f = {s with blocks := s.blocks.set b (f block)} := by
  simp [access,at_]

theorem live_refs {s : Refs} {r b : Nat} (at_ : s.refs[r]? = some (some (some b))) :
    s.live b ≠ 0 := by
  have member := List.count_pos_iff.mpr (List.mem_of_getElem? at_)
  rw [live]
  omega

theorem live_holders {s : Refs} {h b : Nat} (at_ : s.holders[h]? = some (some (some b))) :
    s.live b ≠ 0 := by
  have member := List.count_pos_iff.mpr (List.mem_of_getElem? at_)
  rw [live]
  omega

/-- What a step leaves of a block. -/
def Fits (s : Refs) (b : Nat) : Option Shared → Prop
  | none => s.live b = 0
  | some block => s.live b ≠ 0 ∧ block._cnt.toNat = s.live b ∧
      block._obj = if s.held b then some b else none

theorem Good.fits {s : Refs} (good : s.Good) {b : Nat} {block : Shared}
    (at_ : s.blocks[b]? = some (some block)) : s.Fits b (some block) := by
  have alive := (good.alive b).mpr ⟨block,at_⟩
  have obj := good.objPtr b alive
  simp only [Refs.objPtr,at_,Option.join_some,Option.bind_some] at obj
  exact ⟨alive,good.counted b block at_,obj⟩

/-- Blocks are right one by one. -/
theorem good_iff_fits {s : Refs} (defined : s.undefined = false)
    (pairs : s.holders.length = s.blocks.length)
    (own : ∀ (h : Nat) shr, s.holders[h]? = some (some shr) → shr = some h) :
    s.Good ↔ (∀ b, s.blocks.length ≤ b → s.live b = 0) ∧
      ∀ b block, s.blocks[b]? = some block → s.Fits b block := by
  constructor
  · intro good
    refine ⟨fun b outside => ?_,fun b block at_ => ?_⟩
    · by_contra alive
      obtain ⟨block,at_⟩ := (good.alive b).mp alive
      rw [List.getElem?_eq_none outside] at at_
      cases at_
    · cases block with
      | none =>
        by_contra alive
        obtain ⟨block,there⟩ := (good.alive b).mp alive
        rw [at_] at there
        cases there
      | some block => exact good.fits at_
  · rintro ⟨outside,fits⟩
    have alive (b : Nat) : s.live b ≠ 0 ↔ ∃ block, s.blocks[b]? = some (some block) := by
      constructor
      · intro alive
        have inside : b < s.blocks.length := by
          by_contra beyond
          exact alive (outside b (by omega))
        cases at_ : s.blocks[b] with
        | none => exact absurd (fits b none (List.getElem?_eq_some_iff.mpr ⟨inside,at_⟩)) alive
        | some block => exact ⟨block,List.getElem?_eq_some_iff.mpr ⟨inside,at_⟩⟩
      · rintro ⟨block,at_⟩
        exact (fits b _ at_).1
    refine ⟨defined,pairs,own,alive,fun b block at_ => (fits b _ at_).2.1,fun b live => ?_⟩
    obtain ⟨block,at_⟩ := (alive b).mp live
    simp only [objPtr,at_,Option.join_some,Option.bind_some]
    exact (fits b _ at_).2.2

/-- A step that touches one block and the handles of that block only. -/
structure Touches (s s' : Refs) (b : Nat) (block : Option Shared) : Prop where
  inside : b < s.blocks.length
  blocks : s'.blocks = s.blocks.set b block
  undefined : s'.undefined = s.undefined
  pairs : s'.holders.length = s.holders.length
  own : ∀ (h : Nat) shr, s'.holders[h]? = some (some shr) → s.holders[h]? = some (some shr)
  live : ∀ c ≠ b, s'.live c = s.live c
  held : ∀ c ≠ b, s'.held c = s.held c

theorem Touches.good {s s' : Refs} {b : Nat} {block : Option Shared} (touches : Touches s s' b block)
    (good : s.Good) : s'.Good ↔ s'.Fits b block := by
  have before := (good_iff_fits good.defined good.pairs good.own).mp good
  have length : s'.blocks.length = s.blocks.length := by rw [touches.blocks,List.length_set]
  have after := good_iff_fits (s := s') (by rw [touches.undefined,good.defined])
    (by rw [touches.pairs,length,good.pairs])
    (fun h shr at_ => good.own h shr (touches.own h shr at_))
  rw [after]
  constructor
  · intro all
    apply all.2 b block
    rw [touches.blocks,List.getElem?_set_self touches.inside]
  · intro here
    refine ⟨fun c outside => ?_,fun c block' at_ => ?_⟩
    · have inside := touches.inside
      rw [touches.live c (by omega)]
      exact before.1 c (by omega)
    · by_cases same : c = b
      · subst same
        rw [touches.blocks,List.getElem?_set_self touches.inside] at at_
        cases Option.some.inj at_
        exact here
      · rw [touches.blocks,List.getElem?_set_ne (Ne.symm same)] at at_
        have fits := before.2 c block' at_
        cases block' with
        | none => exact (touches.live c same).trans fits
        | some block' =>
          rw [Fits,touches.live c same,touches.held c same]
          exact fits

theorem live_block {s : Refs} (good : s.Good) {b : Nat} (alive : s.live b ≠ 0) :
    ∃ block, s.blocks[b]? = some (some block) ∧ b < s.blocks.length := by
  obtain ⟨block,at_⟩ := (good.alive b).mp alive
  exact ⟨block,at_,(List.getElem?_eq_some_iff.mp at_).1⟩

theorem undefined_bad {s : Refs} (undefined : s.undefined = true) : ¬ s.Good := by
  intro good
  rw [good.defined] at undefined
  cases undefined

theorem copyFrom_null (s : Refs) : ¬ (s.copyFrom none).Good := undefined_bad rfl

theorem copyFrom_good {s : Refs} (good : s.Good) {b : Nat} (alive : s.live b ≠ 0) :
    (s.copyFrom (some b)).Good ↔ s.live b < 2^16-1 := by
  obtain ⟨block,at_,inside⟩ := live_block good alive
  obtain ⟨_,cnt,obj⟩ := good.fits at_
  have copied : s.copyFrom (some b) = {s with
      blocks := s.blocks.set b block.retain, refs := s.refs ++ [some (some b)]} := by
    rw [copyFrom,access_eq _ at_]
  have live (c : Nat) : (s.copyFrom (some b)).live c = s.live c + (if b = c then 1 else 0) := by
    rw [copied]
    simp only [Refs.live,List.count_append,List.count_singleton,beq_iff_eq,Option.some.injEq]
    omega
  have touches : Touches s (s.copyFrom (some b)) b block.retain := by
    refine ⟨inside,by rw [copied],by rw [copied],by rw [copied],?_,?_,?_⟩
    · rw [copied]
      exact fun h shr held => held
    · intro c other
      rw [live,if_neg (Ne.symm other),Nat.add_zero]
    · rw [copied]
      exact fun c _ => rfl
  rw [touches.good good]
  have held : (s.copyFrom (some b)).held b = s.held b := by rw [copied]; rfl
  simp only [Fits,Shared.retain,live,if_true,held]
  have bound := block._cnt.toNat_lt
  constructor
  · rintro ⟨_,counted,_⟩
    by_contra many
    rw [cnt_wrap (by omega)] at counted
    omega
  · intro room
    exact ⟨by omega,by rw [cnt_retain (by omega),cnt],obj⟩

theorem move_good {s : Refs} (good : s.Good) {r : Nat} {shr : Option Nat}
    (at_ : s.refs[r]? = some (some shr)) : (s.move r shr).Good := by
  have live (c : Nat) : (s.move r shr).live c = s.live c := by
    have replaced := count_set at_ (some none) (some (some c))
    simp only [Refs.live,move,List.count_append,List.count_singleton,beq_iff_eq,
      Option.some.injEq,reduceCtorEq,if_false] at replaced ⊢
    omega
  refine ⟨good.defined,good.pairs,good.own,?_,?_,?_⟩
  · intro b
    rw [live]
    exact good.alive b
  · intro b block found
    rw [live]
    exact good.counted b block found
  · intro b
    rw [live]
    exact good.objPtr b

/-- Releasing a block takes one from its count, or the block away with its last handle. -/
theorem release_fits {s s' : Refs} {b : Nat} {block : Shared} (fits : s.Fits b (some block))
    (live : s'.live b = s.live b - 1) {obj : Option Nat}
    (held : obj = if s'.held b then some b else none) :
    s'.Fits b (Shared.release ⟨obj,block._cnt⟩) := by
  obtain ⟨alive,cnt,_⟩ := fits
  have less := cnt_release (n := block._cnt) (by omega)
  simp only [Shared.release]
  split
  next zero =>
    rw [zero] at less
    have last : (0 : UInt16).toNat = 0 := rfl
    rw [Fits]
    omega
  next more =>
    have nonzero : (block._cnt - 1).toNat ≠ 0 := fun zero => more (UInt16.toNat_inj.mp zero)
    exact ⟨by omega,by simp only; omega,held⟩

theorem drop_good {s : Refs} (good : s.Good) {r : Nat} {shr : Option Nat}
    (at_ : s.refs[r]? = some (some shr)) : (s.drop r shr).Good := by
  cases shr with
  | none =>
    have live (c : Nat) : (s.drop r none).live c = s.live c := by
      have replaced := count_set at_ none (some (some c))
      simp only [Option.some.injEq,reduceCtorEq,if_false] at replaced
      simp only [Refs.live,drop,releaseRef,Option.isSome_none,Bool.false_eq_true,if_false]
      omega
    refine ⟨good.defined,good.pairs,good.own,?_,?_,?_⟩
    · intro b
      rw [live]
      exact good.alive b
    · intro b block found
      rw [live]
      exact good.counted b block found
    · intro b
      rw [live]
      exact good.objPtr b
  | some b =>
    obtain ⟨block,there,inside⟩ := live_block good (live_refs at_)
    have dropped : s.drop r (some b) = {s with
        blocks := s.blocks.set b block.release, refs := s.refs.set r none} := by
      rw [drop,releaseRef,if_pos (by rfl),access_eq _ there]
    have live (c : Nat) : (s.drop r (some b)).live c + (if b = c then 1 else 0) = s.live c := by
      have replaced := count_set at_ none (some (some c))
      simp only [Option.some.injEq,reduceCtorEq,if_false] at replaced
      rw [dropped]
      simp only [Refs.live]
      omega
    have touches : Touches s (s.drop r (some b)) b block.release := by
      refine ⟨inside,by rw [dropped],by rw [dropped],by rw [dropped],?_,?_,?_⟩
      · rw [dropped]
        exact fun h shr held => held
      · intro c other
        have same := live c
        rwa [if_neg (Ne.symm other),Nat.add_zero] at same
      · rw [dropped]
        exact fun c _ => rfl
    have fits := good.fits there
    have one := live b
    rw [if_pos rfl] at one
    have held : (s.drop r (some b)).held b = s.held b := by rw [dropped]; rfl
    refine (touches.good good).mpr (release_fits fits (by omega) ?_)
    rw [held]
    exact fits.2.2

theorem dropHolder_good {s : Refs} (good : s.Good) {h : Nat} {shr : Option Nat}
    (at_ : s.holders[h]? = some (some shr)) : (s.dropHolder h shr).Good := by
  have own := good.own h shr at_
  subst own
  obtain ⟨block,there,inside⟩ := live_block good (live_holders at_)
  have present := (List.getElem?_eq_some_iff.mp at_).1
  let cleaned : Shared := {block with _obj := none}
  have dropped : s.dropHolder h (some h) = {s with
      blocks := s.blocks.set h cleaned.release, holders := s.holders.set h none} := by
    have again : (s.blocks.set h block.clean)[h]? = some (some cleaned) := by
      rw [List.getElem?_set_self inside]
      rfl
    rw [dropHolder,releaseRef,if_pos (by rfl),access_eq _ there,access_eq _ again,List.set_set]
  have live (c : Nat) : (s.dropHolder h (some h)).live c + (if h = c then 1 else 0) = s.live c := by
    have replaced := count_set at_ none (some (some c))
    simp only [Option.some.injEq,reduceCtorEq,if_false] at replaced
    rw [dropped]
    simp only [Refs.live]
    omega
  have held : (s.dropHolder h (some h)).held h = false := by
    rw [dropped]
    simp [Refs.held,List.getElem?_set_self present]
  have touches : Touches s (s.dropHolder h (some h)) h cleaned.release := by
    refine ⟨inside,by rw [dropped],by rw [dropped],by rw [dropped,List.length_set],?_,?_,?_⟩
    · intro g shr found
      rw [dropped] at found
      by_cases same : h = g
      · subst same
        rw [List.getElem?_set_self present] at found
        cases found
      · rwa [List.getElem?_set_ne same] at found
    · intro c other
      have same := live c
      rwa [if_neg (Ne.symm other),Nat.add_zero] at same
    · intro c other
      rw [dropped]
      simp only [Refs.held]
      rw [List.getElem?_set_ne (Ne.symm other)]
  have one := live h
  rw [if_pos rfl] at one
  refine (touches.good good).mpr (release_fits (good.fits there) (by omega) ?_)
  rw [held]
  rfl

theorem holder_good {s : Refs} (good : s.Good) : s.holder.Good := by
  have pairs := good.pairs
  have fresh : (s.blocks ++ [some (Shared.new s.holders.length)])[s.blocks.length]? =
      some (some (Shared.new s.holders.length)) := List.getElem?_concat_length
  have made : s.holder = {s with
      blocks := s.blocks ++ [some ⟨some s.blocks.length,1⟩]
      holders := s.holders ++ [some (some s.blocks.length)]} := by
    rw [holder,access_eq _ fresh,List.set_append_right _ _ (Nat.le_refl _),Nat.sub_self,pairs]
    rfl
  have live (c : Nat) : s.holder.live c = s.live c + (if s.blocks.length = c then 1 else 0) := by
    rw [made]
    simp only [Refs.live,List.count_append,List.count_singleton,beq_iff_eq,Option.some.injEq]
    omega
  have before := (good_iff_fits good.defined good.pairs good.own).mp good
  refine (good_iff_fits ?_ ?_ ?_).mpr ⟨?_,?_⟩
  · rw [made]
    exact good.defined
  · rw [made,List.length_append,List.length_append,pairs]
    rfl
  · intro h shr found
    rw [made] at found
    by_cases old : h < s.holders.length
    · rw [List.getElem?_append_left old] at found
      exact good.own h shr found
    · rw [List.getElem?_append_right (by omega)] at found
      obtain ⟨zero,same⟩ := List.getElem?_eq_some_iff.mp found
      simp only [List.length_singleton] at zero
      simp only [List.getElem_singleton,Option.some.injEq] at same
      rw [← same]
      congr 1
      omega
  · intro b outside
    rw [made,List.length_append,List.length_singleton] at outside
    rw [live,before.1 b (by omega),if_neg (by omega)]
  · intro b block found
    have kept (c : Nat) (old : c ≠ s.blocks.length) : s.holder.held c = s.held c := by
      rw [made]
      simp only [Refs.held]
      by_cases inside : c < s.holders.length
      · rw [List.getElem?_append_left inside]
      · have beyond : (s.holders ++ [some (some s.blocks.length)]).length ≤ c := by
          rw [List.length_append,List.length_singleton]
          omega
        rw [List.getElem?_eq_none beyond,List.getElem?_eq_none (by omega)]
    by_cases old : b < s.blocks.length
    · have there : s.blocks[b]? = some block := by
        rw [made] at found
        rwa [List.getElem?_append_left old] at found
      have fits := before.2 b block there
      have same : s.holder.live b = s.live b := by rw [live,if_neg (by omega),Nat.add_zero]
      cases block with
      | none => exact same.trans fits
      | some block =>
        rw [Fits,same,kept b (by omega)]
        exact fits
    · have last : b = s.blocks.length := by
        have inside := (List.getElem?_eq_some_iff.mp found).1
        rw [made,List.length_append,List.length_singleton] at inside
        omega
      have block_eq : block = some ⟨some s.blocks.length,1⟩ := by
        rw [made,last,List.getElem?_concat_length] at found
        exact (Option.some.inj found).symm
      have held : s.holder.held b = true := by
        rw [made,last,← pairs]
        simp [Refs.held]
      rw [block_eq,Fits,live,held,last,before.1 _ (Nat.le_refl _),if_pos rfl]
      exact ⟨by omega,rfl,rfl⟩

theorem copy_step {s s' : Refs} (good : s.Good) {r : Nat}
    (stepped : (s.refs[r]?).join.map s.copyFrom = some s') :
    s'.Good ↔ ∃ b < s.blocks.length, s.refs[r]? = some (some (some b)) ∧ s.live b < 2^16-1 := by
  obtain ⟨shr,found,same⟩ := Option.map_eq_some_iff.mp stepped
  have at_ := Option.join_eq_some_iff.mp found
  subst same
  cases shr with
  | none =>
    refine ⟨fun copied => absurd copied (copyFrom_null s),?_⟩
    rintro ⟨b,_,other,_⟩
    rw [at_] at other
    cases other
  | some b =>
    have alive := live_refs at_
    obtain ⟨_,_,inside⟩ := live_block good alive
    rw [copyFrom_good good alive]
    constructor
    · exact fun room => ⟨b,inside,at_,room⟩
    · rintro ⟨c,_,same,room⟩
      rw [at_] at same
      cases same
      exact room

theorem good_step {s s' : Refs} {op : RefOp} (good : s.Good) (stepped : s.step op = some s') :
    s'.Good ↔ s.Sane op := by
  cases op with
  | holder =>
    cases Option.some.inj stepped
    exact ⟨fun _ => trivial,fun _ => holder_good good⟩
  | dropHolder h =>
    obtain ⟨shr,found,same⟩ := Option.map_eq_some_iff.mp stepped
    rw [← same]
    exact ⟨fun _ => trivial,fun _ => dropHolder_good good (Option.join_eq_some_iff.mp found)⟩
  | getRef h =>
    obtain ⟨shr,found,same⟩ := Option.map_eq_some_iff.mp stepped
    have at_ := Option.join_eq_some_iff.mp found
    have own := good.own h shr at_
    rw [← same,own]
    exact copyFrom_good good (live_holders (by rw [at_,own]))
  | clone r => exact copy_step good stepped
  | copy r => exact copy_step good stepped
  | move r =>
    obtain ⟨shr,found,same⟩ := Option.map_eq_some_iff.mp stepped
    rw [← same]
    exact ⟨fun _ => trivial,fun _ => move_good good (Option.join_eq_some_iff.mp found)⟩
  | drop r =>
    obtain ⟨shr,found,same⟩ := Option.map_eq_some_iff.mp stepped
    rw [← same]
    exact ⟨fun _ => trivial,fun _ => drop_good good (Option.join_eq_some_iff.mp found)⟩

theorem good_start : start.Good := by
  refine ⟨rfl,rfl,?_,?_,?_,?_⟩ <;> simp [start,live]

/-- Counts, blocks and handles agree throughout a run exactly when every copy in it
is of a handle that points to a block with room in its count. -/
theorem refs_good (ops : List RefOp) (s : Refs) (ran : Runs.run step start ops = some s) :
    Runs.Always step Good start ops ↔ Runs.Meets step Sane start ops :=
  Runs.always_iff_meets Good (fun _ _ _ good stepped => good_step good stepped) good_start ran

/-- A handle that outlives its holder. -/
def outliving : List RefOp := [.holder,.getRef 0,.clone 0,.move 1,.drop 1,.dropHolder 0,.drop 0,.drop 2]

theorem refs_good_outliving : Runs.Always step Good start outliving := by
  have ran : (Runs.run step start outliving).isSome = true := by decide
  obtain ⟨s,ran⟩ := Option.isSome_iff_exists.mp ran
  exact (refs_good outliving s ran).mpr (by decide)

/-- A handle, moved from, as the source of a copy. -/
theorem refs_copy_moved : ∃ s, Runs.run step start [.holder,.getRef 0,.move 0,.copy 0] = some s ∧
    ¬ s.Good := by
  have ran : (Runs.run step start [.holder,.getRef 0,.move 0,.copy 0]).map undefined = some true := by
    decide
  obtain ⟨s,ran,undefined⟩ := Option.map_eq_some_iff.mp ran
  exact ⟨s,ran,undefined_bad undefined⟩

end Refs

end Pworld.Object
