import Pworld.Input.CommandInput
import Mathlib.Data.List.Sublists

/-! Which files the server runs as scripts, at its start and when they are loaded again. -/
namespace Pworld.Script

open Input (strcasecmp strcasecmp_zero)

abbrev Path := Bytes

/-- What `readdir` gives one after the other: regular files, directories and other things. -/
inductive Dir where
  | nil
  | reg (name : Bytes) (rest : Dir)
  | dir (name : Bytes) (entries rest : Dir)
  | other (name : Bytes) (rest : Dir)

-- '/' and '.'
def slash : UInt8 := 47
def dot : UInt8 := 46

def hidden (name : Bytes) : Bool := name.head? = some dot

/-- What is added to `files`. -/
def ScanDir (dir : Path) : Dir → List Path
  | .nil => []
  | .reg name rest => (if hidden name then [] else [dir ++ slash::name]) ++ ScanDir dir rest
  | .dir name entries rest =>
    (if hidden name then [] else ScanDir (dir ++ slash::name) entries) ++ ScanDir dir rest
  | .other _ rest => ScanDir dir rest

/-- From the last such character on. -/
def strrchr (c : UInt8) : Bytes → Option Bytes
  | [] => none
  | b::s =>
    match strrchr c s with
    | some p => some p
    | none => if b = c then some (b::s) else none

-- ".lua" and ".once"
def lua : Bytes := [46,108,117,97]
def once : Bytes := [46,111,110,99,101]

def _is_load_file (name : Path) : Bool :=
  match strrchr dot name with
  | none => false
  | some p => strcasecmp p lua = 0 || strcasecmp p once = 0

def _is_reload_script (name : Path) : Bool :=
  match strrchr dot name with
  | none => false
  | some p => strcasecmp p lua = 0

namespace Dir

/-- A regular file is there, in these directories. -/
inductive At : Dir → List Bytes → Prop where
  | here (name : Bytes) (rest : Dir) : At (.reg name rest) [name]
  | inside (name : Bytes) {entries : Dir} (rest : Dir) {names : List Bytes} (at_ : At entries names) :
    At (.dir name entries rest) (name::names)
  | past_reg (name : Bytes) {rest : Dir} {names : List Bytes} (at_ : At rest names) :
    At (.reg name rest) names
  | past_dir (name : Bytes) (entries : Dir) {rest : Dir} {names : List Bytes} (at_ : At rest names) :
    At (.dir name entries rest) names
  | past_other (name : Bytes) {rest : Dir} {names : List Bytes} (at_ : At rest names) :
    At (.other name rest) names

/-- The names of a directory. -/
def names : Dir → List Bytes
  | .nil => []
  | .reg name rest | .dir name _ rest | .other name rest => name::rest.names

/-- As a file system has it: a name is there once, and has no slash and no zero. -/
def Proper : Dir → Prop
  | .nil => True
  | .reg name rest | .other name rest => name ∉ rest.names ∧ slash ∉ name ∧ 0 ∉ name ∧ rest.Proper
  | .dir name entries rest =>
    name ∉ rest.names ∧ slash ∉ name ∧ 0 ∉ name ∧ entries.Proper ∧ rest.Proper

end Dir

/-- The path of a file. -/
def path (dir : Path) (names : List Bytes) : Path := dir ++ names.flatMap (slash::·)

theorem path_cons (dir : Path) (name : Bytes) (names : List Bytes) :
    path dir (name::names) = path (dir ++ slash::name) names := by
  simp [path]

/-- What is found: the regular files that are not hidden, nor in a directory that is. -/
theorem mem_ScanDir {dir p : Path} {d : Dir} : p ∈ ScanDir dir d ↔
    ∃ names, d.At names ∧ (∀ name ∈ names, hidden name = false) ∧ p = path dir names := by
  induction d generalizing dir with
  | nil =>
    constructor
    · intro member
      cases member
    · rintro ⟨names,at_,_⟩
      cases at_
  | reg name rest ih =>
    rw [ScanDir,List.mem_append,ih]
    constructor
    · rintro (here | ⟨names,at_,visible,same⟩)
      · split at here
        next => cases here
        next shown =>
          rw [List.mem_singleton.mp here]
          refine ⟨[name],.here name rest,?_,by simp [path]⟩
          intro n member
          rw [List.mem_singleton.mp member]
          exact eq_false_of_ne_true shown
      · exact ⟨names,.past_reg name at_,visible,same⟩
    · rintro ⟨names,at_,visible,same⟩
      cases at_ with
      | here =>
        left
        rw [if_neg (ne_true_of_eq_false (visible name List.mem_cons_self)),same]
        simp [path]
      | past_reg _ at_ => exact .inr ⟨names,at_,visible,same⟩
  | dir name entries rest ihEntries ih =>
    rw [ScanDir,List.mem_append,ih]
    constructor
    · rintro (inside | ⟨names,at_,visible,same⟩)
      · split at inside
        next => cases inside
        next shown =>
          obtain ⟨names,at_,visible,same⟩ := ihEntries.mp inside
          refine ⟨name::names,.inside name rest at_,?_,by rw [same,path_cons]⟩
          intro n member
          rcases List.mem_cons.mp member with rfl | later
          · exact eq_false_of_ne_true shown
          · exact visible n later
      · exact ⟨names,.past_dir name entries at_,visible,same⟩
    · rintro ⟨names,at_,visible,same⟩
      cases at_ with
      | inside _ _ at_ =>
        left
        rw [if_neg (ne_true_of_eq_false (visible name List.mem_cons_self)),ihEntries]
        exact ⟨_,at_,fun n member => visible n (List.mem_cons_of_mem _ member),
          by rw [same,path_cons]⟩
      | past_dir _ _ at_ => exact .inr ⟨names,at_,visible,same⟩
  | other name rest ih =>
    rw [ScanDir,ih]
    constructor
    · rintro ⟨names,at_,rest_⟩
      exact ⟨names,.past_other name at_,rest_⟩
    · rintro ⟨names,at_,rest_⟩
      cases at_ with
      | past_other _ at_ => exact ⟨names,at_,rest_⟩

theorem Dir.At.first {d : Dir} {names : List Bytes} (at_ : d.At names) (proper : d.Proper) :
    ∃ name rest, names = name::rest ∧ name ∈ d.names ∧ slash ∉ name := by
  induction at_ with
  | here name rest => exact ⟨name,[],rfl,List.mem_cons_self,proper.2.1⟩
  | @inside name entries rest names at_ ih => exact ⟨name,names,rfl,List.mem_cons_self,proper.2.1⟩
  | past_reg name at_ ih =>
    obtain ⟨n,ns,same,member,plain⟩ := ih proper.2.2.2
    exact ⟨n,ns,same,List.mem_cons_of_mem _ member,plain⟩
  | past_dir name entries at_ ih =>
    obtain ⟨n,ns,same,member,plain⟩ := ih proper.2.2.2.2
    exact ⟨n,ns,same,List.mem_cons_of_mem _ member,plain⟩
  | past_other name at_ ih =>
    obtain ⟨n,ns,same,member,plain⟩ := ih proper.2.2.2
    exact ⟨n,ns,same,List.mem_cons_of_mem _ member,plain⟩

theorem Dir.At.plain {d : Dir} {names : List Bytes} (at_ : d.At names) (proper : d.Proper) :
    ∀ name ∈ names, slash ∉ name ∧ 0 ∉ name := by
  induction at_ with
  | here name rest =>
    intro n member
    rw [List.mem_singleton.mp member]
    exact ⟨proper.2.1,proper.2.2.1⟩
  | @inside name entries rest names at_ ih =>
    intro n member
    rcases List.mem_cons.mp member with rfl | later
    · exact ⟨proper.2.1,proper.2.2.1⟩
    · exact ih proper.2.2.2.1 n later
  | past_reg name at_ ih => exact ih proper.2.2.2
  | past_dir name entries at_ ih => exact ih proper.2.2.2.2
  | past_other name at_ ih => exact ih proper.2.2.2

/-- The first name of a path below a directory. -/
def firstName (dir p : Path) : Bytes := (p.drop (dir.length + 1)).takeWhile (· ≠ slash)

theorem firstName_path {dir : Path} {name : Bytes} (plain : slash ∉ name) (names : List Bytes) :
    firstName dir (path dir (name::names)) = name := by
  have word : ∀ a ∈ name, decide (a ≠ slash) = true := by
    intro a member
    rw [decide_eq_true_eq]
    rintro rfl
    exact plain member
  have split : path dir (name::names) = (dir ++ [slash]) ++ (name ++ names.flatMap (slash::·)) := by
    simp [path]
  have length : (dir ++ [slash]).length = dir.length + 1 := by simp
  rw [firstName,split,← length,List.drop_left,List.takeWhile_append_of_pos word]
  cases names with
  | nil => simp
  | cons n ns => simp

theorem firstName_mem {dir p : Path} {d : Dir} (proper : d.Proper) (member : p ∈ ScanDir dir d) :
    firstName dir p ∈ d.names := by
  obtain ⟨names,at_,_,rfl⟩ := mem_ScanDir.mp member
  obtain ⟨name,rest,rfl,there,plain⟩ := at_.first proper
  rwa [firstName_path plain]

/-- No file is found twice. -/
theorem ScanDir_nodup {dir : Path} {d : Dir} (proper : d.Proper) : (ScanDir dir d).Nodup := by
  induction d generalizing dir with
  | nil => exact List.nodup_nil
  | reg name rest ih =>
    obtain ⟨fresh,plain,_,proper⟩ := proper
    rw [ScanDir]
    refine List.nodup_append.mpr ⟨?_,ih proper,?_⟩
    · split
      · exact List.nodup_nil
      · exact List.nodup_singleton _
    · rintro p here q later rfl
      split at here
      next => cases here
      next =>
        have same : p = path dir [name] := by
          rw [List.mem_singleton.mp here]
          simp [path]
        apply fresh
        have known := firstName_mem proper later
        rwa [same,firstName_path plain] at known
  | dir name entries rest ihEntries ih =>
    obtain ⟨fresh,plain,_,properEntries,proper⟩ := proper
    rw [ScanDir]
    refine List.nodup_append.mpr ⟨?_,ih proper,?_⟩
    · split
      · exact List.nodup_nil
      · exact ihEntries properEntries
    · rintro p inside q later rfl
      split at inside
      next => cases inside
      next =>
        obtain ⟨names,_,_,same⟩ := mem_ScanDir.mp inside
        apply fresh
        have known := firstName_mem proper later
        rwa [same,← path_cons,firstName_path plain] at known
  | other name rest ih => exact ih proper.2.2.2

theorem strrchr_append (c : UInt8) (a b : Bytes) :
    strrchr c (a ++ b) = (strrchr c b).or ((strrchr c a).map (· ++ b)) := by
  induction a with
  | nil => cases h : strrchr c b <;> simp [strrchr,h]
  | cons x a ih =>
    rw [List.cons_append,strrchr,ih]
    cases strrchr c b with
    | some p => simp
    | none =>
      rw [strrchr]
      cases strrchr c a with
      | some p => simp
      | none =>
        by_cases same : x = c
        · simp [same]
        · simp [same]

theorem strrchr_suffix {c : UInt8} {s p : Bytes} (found : strrchr c s = some p) : p <:+ s := by
  induction s with
  | nil => cases found
  | cons b s ih =>
    rw [strrchr] at found
    cases later : strrchr c s with
    | some q =>
      rw [later] at found
      cases found
      exact (ih later).trans (List.suffix_cons b s)
    | none =>
      rw [later] at found
      dsimp only at found
      split at found
      next =>
        cases found
        exact List.suffix_rfl
      next => cases found

/-- With a slash in it, it is no extension. -/
theorem extension_slash {p ext : Bytes} (plain : 0 ∉ p) (plainExt : 0 ∉ ext) (slashed : slash ∈ p)
    (none_ : slash ∉ ext.map Input.tolower) : strcasecmp p ext ≠ 0 := by
  intro same
  rw [strcasecmp_zero plain plainExt] at same
  apply none_
  rw [← same]
  exact List.mem_map.mpr ⟨slash,slashed,rfl⟩

theorem tolower_dot {c : UInt8} : Input.tolower c = dot ↔ c = dot := by
  unfold Input.tolower dot
  split
  next upper =>
    have high := UInt8.le_iff_toNat_le.mp upper.1
    have low := UInt8.le_iff_toNat_le.mp upper.2
    constructor
    · intro same
      have value := congrArg UInt8.toNat same
      rw [UInt8.toNat_add] at value
      simp at value high low
      omega
    · rintro rfl
      exact absurd high (by decide)
  next => exact Iff.rfl

theorem strrchr_none {c : UInt8} {s : Bytes} (absent : c ∉ s) : strrchr c s = none := by
  induction s with
  | nil => rfl
  | cons b s ih =>
    rw [strrchr,ih (List.not_mem_of_not_mem_cons absent)]
    exact if_neg (List.ne_of_not_mem_cons absent).symm

/-- A name ends with an extension, in any case of letters. -/
def Extended (name ext : Bytes) : Prop := ∃ stem e, name = stem ++ e ∧ e.map Input.tolower = ext

theorem extended_iff {name ext rest : Bytes} (plain : 0 ∉ name) (plainExt : 0 ∉ ext)
    (small : ext.map Input.tolower = ext) (same : ext = dot::rest) (one : dot ∉ rest) :
    (∃ p, strrchr dot name = some p ∧ strcasecmp p ext = 0) ↔ Extended name ext := by
  constructor
  · rintro ⟨p,found,matches_⟩
    obtain ⟨stem,split⟩ := strrchr_suffix found
    refine ⟨stem,p,split.symm,?_⟩
    have plainP : 0 ∉ p := fun zero => plain ((strrchr_suffix found).subset zero)
    rwa [strcasecmp_zero plainP plainExt,small] at matches_
  · rintro ⟨stem,e,rfl,lower⟩
    have plainE : 0 ∉ e := fun zero => plain (List.mem_append_right _ zero)
    have last : strrchr dot e = some e := by
      rw [same] at lower
      obtain ⟨b,e',rfl,first,others⟩ := List.map_eq_cons_iff.mp lower
      have absent : dot ∉ e' := by
        intro member
        apply one
        rw [← others]
        exact List.mem_map.mpr ⟨dot,member,rfl⟩
      rw [strrchr,strrchr_none absent]
      exact if_pos (tolower_dot.mp first)
    refine ⟨e,?_,?_⟩
    · rw [strrchr_append,last]
      rfl
    · rw [strcasecmp_zero plainE plainExt,small,lower]

/-- The extension of a path is that of the file's own name. -/
theorem strrchr_path {front last p : Bytes} (found : strrchr dot (front ++ slash::last) = some p) :
    strrchr dot last = some p ∨ strrchr dot last = none ∧ slash ∈ p := by
  have own : strrchr dot (slash::last) = strrchr dot last := by
    rw [strrchr]
    cases strrchr dot last <;> rfl
  rw [strrchr_append,own] at found
  cases later : strrchr dot last with
  | some q =>
    rw [later] at found
    exact .inl found
  | none =>
    rw [later,Option.none_or] at found
    obtain ⟨q,_,rfl⟩ := Option.map_eq_some_iff.mp found
    exact .inr ⟨rfl,List.mem_append_right _ List.mem_cons_self⟩

theorem extension_path {front last ext : Bytes} (plain : 0 ∉ front ++ slash::last)
    (plainExt : 0 ∉ ext) (none_ : slash ∉ ext.map Input.tolower) :
    (∃ p, strrchr dot (front ++ slash::last) = some p ∧ strcasecmp p ext = 0) ↔
      ∃ p, strrchr dot last = some p ∧ strcasecmp p ext = 0 := by
  constructor
  · rintro ⟨p,found,matches_⟩
    rcases strrchr_path found with own | ⟨_,slashed⟩
    · exact ⟨p,own,matches_⟩
    · have plainP : 0 ∉ p := fun zero => plain ((strrchr_suffix found).subset zero)
      exact absurd matches_ (extension_slash plainP plainExt slashed none_)
  · rintro ⟨p,found,matches_⟩
    refine ⟨p,?_,matches_⟩
    have own : strrchr dot (slash::last) = some p := by rw [strrchr,found]
    rw [strrchr_append,own]
    rfl

theorem load_iff {front last : Bytes} (plain : 0 ∉ front ++ slash::last) :
    _is_load_file (front ++ slash::last) = true ↔ Extended last lua ∨ Extended last once := by
  have plainLast : 0 ∉ last := fun zero =>
    plain (List.mem_append_right _ (List.mem_cons_of_mem _ zero))
  rw [← extended_iff plainLast (by decide) (by decide) (rfl : lua = dot::[108,117,97]) (by decide),
    ← extended_iff plainLast (by decide) (by decide) (rfl : once = dot::[111,110,99,101])
      (by decide),
    ← extension_path plain (by decide) (by decide),← extension_path plain (by decide) (by decide),
    _is_load_file]
  cases strrchr dot (front ++ slash::last) with
  | none => simp
  | some p => simp

theorem reload_iff {front last : Bytes} (plain : 0 ∉ front ++ slash::last) :
    _is_reload_script (front ++ slash::last) = true ↔ Extended last lua := by
  have plainLast : 0 ∉ last := fun zero =>
    plain (List.mem_append_right _ (List.mem_cons_of_mem _ zero))
  rw [← extended_iff plainLast (by decide) (by decide) (rfl : lua = dot::[108,117,97]) (by decide),
    ← extension_path plain (by decide) (by decide),_is_reload_script]
  cases strrchr dot (front ++ slash::last) with
  | none => simp
  | some p => simp

abbrev Directory := {d : Dir // d.Proper}

-- "./world"
def worldDir : Path := [46,47,119,111,114,108,100]

-- "0.sys_base", "1.pub_config" and "gs_scripts"
def sys_base : Bytes := [48,46,115,121,115,95,98,97,115,101]
def pub_config : Bytes := [49,46,112,117,98,95,99,111,110,102,105,103]
def gs_scripts : Bytes := [103,115,95,115,99,114,105,112,116,115]

/-- What `opendir` finds. -/
structure Files where
  base : Option Directory
  config : Option Directory
  scripts : Option Directory

def scan (name : Bytes) : Option Directory → List Path
  | none => []
  | some d => ScanDir (path worldDir [name]) d.val

namespace Files

variable (w : Files)

/-- The files given to `ExecFile`, one after the other. -/
def LoadScripts : List Path :=
  (scan sys_base w.base ++ scan pub_config w.config ++ scan gs_scripts w.scripts).filter
    _is_load_file

def ReloadScripts : List Path := (scan gs_scripts w.scripts).filter _is_reload_script

/-- The directories below `./world` that are scanned. -/
def roots : List (Bytes × Option Directory) :=
  [(sys_base,w.base),(pub_config,w.config),(gs_scripts,w.scripts)]

end Files

/-- A file that is not hidden, nor in a hidden directory. -/
structure Holds (root : Bytes) (d : Directory) (names : List Bytes) (p : Path) : Prop where
  at_ : d.val.At names
  visible : ∀ name ∈ names, hidden name = false
  named : p = path worldDir (root::names)

theorem mem_scan {root : Bytes} {found : Option Directory} {p : Path} :
    p ∈ scan root found ↔ ∃ d names, found = some d ∧ Holds root d names p := by
  have below (names : List Bytes) : path (path worldDir [root]) names = path worldDir (root::names) := by
    simp [path]
  cases found with
  | none => simp [scan]
  | some d =>
    rw [scan,mem_ScanDir]
    constructor
    · rintro ⟨names,at_,visible,same⟩
      exact ⟨d,names,rfl,at_,visible,by rw [same,below]⟩
    · rintro ⟨d,names,same,at_,visible,named⟩
      cases same
      exact ⟨names,at_,visible,by rw [named,below]⟩

theorem Holds.concat {root : Bytes} {d : Directory} {names : List Bytes} {p : Path}
    (holds : Holds root d names p) : ∃ front last, names = front ++ [last] := by
  obtain ⟨first,rest,some_,_⟩ := holds.at_.first d.property
  rcases List.eq_nil_or_concat names with none_ | ⟨front,last,split⟩
  · rw [none_] at some_
    cases some_
  · exact ⟨front,last,split.trans List.concat_eq_append⟩

/-- The path ends with the file's own name, and is a string. -/
theorem Holds.split {root last : Bytes} {d : Directory} {front : List Bytes} {p : Path}
    (holds : Holds root d (front ++ [last]) p) (plain : 0 ∉ root) :
    p = path worldDir (root::front) ++ slash::last ∧
      0 ∉ path worldDir (root::front) ++ slash::last := by
  have same : path worldDir (root::(front ++ [last])) =
      path worldDir (root::front) ++ slash::last := by
    simp [path]
  refine ⟨holds.named.trans same,?_⟩
  rw [← same]
  intro zero
  rcases List.mem_append.mp zero with base | more
  · exact absurd base (by decide)
  · obtain ⟨name,member,there⟩ := List.mem_flatMap.mp more
    rcases List.mem_cons.mp there with bad | there
    · exact absurd bad (by decide)
    · rcases List.mem_cons.mp member with rfl | member
      · exact plain there
      · exact (holds.at_.plain d.property name member).2 there

theorem scan_nodup (root : Bytes) (found : Option Directory) : (scan root found).Nodup := by
  cases found with
  | none => exact List.nodup_nil
  | some d => exact ScanDir_nodup d.property

theorem firstName_scan {root : Bytes} {found : Option Directory} {p : Path} (plain : slash ∉ root)
    (member : p ∈ scan root found) : firstName worldDir p = root := by
  obtain ⟨d,names,_,holds⟩ := mem_scan.mp member
  rw [holds.named,firstName_path plain]

theorem scan_apart {a b : Bytes} (plain : slash ∉ a) (plain' : slash ∉ b) (apart : a ≠ b)
    (found found' : Option Directory) : ∀ p ∈ scan a found, ∀ q ∈ scan b found', p ≠ q := by
  rintro p here q there rfl
  exact apart ((firstName_scan plain here).symm.trans (firstName_scan plain' there))

/-- At the start every visible script in the three directories is run once; the files that are run
again are scripts of the third, those that are to be run once left out. -/
theorem load_scripts (w : Files) :
    (∀ p, p ∈ w.LoadScripts ↔ ∃ root d names name, (root,some d) ∈ w.roots ∧
      Holds root d (names ++ [name]) p ∧ (Extended name lua ∨ Extended name once)) ∧
    w.LoadScripts.Nodup ∧
    (∀ p, p ∈ w.ReloadScripts ↔ ∃ d names name, w.scripts = some d ∧
      Holds gs_scripts d (names ++ [name]) p ∧ Extended name lua) ∧
    w.ReloadScripts.Sublist w.LoadScripts := by
  have member (p : Path) : p ∈ scan sys_base w.base ++ scan pub_config w.config ++
      scan gs_scripts w.scripts ↔ ∃ root d names, (root,some d) ∈ w.roots ∧ Holds root d names p ∧
        0 ∉ root := by
    rw [List.mem_append,List.mem_append,mem_scan,mem_scan,mem_scan]
    constructor
    · rintro ((⟨d,names,found,holds⟩ | ⟨d,names,found,holds⟩) | ⟨d,names,found,holds⟩)
      · exact ⟨sys_base,d,names,by simp [Files.roots,found],holds,by decide⟩
      · exact ⟨pub_config,d,names,by simp [Files.roots,found],holds,by decide⟩
      · exact ⟨gs_scripts,d,names,by simp [Files.roots,found],holds,by decide⟩
    · rintro ⟨root,d,names,there,holds,_⟩
      simp only [Files.roots,List.mem_cons,List.not_mem_nil,or_false,Prod.mk.injEq] at there
      rcases there with ⟨rfl,found⟩ | ⟨rfl,found⟩ | ⟨rfl,found⟩
      · exact .inl (.inl ⟨d,names,found.symm,holds⟩)
      · exact .inl (.inr ⟨d,names,found.symm,holds⟩)
      · exact .inr ⟨d,names,found.symm,holds⟩
  refine ⟨fun p => ?_,?_,fun p => ?_,?_⟩
  · rw [Files.LoadScripts,List.mem_filter,member]
    constructor
    · rintro ⟨⟨root,d,names,there,holds,plain⟩,loads⟩
      obtain ⟨front,last,rfl⟩ := holds.concat
      obtain ⟨same,plain⟩ := holds.split plain
      rw [same] at loads
      exact ⟨root,d,front,last,there,holds,(load_iff plain).mp loads⟩
    · rintro ⟨root,d,front,last,there,holds,extended⟩
      have plain : 0 ∉ root := by
        simp only [Files.roots,List.mem_cons,List.not_mem_nil,or_false,Prod.mk.injEq] at there
        rcases there with ⟨rfl,_⟩ | ⟨rfl,_⟩ | ⟨rfl,_⟩ <;> decide
      refine ⟨⟨root,d,_,there,holds,plain⟩,?_⟩
      obtain ⟨same,plain⟩ := holds.split plain
      rw [same]
      exact (load_iff plain).mpr extended
  · apply List.Nodup.filter
    have first := scan_apart (a := sys_base) (b := pub_config) (by decide) (by decide) (by decide)
      w.base w.config
    have second := scan_apart (a := sys_base) (b := gs_scripts) (by decide) (by decide) (by decide)
      w.base w.scripts
    have third := scan_apart (a := pub_config) (b := gs_scripts) (by decide) (by decide) (by decide)
      w.config w.scripts
    refine List.nodup_append.mpr ⟨List.nodup_append.mpr ⟨scan_nodup _ _,scan_nodup _ _,first⟩,
      scan_nodup _ _,?_⟩
    intro p here q there
    rcases List.mem_append.mp here with base | config
    · exact second p base q there
    · exact third p config q there
  · rw [Files.ReloadScripts,List.mem_filter,mem_scan]
    constructor
    · rintro ⟨⟨d,names,found,holds⟩,loads⟩
      obtain ⟨front,last,rfl⟩ := holds.concat
      obtain ⟨same,plain⟩ := holds.split (by decide)
      rw [same] at loads
      exact ⟨d,front,last,found,holds,(reload_iff plain).mp loads⟩
    · rintro ⟨d,front,last,found,holds,extended⟩
      obtain ⟨same,plain⟩ := holds.split (by decide)
      refine ⟨⟨d,_,found,holds⟩,?_⟩
      rw [same]
      exact (reload_iff plain).mpr extended
  · have both : ∀ p, _is_reload_script p = true → _is_load_file p = true := by
      intro p reload
      unfold _is_reload_script at reload
      unfold _is_load_file
      split at reload
      next => cases reload
      next q found => exact Bool.or_eq_true_iff.mpr (.inl reload)
    have part : (scan gs_scripts w.scripts).filter _is_reload_script =
        ((scan gs_scripts w.scripts).filter _is_load_file).filter _is_reload_script := by
      rw [List.filter_filter]
      apply List.filter_congr
      intro p _
      cases reload : _is_reload_script p with
      | false => rfl
      | true => rw [both p reload]; rfl
    rw [Files.ReloadScripts,Files.LoadScripts,List.filter_append,part]
    exact List.filter_sublist.trans (List.sublist_append_right _ _)

end Pworld.Script
