import Tlpi.Lib.CInt
import Tlpi.Lib.CString
import Tlpi.Lib.File
import Tlpi.Lib.UpdateAll

/-!
# chattr

`15-file-attributes/chattr.c` checks the letters of its mode string against one table and looks
their flags up in another; the two tables have the same letters (`map_code_fsAttrs`), so the lookup
does not fail after the check. Every letter adds its flag to a mask, and every file that can be
opened and whose flags can be read and set gets new flags from its old ones and the mask. The three
ways to combine them may be repeated, so the order of the files does not matter, nor that one of
them is named twice.

The tables lack the letter `S` of the description, and no part of the program checks the operator in
front of the letters: after any other first character it returns 0 and has done nothing.
-/

namespace Tlpi.Chattr

open Tlpi.Lib

/-- An argument of a program, without its NUL: the system allows 32 pages for each. -/
structure Arg where
  bytes : Bytes
  noNul : 0 ∉ bytes
  short : bytes.length < 131072

/-- The attributes of a file, as the `int` that `ioctl` reads and writes. -/
abbrev Flags := BitVec 32

def FS_SECRM_FL : Flags := 0x00000001
def FS_UNRM_FL : Flags := 0x00000002
def FS_COMPR_FL : Flags := 0x00000004
def FS_IMMUTABLE_FL : Flags := 0x00000010
def FS_APPEND_FL : Flags := 0x00000020
def FS_NODUMP_FL : Flags := 0x00000040
def FS_NOATIME_FL : Flags := 0x00000080
def FS_JOURNAL_DATA_FL : Flags := 0x00004000
def FS_NOTAIL_FL : Flags := 0x00008000
def FS_DIRSYNC_FL : Flags := 0x00010000
def FS_TOPDIR_FL : Flags := 0x00020000
def FS_EXTENT_FL : Flags := 0x00080000

/-- A `char` constant. -/
def ch (c : Char) : UInt8 := UInt8.ofNat c.toNat

def ACTION_ADD : UInt8 := ch '+'
def ACTION_REMOVE : UInt8 := ch '-'
def ACTION_ONLY : UInt8 := ch '='

/-- `ATTRS_LIST` -/
def attrsList : Bytes := bytesOf "acdeijstuADT"

/-- `struct attr_table_entry` -/
structure AttrTableEntry where
  code : UInt8
  fsFlag : Flags
  deriving DecidableEq

/-- `fs_attrs` -/
def fsAttrs : List AttrTableEntry :=
  [⟨ch 'a', FS_APPEND_FL⟩,
   ⟨ch 'c', FS_COMPR_FL⟩,
   ⟨ch 'd', FS_NODUMP_FL⟩,
   ⟨ch 'e', FS_EXTENT_FL⟩,
   ⟨ch 'i', FS_IMMUTABLE_FL⟩,
   ⟨ch 'j', FS_JOURNAL_DATA_FL⟩,
   ⟨ch 's', FS_SECRM_FL⟩,
   ⟨ch 't', FS_NOTAIL_FL⟩,
   ⟨ch 'u', FS_UNRM_FL⟩,
   ⟨ch 'A', FS_NOATIME_FL⟩,
   ⟨ch 'D', FS_DIRSYNC_FL⟩,
   ⟨ch 'T', FS_TOPDIR_FL⟩]

/-- `lookup_attr_table_entry()` -/
def lookupAttrTableEntry (attr : UInt8) : Option AttrTableEntry :=
  fsAttrs.find? fun entry => entry.code = attr

/-- `is_valid_attr()` -/
def isValidAttr (attr : UInt8) : Bool := attrsList.any fun c => c = attr

/-- `validate_mode_string()`, false when it ends the program. -/
def validateModeString (modeString : Bytes) : Bool :=
  if toInt32 modeString.length < 2 then false else (modeString.drop 1).all isValidAttr

/-- The loop of `get_mask_for_attrs()`, `none` when it ends the program. -/
def getMaskForAttrs : Bytes → Flags → Option Flags
  | [], mask => some mask
  | attr :: attrs, mask =>
    match lookupAttrTableEntry attr with
    | none => none
    | some entry => getMaskForAttrs attrs (mask ||| entry.fsFlag)

/-- `transform_attrs_add()` -/
def transformAttrsAdd (attrs mask : Flags) : Flags := attrs ||| mask

/-- `transform_attrs_remove()` -/
def transformAttrsRemove (attrs mask : Flags) : Flags := attrs &&& ~~~mask

/-- `transform_attrs_only()` -/
def transformAttrsOnly (_attrs mask : Flags) : Flags := mask

/-- The files and what fails on them: which file a name opens, if any, and under which names the
flags cannot be read or set. Each file is closed before the next is opened, so all get the same
descriptor. -/
structure Sys where
  lookup : Bytes → Option Nat
  getFails : Bytes → Bool
  setFails : Bytes → Bool
  lowestFd : Nat
  lowestFd_lt : lowestFd < 2 ^ 31

/-- What `open(filename, 0)` returns. -/
def Sys.openFile (sys : Sys) (filename : Bytes) : Int :=
  match sys.lookup filename with
  | none => -1
  | some _ => sys.lowestFd

/-- The file that `ioctl` finds behind a descriptor, while only `filename` is open. -/
def Sys.fileOf (sys : Sys) (filename : Bytes) (fd : Int) : Option Nat :=
  if fd = sys.lowestFd then sys.lookup filename else none

/-- One turn of the loop of `do_action()`. -/
def doFile (sys : Sys) (transform : Flags → Flags → Flags) (mask : Flags) (flags : Nat → Flags)
    (filename : Bytes) : Nat → Flags :=
  -- `fd` is a `size_t`: the test for a failed `open` never holds
  let fd := toUInt64 (sys.openFile filename)
  if fd < 0 then flags
  else
    match sys.fileOf filename (toInt32 fd) with
    | none => flags
    | some ino =>
      if sys.getFails filename then flags
      else
        let new := transform (flags ino) mask
        if sys.setFails filename then flags else Function.update flags ino new

/-- `do_action()`: the exit status and the flags. -/
def doAction (sys : Sys) (attrs : Bytes) (files : List Bytes) (transform : Flags → Flags → Flags)
    (flags : Nat → Flags) : Int × (Nat → Flags) :=
  match getMaskForAttrs attrs 0#32 with
  | none => (1, flags)
  | some mask => (0, files.foldl (doFile sys transform mask) flags)

def main (sys : Sys) (modeString : Arg) (files : List Bytes) (flags : Nat → Flags) :
    Int × (Nat → Flags) :=
  if files = [] then (1, flags)
  else if validateModeString modeString.bytes then
    match modeString.bytes with
    | [] => (0, flags)
    | action :: attrs =>
      if action = ACTION_ADD then doAction sys attrs files transformAttrsAdd flags
      else if action = ACTION_REMOVE then doAction sys attrs files transformAttrsRemove flags
      else if action = ACTION_ONLY then doAction sys attrs files transformAttrsOnly flags
      else (0, flags)
  else (1, flags)

/-! ## The letters -/

theorem map_code_fsAttrs : fsAttrs.map AttrTableEntry.code = attrsList := by decide

theorem isValidAttr_iff {attr : UInt8} : isValidAttr attr = true ↔ attr ∈ attrsList := by
  simp [isValidAttr]

theorem lookupAttrTableEntry_of_mem {attr : UInt8} (h : attr ∈ attrsList) :
    ∃ entry ∈ fsAttrs, entry.code = attr ∧ lookupAttrTableEntry attr = some entry := by
  rw [← map_code_fsAttrs, List.mem_map] at h
  obtain ⟨entry, hentry, hcode⟩ := h
  have hsome : (lookupAttrTableEntry attr).isSome :=
    List.find?_isSome.mpr ⟨entry, hentry, decide_eq_true hcode⟩
  obtain ⟨found, hfound⟩ := Option.isSome_iff_exists.mp hsome
  have hcode' : found.code = attr := by simpa using List.find?_some hfound
  exact ⟨found, List.mem_of_find?_eq_some hfound, hcode', hfound⟩

theorem entry_unique {e e' : AttrTableEntry} (he : e ∈ fsAttrs) (he' : e' ∈ fsAttrs)
    (hcode : e.code = e'.code) : e = e' := by
  have hnodup : (fsAttrs.map AttrTableEntry.code).Nodup := by decide
  exact List.inj_on_of_nodup_map hnodup he he' hcode

/-- `attr` stands for a flag that has the bit `i`. -/
def HasBit (attr : UInt8) (i : Nat) : Prop :=
  ∃ entry ∈ fsAttrs, entry.code = attr ∧ entry.fsFlag.getLsbD i = true

/-- `mask` is the union of the flags of the letters. -/
def IsUnion (letters : Bytes) (mask : Flags) : Prop :=
  ∀ i, mask.getLsbD i = true ↔ ∃ attr ∈ letters, HasBit attr i

theorem getMaskForAttrs_loop {attrs : Bytes} (h : ∀ attr ∈ attrs, attr ∈ attrsList) (mask : Flags) :
    ∃ mask', getMaskForAttrs attrs mask = some mask' ∧
      ∀ i, mask'.getLsbD i = true ↔
        mask.getLsbD i = true ∨ ∃ attr ∈ attrs, HasBit attr i := by
  induction attrs generalizing mask with
  | nil => exact ⟨mask, rfl, fun i => by simp⟩
  | cons attr attrs ih =>
    obtain ⟨hattr, hattrs⟩ := List.forall_mem_cons.mp h
    obtain ⟨entry, hentry, hcode, hlookup⟩ := lookupAttrTableEntry_of_mem hattr
    obtain ⟨mask', hmask', hbits⟩ := ih hattrs (mask ||| entry.fsFlag)
    have hbit : ∀ i, entry.fsFlag.getLsbD i = true ↔ HasBit attr i := by
      intro i
      refine ⟨fun hi => ⟨entry, hentry, hcode, hi⟩, ?_⟩
      rintro ⟨entry', hentry', hcode', hi⟩
      rwa [entry_unique hentry hentry' (hcode.trans hcode'.symm)]
    refine ⟨mask', ?_, fun i => ?_⟩
    · rw [getMaskForAttrs, hlookup]
      exact hmask'
    · rw [hbits, BitVec.getLsbD_or, Bool.or_eq_true, hbit, List.exists_mem_cons_iff, or_assoc]

theorem getMaskForAttrs_isUnion {attrs : Bytes} (h : ∀ attr ∈ attrs, attr ∈ attrsList) :
    ∃ mask, getMaskForAttrs attrs 0#32 = some mask ∧ IsUnion attrs mask := by
  obtain ⟨mask, hmask, hbits⟩ := getMaskForAttrs_loop h 0#32
  refine ⟨mask, hmask, fun i => ?_⟩
  rw [hbits, BitVec.getLsbD_zero]
  simp

/-! ## The files -/

/-- The file whose flags are changed under this name: none if a call fails on it. -/
def Sys.target (sys : Sys) (filename : Bytes) : Option Nat :=
  if sys.getFails filename ∨ sys.setFails filename then none else sys.lookup filename

/-- A failed `open` is noticed by the first `ioctl`, on the descriptor -1. -/
theorem fileOf_openFile (sys : Sys) (filename : Bytes) :
    sys.fileOf filename (toInt32 (toUInt64 (sys.openFile filename))) = sys.lookup filename := by
  rw [Sys.openFile]
  cases hlookup : sys.lookup filename with
  | none =>
    have hfd : toInt32 (toUInt64 (-1)) = -1 := by decide
    rw [Sys.fileOf, hfd, if_neg (by omega)]
  | some ino =>
    have hlt := sys.lowestFd_lt
    dsimp only
    rw [toUInt64_natCast (by omega), toInt32_of_range (by omega) (by omega), Sys.fileOf, if_pos rfl,
      hlookup]

theorem doFile_eq (sys : Sys) (transform : Flags → Flags → Flags) (mask : Flags)
    (flags : Nat → Flags) (filename : Bytes) :
    doFile sys transform mask flags filename =
      match sys.target filename with
      | none => flags
      | some ino => Function.update flags ino (transform (flags ino) mask) := by
  rw [doFile, if_neg (Nat.not_lt_zero _), fileOf_openFile, Sys.target]
  cases sys.lookup filename with
  | none => simp
  | some ino =>
    cases hget : sys.getFails filename with
    | true => simp
    | false => cases hset : sys.setFails filename <;> simp

theorem foldl_doFile (sys : Sys) (transform : Flags → Flags → Flags) (mask : Flags)
    (files : List Bytes) (flags : Nat → Flags) :
    files.foldl (doFile sys transform mask) flags =
      updateAll (fun f => transform f mask) (files.filterMap sys.target) flags := by
  apply foldl_eq_updateAll
  · intro flags file htarget
    rw [doFile_eq, htarget]
  · intro flags file ino htarget
    rw [doFile_eq, htarget]

/-- What an operator does to the flags of a file. -/
def applyMode (op : UInt8) (f mask : Flags) : Flags :=
  if op = ACTION_ADD then f ||| mask else if op = ACTION_REMOVE then f &&& ~~~mask else mask

theorem applyMode_applyMode (op : UInt8) (f mask : Flags) :
    applyMode op (applyMode op f mask) mask = applyMode op f mask := by
  simp only [applyMode]
  split
  · rw [BitVec.or_assoc, BitVec.or_self]
  · split
    · rw [BitVec.and_assoc, BitVec.and_self]
    · rfl

/-! ## The mode string -/

def operators : Bytes := [ACTION_ADD, ACTION_REMOVE, ACTION_ONLY]

/-- The mode strings that pass the check: any character and one or more letters of the table. -/
def Accepted (mode : Bytes) : Prop :=
  ∃ op letters, mode = op :: letters ∧ letters ≠ [] ∧ ∀ attr ∈ letters, attr ∈ attrsList

theorem validateModeString_iff (mode : Arg) :
    validateModeString mode.bytes = true ↔ Accepted mode.bytes := by
  have hshort := mode.short
  rw [validateModeString, toInt32_of_range (by omega) (by omega)]
  cases hmode : mode.bytes with
  | nil => simp [Accepted]
  | cons op letters =>
    cases letters with
    | nil => simp [Accepted]
    | cons attr attrs =>
      rw [if_neg (by simp only [List.length_cons]; omega), List.drop_one, List.tail_cons,
        List.all_eq_true]
      simp [Accepted, isValidAttr_iff]

theorem main_of_accepted (sys : Sys) {mode : Arg} {op : UInt8} {letters : Bytes}
    (hmode : mode.bytes = op :: letters) (hne : letters ≠ [])
    (hletters : ∀ attr ∈ letters, attr ∈ attrsList) {files : List Bytes} (hfiles : files ≠ [])
    (flags : Nat → Flags) :
    ∃ mask, getMaskForAttrs letters 0#32 = some mask ∧ IsUnion letters mask ∧
      main sys mode files flags =
        (0,
          if op ∈ operators then
            updateAll (fun f => applyMode op f mask) (files.filterMap sys.target) flags
          else flags) := by
  obtain ⟨mask, hmask, hunion⟩ := getMaskForAttrs_isUnion hletters
  have hvalid : validateModeString mode.bytes = true :=
    (validateModeString_iff mode).mpr ⟨op, letters, hmode, hne, hletters⟩
  have haction : ∀ transform, doAction sys letters files transform flags =
      (0, updateAll (fun f => transform f mask) (files.filterMap sys.target) flags) := by
    intro transform
    rw [doAction, hmask, ← foldl_doFile]
  refine ⟨mask, hmask, hunion, ?_⟩
  rw [main, if_neg hfiles, if_pos hvalid, hmode]
  dsimp only
  rw [haction, haction, haction]
  by_cases hadd : op = ACTION_ADD
  · subst hadd
    rfl
  by_cases hremove : op = ACTION_REMOVE
  · subst hremove
    rfl
  by_cases honly : op = ACTION_ONLY
  · subst honly
    rfl
  rw [if_neg hadd, if_neg hremove, if_neg honly, if_neg (by simp [operators, hadd, hremove, honly])]

/-- **What chattr does to the flags.** With an operator, letters of the table and some files, it
returns 0; a file on which no call fails gets the flags that the operator makes of its old ones and
the union of the letters' flags, and all others stay as they are. -/
theorem main_changes_flags (sys : Sys) (mode : Arg) (op : UInt8) (letters : Bytes)
    (hmode : mode.bytes = op :: letters) (hop : op ∈ operators) (hne : letters ≠ [])
    (hletters : ∀ attr ∈ letters, attr ∈ attrsList) (files : List Bytes) (hfiles : files ≠ [])
    (flags : Nat → Flags) :
    ∃ mask, IsUnion letters mask ∧ getMaskForAttrs letters 0#32 = some mask ∧
      (main sys mode files flags).1 = 0 ∧
      (∀ file ∈ files, ∀ ino, sys.target file = some ino →
        (main sys mode files flags).2 ino = applyMode op (flags ino) mask) ∧
      ∀ ino, (∀ file ∈ files, sys.target file ≠ some ino) →
        (main sys mode files flags).2 ino = flags ino := by
  obtain ⟨mask, hmask, hunion, hmain⟩ := main_of_accepted sys hmode hne hletters hfiles flags
  rw [hmain, if_pos hop]
  refine ⟨mask, hunion, hmask, rfl, ?_, ?_⟩
  · intro file hfile ino hino
    show updateAll (fun f => applyMode op f mask) _ flags ino = _
    rw [updateAll_target (fun f => applyMode_applyMode op f mask) hfile hino]
  · intro ino hother
    show updateAll (fun f => applyMode op f mask) _ flags ino = _
    rw [updateAll_no_target hother]

/-- A name stands for the file with the number of its first byte. -/
def plainSys : Sys where
  lookup filename := filename.head?.map UInt8.toNat
  getFails _ := false
  setFails _ := false
  lowestFd := 3
  lowestFd_lt := by decide

/-- Append only and immutable, on one file twice and one that does not exist. -/
theorem main_changes_flags_twice :
    ∃ mask, IsUnion (bytesOf "aia") mask ∧ getMaskForAttrs (bytesOf "aia") 0#32 = some mask ∧
      (main plainSys ⟨bytesOf "+aia", by decide, by decide⟩ [bytesOf "f", [], bytesOf "f"]
        (fun _ => FS_EXTENT_FL)).1 = 0 ∧
      (∀ file ∈ [bytesOf "f", [], bytesOf "f"], ∀ ino, plainSys.target file = some ino →
        (main plainSys ⟨bytesOf "+aia", by decide, by decide⟩ [bytesOf "f", [], bytesOf "f"]
          (fun _ => FS_EXTENT_FL)).2 ino = applyMode ACTION_ADD FS_EXTENT_FL mask) ∧
      ∀ ino, (∀ file ∈ [bytesOf "f", [], bytesOf "f"], plainSys.target file ≠ some ino) →
        (main plainSys ⟨bytesOf "+aia", by decide, by decide⟩ [bytesOf "f", [], bytesOf "f"]
          (fun _ => FS_EXTENT_FL)).2 ino = FS_EXTENT_FL :=
  main_changes_flags plainSys ⟨bytesOf "+aia", by decide, by decide⟩ ACTION_ADD (bytesOf "aia")
    rfl (by decide) (by decide) (fun _ h => (by decide : bytesOf "aia" ⊆ attrsList) h)
    [bytesOf "f", [], bytesOf "f"] (List.cons_ne_nil _ _) (fun _ => FS_EXTENT_FL)

/-- Without a file the program prints how to call it and fails. -/
theorem not_main_zero_no_files :
    ¬ ∀ (sys : Sys) (mode : Arg) (op : UInt8) (letters : Bytes), mode.bytes = op :: letters →
      op ∈ operators → letters ≠ [] → (∀ attr ∈ letters, attr ∈ attrsList) →
      ∀ (files : List Bytes) (flags : Nat → Flags), (main sys mode files flags).1 = 0 := by
  intro h
  have hzero := h plainSys ⟨bytesOf "+a", by decide, by decide⟩ ACTION_ADD (bytesOf "a") rfl
    (by decide) (by decide) (fun _ h => (by decide : bytesOf "a" ⊆ attrsList) h) [] fun _ => 0#32
  rw [main, if_pos rfl] at hzero
  exact absurd hzero one_ne_zero

/-! ## The modes of the description -/

/-- The letters of the description. -/
def documentedLetters : Bytes := bytesOf "acdeijstuADST"

/-- An operator and one or more letters, as the description has them. -/
def Documented (mode : Bytes) : Prop :=
  ∃ op letters, mode = op :: letters ∧ op ∈ operators ∧ letters ≠ [] ∧
    ∀ attr ∈ letters, attr ∈ documentedLetters

/-- The program fails and changes no flags. -/
def Rejects (sys : Sys) (mode : Arg) (files : List Bytes) (flags : Nat → Flags) : Prop :=
  (main sys mode files flags).1 ≠ 0 ∧ (main sys mode files flags).2 = flags

/-- A mode of the description that selects synchronous updates. -/
def SelectsSync (mode : Bytes) : Prop := Documented mode ∧ ch 'S' ∈ mode

/-- Letters of the table after something that is no operator. -/
def WrongOperator (mode : Bytes) : Prop :=
  ∃ op letters, mode = op :: letters ∧ op ∉ operators ∧ letters ≠ [] ∧
    ∀ attr ∈ letters, attr ∈ attrsList

theorem rejects_iff (sys : Sys) (mode : Arg) {files : List Bytes} (hfiles : files ≠ [])
    (flags : Nat → Flags) : Rejects sys mode files flags ↔ ¬ Accepted mode.bytes := by
  constructor
  · rintro ⟨hstatus, -⟩ ⟨op, letters, hmode, hne, hletters⟩
    obtain ⟨mask, -, -, hmain⟩ := main_of_accepted sys hmode hne hletters hfiles flags
    rw [hmain] at hstatus
    exact hstatus rfl
  · intro hnot
    have hmain : main sys mode files flags = (1, flags) := by
      rw [main, if_neg hfiles, if_neg (mt (validateModeString_iff mode).mp hnot)]
    rw [Rejects, hmain]
    exact ⟨one_ne_zero, rfl⟩

theorem mem_attrsList_iff {attr : UInt8} :
    attr ∈ attrsList ↔ attr ∈ documentedLetters ∧ attr ≠ ch 'S' := by
  have hlist : attrsList = documentedLetters.filter fun attr => attr ≠ ch 'S' := by decide
  rw [hlist, List.mem_filter, decide_eq_true_iff]

/-- The documented modes that the check does not let through. -/
theorem documented_not_accepted_iff {mode : Bytes} :
    Documented mode ∧ ¬ Accepted mode ↔ SelectsSync mode := by
  constructor
  · rintro ⟨hdoc, hnot⟩
    refine ⟨hdoc, ?_⟩
    obtain ⟨op, letters, rfl, -, hne, hletters⟩ := hdoc
    by_contra hS
    refine hnot ⟨op, letters, rfl, hne, fun attr hattr =>
      mem_attrsList_iff.mpr ⟨hletters attr hattr, ?_⟩⟩
    rintro rfl
    exact hS (List.mem_cons_of_mem _ hattr)
  · rintro ⟨hdoc, hS⟩
    refine ⟨hdoc, ?_⟩
    rintro ⟨op, letters, rfl, -, hletters⟩
    obtain ⟨_, _, heq, hop, -⟩ := hdoc
    cases heq
    rcases List.mem_cons.mp hS with heq | hmem
    · rw [← heq] at hop
      exact absurd hop (by decide)
    · exact (mem_attrsList_iff.mp (hletters _ hmem)).2 rfl

/-- The modes that the check lets through although they are not documented. -/
theorem accepted_not_documented_iff {mode : Bytes} :
    Accepted mode ∧ ¬ Documented mode ↔ WrongOperator mode := by
  constructor
  · rintro ⟨⟨op, letters, rfl, hne, hletters⟩, hnot⟩
    refine ⟨op, letters, rfl, fun hop => hnot ?_, hne, hletters⟩
    exact ⟨op, letters, rfl, hop, hne, fun attr hattr =>
      (mem_attrsList_iff.mp (hletters attr hattr)).1⟩
  · rintro ⟨op, letters, rfl, hop, hne, hletters⟩
    refine ⟨⟨op, letters, rfl, hne, hletters⟩, ?_⟩
    rintro ⟨_, _, heq, hop', -⟩
    cases heq
    exact hop hop'

/-- **Which modes are rejected**: exactly those that are not documented, but for the modes with the
letter `S` and those with a wrong operator. -/
theorem rejects_undocumented_iff (sys : Sys) (mode : Arg) (file : Bytes) (files : List Bytes)
    (flags : Nat → Flags) :
    (Rejects sys mode (file :: files) flags ↔ ¬ Documented mode.bytes) ↔
      ¬ SelectsSync mode.bytes ∧ ¬ WrongOperator mode.bytes := by
  rw [rejects_iff sys mode (List.cons_ne_nil file files), ← documented_not_accepted_iff,
    ← accepted_not_documented_iff]
  by_cases hdoc : Documented mode.bytes <;> by_cases hacc : Accepted mode.bytes <;>
    simp [hdoc, hacc]

/-- `?a` is no documented mode, and the program returns 0 for it. -/
theorem not_rejects_undocumented :
    ¬ ∀ (sys : Sys) (mode : Arg) (files : List Bytes) (flags : Nat → Flags), files ≠ [] →
      (Rejects sys mode files flags ↔ ¬ Documented mode.bytes) := by
  intro h
  have hwrong := h plainSys ⟨bytesOf "?a", by decide, by decide⟩ [bytesOf "f"] (fun _ => 0#32)
    (List.cons_ne_nil _ _)
  have hundocumented : ¬ Documented (bytesOf "?a") := by
    rintro ⟨op, letters, heq, hop, -⟩
    cases heq
    exact absurd hop (by decide)
  exact absurd (hwrong.mpr hundocumented).1 (by decide)

end Tlpi.Chattr
