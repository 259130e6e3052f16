import Tlpi.Lib.CString
import Tlpi.Lib.File
import Tlpi.Lib.UpdateAll

/-!
# chmod a+rX

`15-file-attributes/exercise6_chmod.c` computes a new mode for each of its arguments, one way for
directories and another for other files. Several arguments may name the same file, which then sees
its own new mode; that changes nothing more, because setting bits twice sets them once
(`newMode_newMode`).

For files that are no directories the first mask has `S_IXUSR` where it should have `S_IROTH`. So
the owner's execute bit is always on when the execute bits are looked at, all of them are granted to
every file, and reading is never granted to others.
-/

namespace Tlpi.Chmod

open Tlpi.Lib

/-- `mode_t` -/
abbrev ModeT := BitVec 32

def S_IFMT : ModeT := 0o170000
def S_IFDIR : ModeT := 0o040000
def S_IRUSR : ModeT := 0o400
def S_IXUSR : ModeT := 0o100
def S_IRGRP : ModeT := 0o040
def S_IXGRP : ModeT := 0o010
def S_IROTH : ModeT := 0o004
def S_IXOTH : ModeT := 0o001

/-- The bits that `chmod` changes: permissions, set-ID and sticky. -/
def S_IALLUGO : ModeT := 0o7777

def S_ISDIR (mode : ModeT) : Bool := mode &&& S_IFMT = S_IFDIR

/-- The files: what each path leads to, and the modes. -/
structure Files where
  lookup : Bytes → Option Nat
  mode : Nat → ModeT

/-- `stat(path, &st)`, of which the program reads only `st_mode`. -/
def Files.stat (fs : Files) (path : Bytes) : Option ModeT := (fs.lookup path).map fs.mode

/-- `chmod(path, mode)` by the owner of the file. The type of the file stays. -/
def Files.chmod (fs : Files) (path : Bytes) (mode : ModeT) : Files :=
  match fs.lookup path with
  | none => fs
  | some ino =>
    let new := (fs.mode ino &&& ~~~S_IALLUGO) ||| (mode &&& S_IALLUGO)
    { fs with mode := Function.update fs.mode ino new }

/-- `chmod_directory()` -/
def chmodDirectory (fs : Files) (path : Bytes) (st : ModeT) : Files :=
  fs.chmod path (st ||| (S_IRUSR ||| S_IRGRP ||| S_IROTH ||| S_IXUSR ||| S_IXGRP ||| S_IXOTH))

/-- `ixmask` -/
def ixmask : ModeT := S_IXUSR ||| S_IXGRP ||| S_IXOTH

/-- `chmod_file()` -/
def chmodFile (fs : Files) (path : Bytes) (st : ModeT) : Files :=
  let mode := st ||| (S_IRUSR ||| S_IXUSR ||| S_IRGRP)
  fs.chmod path (if mode &&& ixmask ≠ 0#32 then mode ||| ixmask else mode)

/-- The loop of `main` over the rest of the arguments: the exit status and the files. -/
def chmodAll : List Bytes → Files → Int × Files
  | [], fs => (0, fs)
  | path :: paths, fs =>
    match fs.stat path with
    | none => (1, fs)
    | some st =>
      chmodAll paths (if S_ISDIR st then chmodDirectory fs path st else chmodFile fs path st)

def main (paths : List Bytes) (fs : Files) : Int × Files :=
  if paths = [] then (1, fs) else chmodAll paths fs

/-! ## The new mode of a file -/

/-- What `chmod` is asked to set, in one formula. -/
def newMode (mode : ModeT) : ModeT := if S_ISDIR mode then mode ||| 0o555 else mode ||| 0o551

theorem S_ISDIR_or {bits : ModeT} (h : bits &&& S_IFMT = 0#32) (mode : ModeT) :
    S_ISDIR (mode ||| bits) = S_ISDIR mode := by
  rw [S_ISDIR, S_ISDIR, BitVec.and_or_distrib_right, h, BitVec.or_zero]

theorem S_ISDIR_newMode (mode : ModeT) : S_ISDIR (newMode mode) = S_ISDIR mode := by
  rw [newMode]
  split <;> exact S_ISDIR_or (by decide) mode

theorem newMode_newMode (mode : ModeT) : newMode (newMode mode) = newMode mode := by
  rw [newMode, S_ISDIR_newMode]
  split
  · next hdir => rw [newMode, if_pos hdir, BitVec.or_assoc, BitVec.or_self]
  · next hdir => rw [newMode, if_neg hdir, BitVec.or_assoc, BitVec.or_self]

theorem chmod_eq {fs : Files} {path : Bytes} {ino : Nat} (h : fs.lookup path = some ino)
    {bits : ModeT} (hbits : bits &&& S_IALLUGO = bits) :
    fs.chmod path (fs.mode ino ||| bits) =
      { fs with mode := Function.update fs.mode ino (fs.mode ino ||| bits) } := by
  have hmode : (fs.mode ino &&& ~~~S_IALLUGO) ||| ((fs.mode ino ||| bits) &&& S_IALLUGO) =
      fs.mode ino ||| bits := by
    rw [BitVec.and_or_distrib_right, hbits, ← BitVec.or_assoc, ← BitVec.and_or_distrib_left,
      BitVec.or_comm (~~~S_IALLUGO), BitVec.or_not_self, BitVec.and_allOnes]
  rw [Files.chmod, h]
  dsimp only
  rw [hmode]

theorem chmodFile_eq (fs : Files) (path : Bytes) (st : ModeT) :
    chmodFile fs path st = fs.chmod path (st ||| 0o551) := by
  have hix : (st ||| (S_IRUSR ||| S_IXUSR ||| S_IRGRP)) &&& ixmask ≠ 0#32 := by
    intro h
    rw [BitVec.and_or_distrib_right, BitVec.or_eq_zero_iff] at h
    exact absurd h.2 (by decide)
  rw [chmodFile, if_pos hix, BitVec.or_assoc]
  rfl

theorem turn_eq {fs : Files} {path : Bytes} {ino : Nat} (h : fs.lookup path = some ino) :
    (if S_ISDIR (fs.mode ino) then chmodDirectory fs path (fs.mode ino)
      else chmodFile fs path (fs.mode ino)) =
      { fs with mode := Function.update fs.mode ino (newMode (fs.mode ino)) } := by
  rw [newMode]
  split
  · exact chmod_eq h (by decide)
  · rw [chmodFile_eq]
    exact chmod_eq h (by decide)

theorem chmodAll_eq {paths : List Bytes} {fs : Files} (h : ∀ path ∈ paths, fs.lookup path ≠ none) :
    chmodAll paths fs =
      (0, { fs with mode := updateAll newMode (paths.filterMap fs.lookup) fs.mode }) := by
  induction paths generalizing fs with
  | nil => rfl
  | cons path paths ih =>
    obtain ⟨hpath, hpaths⟩ := List.forall_mem_cons.mp h
    obtain ⟨ino, hino⟩ := Option.ne_none_iff_exists'.mp hpath
    have hstat : fs.stat path = some (fs.mode ino) := by rw [Files.stat, hino, Option.map_some]
    rw [chmodAll, hstat]
    dsimp only
    rw [turn_eq hino, List.filterMap_cons_some hino, updateAll_cons]
    exact ih hpaths

/-! ## a+rX -/

/-- Reading for everyone, and executing for everyone if it is a directory or someone may already
execute it. -/
def addRX (mode : ModeT) : ModeT :=
  let readable := mode ||| (S_IRUSR ||| S_IRGRP ||| S_IROTH)
  if S_ISDIR mode ∨ mode &&& (S_IXUSR ||| S_IXGRP ||| S_IXOTH) ≠ 0#32 then
    readable ||| (S_IXUSR ||| S_IXGRP ||| S_IXOTH)
  else readable

/-- The files `after` are the files `before` with a+rX done on those that `paths` name. -/
structure PerformsRX (paths : List Bytes) (before after : Files) : Prop where
  named : ∀ path ∈ paths, ∀ ino, before.lookup path = some ino →
    after.mode ino = addRX (before.mode ino)
  others : ∀ ino, (∀ path ∈ paths, before.lookup path ≠ some ino) →
    after.mode ino = before.mode ino

/-- The mode of a file for which the wrong mask makes no difference: others may read it, and
someone may execute it. -/
def Spared (mode : ModeT) : Prop :=
  S_ISDIR mode ∨ mode &&& S_IROTH ≠ 0#32 ∧ mode &&& (S_IXUSR ||| S_IXGRP ||| S_IXOTH) ≠ 0#32

theorem or_twoPow_eq_self_iff {w i : Nat} (hi : i < w) (x : BitVec w) :
    x = x ||| BitVec.twoPow w i ↔ x &&& BitVec.twoPow w i ≠ 0#w := by
  have hbit : (BitVec.twoPow w i).getLsbD i = true := by simp [hi]
  constructor
  · intro h hzero
    have hx : x.getLsbD i = true := by rw [h, BitVec.getLsbD_or, hbit, Bool.or_true]
    have hand : (x &&& BitVec.twoPow w i).getLsbD i = true := by
      rw [BitVec.getLsbD_and, hx, hbit, Bool.and_self]
    rw [hzero, BitVec.getLsbD_zero] at hand
    cases hand
  · intro h
    have hx : x.getLsbD i = true := by
      by_contra hx
      rw [BitVec.and_twoPow, if_neg hx] at h
      exact h rfl
    apply BitVec.eq_of_getLsbD_eq
    intro j hj
    rw [BitVec.getLsbD_or, BitVec.getLsbD_twoPow]
    by_cases hij : i = j
    · rw [← hij, hx, Bool.true_or]
    · simp [hij]

/-- The mode of a file that someone may execute lacks at most the read bit for others. -/
theorem executable_eq_iff (mode : ModeT) :
    mode ||| 0o551 = mode ||| 0o555 ↔ mode &&& S_IROTH ≠ 0#32 := by
  have hbits : mode ||| 0o555 = (mode ||| 0o551) ||| BitVec.twoPow 32 2 := by
    rw [BitVec.or_assoc]
    rfl
  have hand : (mode ||| 0o551) &&& BitVec.twoPow 32 2 = mode &&& S_IROTH := by
    rw [BitVec.and_or_distrib_right]
    exact BitVec.or_zero
  rw [hbits, or_twoPow_eq_self_iff (by decide), hand]

theorem not_executable_ne {mode : ModeT} (h : mode &&& (S_IXUSR ||| S_IXGRP ||| S_IXOTH) = 0#32) :
    mode ||| 0o551 ≠ mode ||| (S_IRUSR ||| S_IRGRP ||| S_IROTH) := by
  intro heq
  have hand := congrArg (fun m => m &&& (S_IXUSR ||| S_IXGRP ||| S_IXOTH)) heq
  rw [BitVec.and_or_distrib_right, BitVec.and_or_distrib_right, h] at hand
  exact absurd hand (by decide)

theorem newMode_eq_addRX_iff (mode : ModeT) : newMode mode = addRX mode ↔ Spared mode := by
  rw [newMode, addRX, Spared]
  cases hdir : S_ISDIR mode with
  | true =>
    refine iff_of_true ?_ (.inl rfl)
    rw [if_pos rfl, if_pos (.inl rfl), BitVec.or_assoc]
    rfl
  | false =>
    rw [if_neg Bool.false_ne_true]
    by_cases hx : mode &&& (S_IXUSR ||| S_IXGRP ||| S_IXOTH) = 0#32
    · rw [if_neg (by simp [hx])]
      exact iff_of_false (not_executable_ne hx) (by simp [hx])
    · rw [if_pos (.inr hx), BitVec.or_assoc]
      refine (executable_eq_iff mode).trans ⟨fun h => .inr ⟨h, hx⟩, ?_⟩
      rintro (h | h)
      · cases h
      · exact h.1

theorem main_eq {paths : List Bytes} {fs : Files} (h : ∀ path ∈ paths, fs.lookup path ≠ none) :
    (main paths fs).2 =
      { fs with mode := updateAll newMode (paths.filterMap fs.lookup) fs.mode } := by
  rw [main]
  split
  · next hnil => rw [hnil]; rfl
  · rw [chmodAll_eq h]

/-- **chmod does a+rX** on the files that exist exactly when those that are no directories may
already be read by others and executed by someone. -/
theorem performsRX_iff (paths : List Bytes) (fs : Files)
    (h : ∀ path ∈ paths, fs.lookup path ≠ none) :
    PerformsRX paths fs (main paths fs).2 ↔
      ∀ path ∈ paths, ∀ ino, fs.lookup path = some ino → Spared (fs.mode ino) := by
  have hnamed : ∀ path ∈ paths, ∀ ino, fs.lookup path = some ino →
      (main paths fs).2.mode ino = newMode (fs.mode ino) := by
    intro path hpath ino hino
    rw [main_eq h]
    exact updateAll_target newMode_newMode hpath hino _
  constructor
  · intro hrx path hpath ino hino
    rw [← newMode_eq_addRX_iff, ← hnamed path hpath ino hino]
    exact hrx.named path hpath ino hino
  · intro hspared
    refine ⟨?_, ?_⟩
    · intro path hpath ino hino
      rw [hnamed path hpath ino hino, newMode_eq_addRX_iff]
      exact hspared path hpath ino hino
    · intro ino hother
      rw [main_eq h]
      exact updateAll_no_target hother _

/-- A single file with this mode, which every path leads to. -/
def oneFile (mode : ModeT) : Files where
  lookup _ := some 0
  mode _ := mode

/-- A program that everybody may read, named twice. -/
theorem performsRX_twice :
    PerformsRX [bytesOf "prog", bytesOf "./prog"] (oneFile 0o100744)
        (main [bytesOf "prog", bytesOf "./prog"] (oneFile 0o100744)).2 ↔
      ∀ path ∈ [bytesOf "prog", bytesOf "./prog"], ∀ ino, some 0 = some ino → Spared 0o100744 :=
  performsRX_iff _ (oneFile 0o100744) fun _ _ => Option.some_ne_none 0

/-- A file that only its owner may read, and nobody execute, comes out as `r-xr-x--x`. -/
theorem not_performsRX_file :
    ¬ ∀ (paths : List Bytes) (fs : Files), (∀ path ∈ paths, fs.lookup path ≠ none) →
      PerformsRX paths fs (main paths fs).2 := by
  intro h
  have hrx := (h [bytesOf "file"] (oneFile 0o100400) fun _ _ => Option.some_ne_none 0).named
    (bytesOf "file") List.mem_cons_self 0 rfl
  have hmode : (main [bytesOf "file"] (oneFile 0o100400)).2.mode 0 = 0o100551 := by decide
  rw [hmode] at hrx
  exact absurd hrx (by decide)

end Tlpi.Chmod
