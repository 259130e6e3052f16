import Tlpi.Lib.CString
import Tlpi.Lib.File
import Tlpi.Lib.UpdateAll

/-!
# setfattr

`16-extended-attributes/setfattr.c` sets or removes an attribute on each of its files. A path leads
to the inode of its last directory entry; when that is a symbolic link, `setxattr` and `removexattr`
go on to what the link leads to, along at most 40 links. What `getopt_long` makes of the command
line is given as the sequence of its results and the arguments that are left.

The option `-h` sets a flag that nobody reads, so links are followed with it as without it
(`onlyNamed_iff`).
-/

namespace Tlpi.SetFAttr

open Tlpi.Lib

/-- What `getopt_long` returns, with `optarg` where there is one. -/
inductive Opt where
  | h
  | V
  | H
  | n (optarg : Bytes)
  | v (optarg : Bytes)
  | x (optarg : Bytes)
  /-- `'?'` -/
  | unknown
  deriving DecidableEq

/-- The global variables. -/
structure Globals where
  noDerefFlag : Bool
  name : Option Bytes
  value : Option Bytes
  removeName : Option Bytes

def Globals.start : Globals :=
  { noDerefFlag := false, name := none, value := none, removeName := none }

/-- `parse_arguments()`, `none` when it ends the program. -/
def parseArguments : List Opt → Globals → Option Globals
  | [], g => some g
  | .h :: opts, g => parseArguments opts { g with noDerefFlag := true }
  | .V :: _, _ => none
  | .H :: _, _ => none
  | .n optarg :: opts, g => parseArguments opts { g with name := some optarg }
  | .v optarg :: opts, g => parseArguments opts { g with value := some optarg }
  | .x optarg :: opts, g => parseArguments opts { g with removeName := some optarg }
  | .unknown :: opts, g => parseArguments opts g

/-- What is done to each file. -/
inductive Command where
  | set (name value : Bytes)
  | remove (name : Bytes)
  deriving DecidableEq

/-- `validate_arguments()`, `none` when it ends the program, and the choice that `main` makes after
it. -/
def validateArguments (g : Globals) : Option Command :=
  match g.name, g.removeName, g.value with
  | none, none, _ => none
  | some _, some _, _ => none
  | some _, none, none => none
  | some name, none, some value => some (.set name value)
  | none, some name, _ => some (.remove name)

/-- The extended attributes of the inodes. -/
abbrev Attrs := Nat → Bytes → Option Bytes

/-- The directory entry that a path names, the path that a link leads to, and the inodes whose
attributes the caller may change. -/
structure Files where
  entry : Bytes → Option Nat
  link : Nat → Option Bytes
  permits : Nat → Bool

/-- How many links the system follows. -/
def maxLinks : Nat := 40

/-- The inode that a path leads to with at most so many links on the way. -/
def Files.follow (fs : Files) : Nat → Bytes → Option Nat
  | links, path =>
    match fs.entry path with
    | none => none
    | some ino =>
      match fs.link ino, links with
      | none, _ => some ino
      | some _, 0 => none
      | some path, links + 1 => fs.follow links path

/-- The inode that a path finally leads to. -/
def Files.resolve (fs : Files) (path : Bytes) : Option Nat := fs.follow maxLinks path

/-- `setxattr(path, name, value, strlen(value), 0)` -/
def setxattr (fs : Files) (attrs : Attrs) (path name value : Bytes) : Int × Attrs :=
  match fs.resolve path with
  | none => (-1, attrs)
  | some ino =>
    if fs.permits ino then
      (0, Function.update attrs ino (Function.update (attrs ino) name (some value)))
    else (-1, attrs)

/-- `removexattr(path, name)` -/
def removexattr (fs : Files) (attrs : Attrs) (path name : Bytes) : Int × Attrs :=
  match fs.resolve path with
  | none => (-1, attrs)
  | some ino =>
    if fs.permits ino ∧ attrs ino name ≠ none then
      (0, Function.update attrs ino (Function.update (attrs ino) name none))
    else (-1, attrs)

/-- `do_set_attr()` -/
def doSetAttr (fs : Files) (name value : Bytes) (files : List Bytes) (attrs : Attrs) : Attrs :=
  files.foldl (fun attrs file => (setxattr fs attrs file name value).2) attrs

/-- `do_remove_attr()` -/
def doRemoveAttr (fs : Files) (removeName : Bytes) (files : List Bytes) (attrs : Attrs) : Attrs :=
  files.foldl (fun attrs file => (removexattr fs attrs file removeName).2) attrs

/-- What the program has been asked to do, if it does anything. -/
def command (opts : List Opt) : Option Command :=
  (parseArguments opts .start).bind validateArguments

/-- `main` -/
def main (fs : Files) (opts : List Opt) (files : List Bytes) (attrs : Attrs) : Attrs :=
  match command opts with
  | none => attrs
  | some (.set name value) => doSetAttr fs name value files attrs
  | some (.remove name) => doRemoveAttr fs name files attrs

/-! ## The attributes after a run -/

/-- The attributes of one inode after the command. -/
def Command.apply (c : Command) (a : Bytes → Option Bytes) : Bytes → Option Bytes :=
  match c with
  | .set name value => Function.update a name (some value)
  | .remove name => Function.update a name none

theorem Command.apply_apply (c : Command) (a : Bytes → Option Bytes) :
    c.apply (c.apply a) = c.apply a := by
  cases c <;> exact Function.update_idem _ _ _

/-- The inode that is changed under this path. -/
def Files.target (fs : Files) (path : Bytes) : Option Nat :=
  match fs.resolve path with
  | none => none
  | some ino => if fs.permits ino then some ino else none

theorem target_eq_some {fs : Files} {path : Bytes} {ino : Nat} :
    fs.target path = some ino ↔ fs.resolve path = some ino ∧ fs.permits ino = true := by
  rw [Files.target]
  cases fs.resolve path with
  | none => simp
  | some i =>
    dsimp only
    by_cases hpermits : fs.permits i = true
    · rw [if_pos hpermits]
      refine ⟨fun heq => ⟨heq, ?_⟩, fun h => h.1⟩
      cases heq
      exact hpermits
    · rw [if_neg hpermits]
      refine iff_of_false (Option.some_ne_none ino).symm ?_
      rintro ⟨heq, hino⟩
      cases heq
      exact hpermits hino

theorem target_eq_none {fs : Files} {path : Bytes} (h : fs.target path = none) {ino : Nat}
    (hino : fs.resolve path = some ino) : ¬ fs.permits ino = true := by
  intro hpermits
  rw [target_eq_some.mpr ⟨hino, hpermits⟩] at h
  cases h

section Calls

variable {fs : Files} {path name value : Bytes} {attrs : Attrs}

theorem setxattr_none (h : fs.target path = none) :
    (setxattr fs attrs path name value).2 = attrs := by
  rw [setxattr]
  cases hino : fs.resolve path with
  | none => rfl
  | some ino =>
    dsimp only
    rw [if_neg (target_eq_none h hino)]

theorem setxattr_some {ino : Nat} (h : fs.target path = some ino) :
    (setxattr fs attrs path name value).2 =
      Function.update attrs ino ((Command.set name value).apply (attrs ino)) := by
  obtain ⟨hino, hpermits⟩ := target_eq_some.mp h
  rw [setxattr, hino]
  dsimp only
  rw [if_pos hpermits]
  rfl

theorem removexattr_none (h : fs.target path = none) :
    (removexattr fs attrs path name).2 = attrs := by
  rw [removexattr]
  cases hino : fs.resolve path with
  | none => rfl
  | some ino =>
    dsimp only
    rw [if_neg fun hand => target_eq_none h hino hand.1]

theorem removexattr_some {ino : Nat} (h : fs.target path = some ino) :
    (removexattr fs attrs path name).2 =
      Function.update attrs ino ((Command.remove name).apply (attrs ino)) := by
  obtain ⟨hino, hpermits⟩ := target_eq_some.mp h
  rw [removexattr, hino]
  dsimp only
  by_cases hnone : attrs ino name = none
  · -- there is nothing to remove, and removing it changes nothing
    have hsame : (Command.remove name).apply (attrs ino) = attrs ino := by
      rw [Command.apply, ← hnone, Function.update_eq_self]
    rw [if_neg fun hand => hand.2 hnone, hsame, Function.update_eq_self]
  · rw [if_pos ⟨hpermits, hnone⟩]
    rfl

end Calls

theorem main_eq (fs : Files) {opts : List Opt} {c : Command} (hc : command opts = some c)
    (files : List Bytes) (attrs : Attrs) :
    main fs opts files attrs = updateAll c.apply (files.filterMap fs.target) attrs := by
  rw [main, hc]
  cases c with
  | set name value =>
    exact foldl_eq_updateAll (fun _ _ => setxattr_none) (fun _ _ _ => setxattr_some) files attrs
  | remove name =>
    exact foldl_eq_updateAll (fun _ _ => removexattr_none)
      (fun _ _ _ => removexattr_some) files attrs

theorem resolve_of_not_link {fs : Files} {path : Bytes} {ino : Nat}
    (hentry : fs.entry path = some ino)
    (hlink : fs.link ino = none) : fs.resolve path = some ino := by
  rw [Files.resolve, Files.follow, hentry]
  simp only [hlink]

/-! ## Links -/

/-- Attributes change only for the inodes of the named entries. -/
def OnlyNamed (fs : Files) (files : List Bytes) (before after : Attrs) : Prop :=
  ∀ ino, after ino ≠ before ino → ∃ path ∈ files, fs.entry path = some ino

/-- The links that are named do no harm: the inode that a link leads to may not be changed, or the
command changes nothing there, or it is named itself. -/
def LinksHarmless (fs : Files) (c : Command) (files : List Bytes) (attrs : Attrs) : Prop :=
  ∀ path ∈ files, ∀ i, fs.entry path = some i → fs.link i ≠ none →
    ∀ ino, fs.resolve path = some ino → fs.permits ino = true → c.apply (attrs ino) ≠ attrs ino →
      ∃ path' ∈ files, fs.entry path' = some ino

theorem entry_of_resolve {fs : Files} {path : Bytes} {ino : Nat} (h : fs.resolve path = some ino) :
    ∃ i, fs.entry path = some i := by
  rw [Files.resolve, Files.follow] at h
  cases hentry : fs.entry path with
  | none =>
    rw [hentry] at h
    cases h
  | some i => exact ⟨i, rfl⟩

theorem onlyNamed_command_iff (fs : Files) {opts : List Opt} {c : Command}
    (hc : command opts = some c) (files : List Bytes) (attrs : Attrs) :
    OnlyNamed fs files attrs (main fs opts files attrs) ↔ LinksHarmless fs c files attrs := by
  rw [main_eq fs hc]
  constructor
  · intro h path hpath i _ _ ino hino hpermits hchange
    apply h ino
    rw [updateAll_target c.apply_apply hpath (target_eq_some.mpr ⟨hino, hpermits⟩)]
    exact hchange
  · intro h ino hchange
    by_cases htarget : ∃ path ∈ files, fs.target path = some ino
    · obtain ⟨path, hpath, htarget⟩ := htarget
      rw [updateAll_target c.apply_apply hpath htarget] at hchange
      obtain ⟨hino, hpermits⟩ := target_eq_some.mp htarget
      obtain ⟨i, hi⟩ := entry_of_resolve hino
      by_cases hlink : fs.link i = none
      · rw [resolve_of_not_link hi hlink] at hino
        exact ⟨path, hpath, hi.trans hino⟩
      · exact h path hpath i hi hlink ino hino hpermits hchange
    · refine absurd (updateAll_no_target (fun path hpath heq => ?_) attrs) hchange
      exact htarget ⟨path, hpath, heq⟩

/-- **Only the named entries are changed**, with `-h` among the options or not, exactly when the
program does nothing or the links among its files do no harm. -/
theorem onlyNamed_iff (fs : Files) (opts : List Opt) (files : List Bytes) (attrs : Attrs) :
    OnlyNamed fs files attrs (main fs opts files attrs) ↔
      ∀ c, command opts = some c → LinksHarmless fs c files attrs := by
  cases hc : command opts with
  | none =>
    have hmain : main fs opts files attrs = attrs := by rw [main, hc]
    rw [hmain]
    exact iff_of_true (fun ino hne => absurd rfl hne) nofun
  | some c =>
    rw [onlyNamed_command_iff fs hc]
    exact ⟨fun h c' hc' => Option.some.inj hc' ▸ h, fun h => h c rfl⟩

/-- A file 1 with the name `f`, and a link 2 to it with the name `l`. -/
def oneLink : Files where
  entry path := if path = bytesOf "f" then some 1 else if path = bytesOf "l" then some 2 else none
  link ino := if ino = 2 then some (bytesOf "f") else none
  permits _ := true

/-- With `-h` an attribute that is set on the link ends up on the file. -/
theorem not_onlyNamed_link :
    ¬ ∀ (fs : Files) (opts : List Opt) (files : List Bytes) (attrs : Attrs), Opt.h ∈ opts →
      OnlyNamed fs files attrs (main fs opts files attrs) := by
  intro h
  obtain ⟨path, hpath, hentry⟩ :=
    h oneLink [.h, .n (bytesOf "user.a"), .v (bytesOf "1")] [bytesOf "l"] (fun _ _ => none)
      List.mem_cons_self 1 fun heq => absurd (congrFun heq (bytesOf "user.a")) (by decide)
  rw [List.mem_singleton.mp hpath] at hentry
  exact absurd hentry (by decide)

end Tlpi.SetFAttr
