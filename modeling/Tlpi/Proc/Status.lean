import Tlpi.Lib.File
import Tlpi.Lib.CInt
import Tlpi.Lib.CString

/-!
# Status files

How `pstree.c`, `proclist.c` and `sherlock.c` read a `/proc/PID/status` file: line by line into
a buffer of 256 bytes, each line cut at its first two runs of colons with `strtok` and both parts
trimmed in place (`proclib.c`). A string in the buffer is the list of its bytes before the NUL.
`trim` looks for the last byte that is not white space and goes on below the start of its string
when there is none, so it is given the bytes before the string too.
-/

namespace Tlpi.Proc

open Tlpi.Lib

/-- `fgets` into a buffer of `size` bytes: the line, and the file after it. -/
def fgets (size : Nat) (file : Bytes) : Option (Bytes × Bytes) :=
  if file = [] then none
  else
    let line := (file.take (size - 1)).takeWhile (· ≠ newline)
    let n := if line.length < (file.take (size - 1)).length then line.length + 1 else line.length
    some (file.take n, file.drop n)

/-- A token of `strtok` and the bytes of the array before it, the nearest first. -/
structure Token where
  before : Bytes
  str : Bytes

def colon : UInt8 := 58

/-- `strtok(s, ":")` on the string `s` after the bytes `before`: the token, the bytes before what
is left, and what is left. The colon that ends the token becomes a NUL. -/
def strtok (before s : Bytes) : Option Token × Bytes × Bytes :=
  let before := (s.takeWhile (· = colon)).reverse ++ before
  match s.dropWhile (· = colon) with
  | [] => (none, before, [])
  | s =>
    let token : Token := { before, str := s.takeWhile (· ≠ colon) }
    let before := token.str.reverse ++ before
    match s.dropWhile (· ≠ colon) with
    | [] => (some token, before, [])
    | _ :: rest => (some token, 0 :: before, rest)

/-- `trim(s)`: `l` ends as the number of bytes left minus the number before the string, and
`l + 1` is a size for `memmove`. -/
def trim (t : Token) : Except Fault Bytes :=
  match (t.str.reverse ++ t.before).dropWhile isspace with
  | [] => .error .outOfBounds
  | rest =>
    if rest.length + 1 < t.before.length then .error .outOfBounds
    else .ok ((t.str.reverse.dropWhile isspace).reverse.dropWhile isspace)

/-- The body of the loop over the lines up to the comparisons: the trimmed key and value. -/
def keyValue (line : Bytes) : Except Fault (Option (Bytes × Bytes)) :=
  let (key, before, rest) := strtok [] (line.takeWhile (· ≠ 0))
  let (value, _, _) := strtok before rest
  match key, value with
  | some key, some value => do
    let key ← trim key
    let value ← trim value
    return some (key, value)
  | _, _ => .ok none

theorem length_fgets {size : Nat} {file line rest : Bytes} (hsize : 1 < size)
    (h : fgets size file = some (line, rest)) : rest.length < file.length := by
  unfold fgets at h
  split at h
  · cases h
  · next hne =>
    have hpos : 0 < file.length := List.length_pos_iff.mpr hne
    have htake : (file.take (size - 1)).length = min (size - 1) file.length := List.length_take
    simp only [Option.some.injEq, Prod.mk.injEq] at h
    rw [← h.2, List.length_drop]
    split <;> omega

/-- `while (fgets(linebuf, sizeof(linebuf), p_file) != NULL)`, with the assignments of one
program for a key and a value. -/
def readStatus {σ : Type*} (assign : σ → Bytes → Bytes → Except Fault σ) (file : Bytes) (s : σ) :
    Except Fault σ :=
  match _h : fgets 256 file with
  | none => .ok s
  | some (line, rest) =>
    match keyValue line with
    | .error e => .error e
    | .ok none => readStatus assign rest s
    | .ok (some (key, value)) =>
      match assign s key value with
      | .error e => .error e
      | .ok s => readStatus assign rest s
termination_by file.length
decreasing_by all_goals exact length_fgets (by decide) _h

/-- `atoi`: `strtol`, which stops at the bounds of `long`, converted to `int`. -/
def atoi (s : Bytes) : Int :=
  let s := s.dropWhile isspace
  let (negative, s) := match s with
    | 45 :: s => (true, s)
    | 43 :: s => (false, s)
    | s => (false, s)
  let digits := s.takeWhile fun b => 48 ≤ b ∧ b ≤ 57
  let n : Int := digits.foldl (fun n b => 10 * n + (b.toNat - 48 : Int)) 0
  toInt32 (max (-2 ^ 63) (min (2 ^ 63 - 1) (if negative then -n else n)))

/-- The local variables that the programs fill from a status file. -/
structure Fields where
  procname : Option Bytes
  pid : Option Bytes
  ppid : Option Bytes
  keepme : Bool
  deriving DecidableEq

def Fields.start : Fields := { procname := none, pid := none, ppid := none, keepme := false }

end Tlpi.Proc
