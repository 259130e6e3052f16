import Tlpi.Lib.File
import Tlpi.Lib.CInt
import Tlpi.Lib.CString

/-!
# `tail`

`13-file-io-buffering/tail.c`. The program fills its static buffer from the start of the file
until it has met more newlines than it has to print lines, looks for the right one of them in
the buffer and seeks relative to the end of the file. The buffer is searched with `strchr` as if
it held a string, so a file that fills it makes the search run past the end of the array, and
`str_occurrence_offset` returns an unassigned pointer when it has to skip no line. Both are
`Fault`s here; on all other files the program is right (`main_eq_ok_iff`).
-/

namespace Tlpi.Tail

open Tlpi.Lib

def BUFFER_SIZE : Nat := 1024 * 5

/-- `str_occurrences(buf, c)` -/
def strOccurrences (c : UInt8) (buf : Bytes) : Except Fault Nat :=
  match h : strchr c buf with
  | .error e => .error e
  | .ok none => .ok 0
  | .ok (some pch) => do
    let count ← strOccurrences c pch.tail
    return count + 1
termination_by buf.length
decreasing_by
  have := length_of_strchr h
  rw [List.length_tail]
  omega

/-- `str_occurrence_offset(buf, c, n)`; `pch` is the variable before the remaining `n`
iterations, unassigned at first. -/
def strOccurrenceOffset (c : UInt8) : Nat → Option Bytes → Bytes → Except Fault (Option Bytes)
  | 0, none, _ => .error .uninitialised
  | 0, some pch, _ => .ok (some pch.tail)
  | n + 1, _, buf => do
    match ← strchr c buf with
    | none => return none
    | some pch => strOccurrenceOffset c n (some pch) pch.tail

/-- `tail_file(fd)`: what it writes to standard output. -/
def tailFile (file : Bytes) (fd : Fd) : Bytes :=
  if _h : 0 < (fd.read file BUFFER_SIZE).1.length then
    (fd.read file BUFFER_SIZE).1 ++ tailFile file (fd.read file BUFFER_SIZE).2
  else []
termination_by file.length - fd.offset
decreasing_by exact Fd.left_after_read _h

/-- The variables of the scanning loop. -/
structure Scan where
  fd : Fd
  buf : Bytes
  offset : Int
  curline : Int

/-- The variables before the loop. -/
def Scan.start : Scan :=
  { fd := { offset := 0, append := false }, buf := List.replicate BUFFER_SIZE 0
    offset := 0, curline := 0 }

/-- The `do` loop of `main`. -/
def scan (numberLines : Int) (file : Bytes) (s : Scan) : Except Fault Scan :=
  let data := (s.fd.read file BUFFER_SIZE).1
  let fd := (s.fd.read file BUFFER_SIZE).2
  let numbytes := data.length
  let buf := data ++ s.buf.drop numbytes
  let offset := toInt32 (s.offset - numbytes)
  match strOccurrences newline buf with
  | .error e => .error e
  | .ok count =>
    let curline := toInt32 (s.curline + count)
    if _h : numbytes ≠ BUFFER_SIZE then .ok { fd, buf, offset, curline }
    else if curline ≤ numberLines then scan numberLines file { fd, buf, offset, curline }
    else .ok { fd, buf, offset, curline }
termination_by file.length - s.fd.offset
decreasing_by
  apply Fd.left_after_read
  have : (s.fd.read file BUFFER_SIZE).1.length = BUFFER_SIZE := not_not.mp _h
  rw [this]
  decide

/-- One turn of that loop: the variables after it, and whether there is another. -/
def turn (numberLines : Int) (file : Bytes) (s : Scan) : Except Fault (Scan × Bool) := do
  let data := (s.fd.read file BUFFER_SIZE).1
  let fd := (s.fd.read file BUFFER_SIZE).2
  let numbytes := data.length
  let buf := data ++ s.buf.drop numbytes
  let offset := toInt32 (s.offset - numbytes)
  let count ← strOccurrences newline buf
  let curline := toInt32 (s.curline + count)
  return ({ fd, buf, offset, curline }, numbytes = BUFFER_SIZE && curline ≤ numberLines)

/-- `main` from the open file on: what it writes to standard output. The static buffer is at
address `bufAddr`, and a null `nlptr` at 0. -/
def main (bufAddr : Nat) (numberLines : Int) (file : Bytes) : Except Fault Bytes := do
  let s ← scan numberLines file .start
  if s.curline ≥ numberLines then
    let nlptr ← strOccurrenceOffset newline (s.curline - numberLines).toNat none s.buf
    let addr : Int := match nlptr with
      | none => 0
      | some p => bufAddr + (BUFFER_SIZE - p.length)
    let offset := toInt32 (s.offset + toInt32 (addr - bufAddr))
    return tailFile file (s.fd.lseek file offset .fileEnd).2
  else return tailFile file (s.fd.lseek file 0 .set).2

/-- What `tail -n` is for: the last `n` lines of a file, or all when there are fewer. -/
def lastLines (n : Nat) (file : Bytes) : Bytes :=
  ((lines file).drop ((lines file).length - n)).flatten

/-! ## Searching the buffer -/

theorem newline_ne_zero : newline ≠ 0 := by decide

section Equations

variable {c : UInt8} {buf : Bytes}

theorem strOccurrences_error {e : Fault} (h : strchr c buf = .error e) :
    strOccurrences c buf = .error e := by
  rw [strOccurrences]
  split <;> simp_all

theorem strOccurrences_none (h : strchr c buf = .ok none) : strOccurrences c buf = .ok 0 := by
  rw [strOccurrences]
  split <;> simp_all

theorem strOccurrences_some {pch : Bytes} (h : strchr c buf = .ok (some pch)) :
    strOccurrences c buf = (strOccurrences c pch.tail).map (· + 1) := by
  rw [strOccurrences]
  split <;> simp_all
  rfl

end Equations

theorem strOccurrences_string {c : UInt8} (hc0 : c ≠ 0) {s : Bytes} (h0 : 0 ∉ s) (z : Bytes) :
    strOccurrences c (s ++ 0 :: z) = .ok (s.count c) := by
  induction s using strchr_induction c with
  | absent l hl => rw [strOccurrences_none (strchr_nul hl h0 hc0 z), List.count_eq_zero.mpr hl]
  | found l s hl ih =>
    rw [List.mem_append, List.mem_cons, not_or, not_or] at h0
    rw [List.append_assoc, List.cons_append, strOccurrences_some (strchr_found hl h0.1 _),
      List.tail_cons, ih h0.2.2, List.count_append, List.count_eq_zero.mpr hl, List.count_cons_self,
      Nat.zero_add]
    rfl

theorem strOccurrences_overrun {c : UInt8} {buf : Bytes} (h0 : 0 ∉ buf) :
    strOccurrences c buf = .error .outOfBounds := by
  induction buf using strchr_induction c with
  | absent l hl => exact strOccurrences_error (strchr_overrun hl h0)
  | found l s hl ih =>
    rw [List.mem_append, List.mem_cons, not_or, not_or] at h0
    rw [strOccurrences_some (strchr_found hl h0.1 s), List.tail_cons, ih h0.2.2]
    rfl

theorem strOccurrenceOffset_text {ls : List Bytes} (hnl : ∀ l ∈ ls, newline ∉ l)
    (h0 : ∀ l ∈ ls, 0 ∉ l) {k : Nat} (hk : k < ls.length) (pch : Option Bytes) (z : Bytes) :
    strOccurrenceOffset newline (k + 1) pch (text ls ++ z) =
      .ok (some (text (ls.drop (k + 1)) ++ z)) := by
  induction ls generalizing k pch with
  | nil => cases hk
  | cons l ls ih =>
    rw [List.forall_mem_cons] at hnl h0
    have h := strchr_found hnl.1 h0.1 (text ls ++ z)
    rw [text_cons, List.append_assoc, List.cons_append, strOccurrenceOffset, h]
    cases k with
    | zero => rfl
    | succ k => exact ih hnl.2 h0.2 (by simpa using hk) (some (newline :: (text ls ++ z)))

/-! ## Printing -/

theorem tailFile_eq (file : Bytes) (fd : Fd) : tailFile file fd = file.drop fd.offset := by
  fun_induction tailFile file fd with
  | case1 fd h ih =>
    rw [ih]
    exact pread_append_drop file fd.offset BUFFER_SIZE
  | case2 fd h =>
    rw [Fd.read, length_pread] at h
    rw [List.drop_of_length_le]
    unfold BUFFER_SIZE at h
    omega

/-! ## The scanning loop -/

theorem scan_eq (numberLines : Int) (file : Bytes) (s : Scan) :
    scan numberLines file s = (turn numberLines file s >>= fun t =>
      if t.2 = true then scan numberLines file t.1 else .ok t.1) := by
  rw [scan, turn]
  cases strOccurrences newline
      ((s.fd.read file BUFFER_SIZE).1 ++ s.buf.drop (s.fd.read file BUFFER_SIZE).1.length) with
  | error e => rfl
  | ok count =>
    by_cases hfull : (s.fd.read file BUFFER_SIZE).1.length = BUFFER_SIZE
    · simp [hfull, bind, Except.bind, pure, Except.pure]
    · simp [hfull, bind, Except.bind, pure, Except.pure]

section Turn

variable {file : Bytes} (h0 : 0 ∉ file) (numberLines : Int)

include h0

theorem turn_short (hlen : file.length < BUFFER_SIZE) :
    turn numberLines file .start = .ok
      ({ fd := { offset := file.length, append := false }
         buf := file ++ List.replicate (BUFFER_SIZE - file.length) 0
         offset := -file.length
         curline := file.count newline }, false) := by
  have hread : Scan.start.fd.read file BUFFER_SIZE =
      (file, { offset := file.length, append := false }) := by
    simp [Scan.start, Fd.read, pread, List.take_of_length_le (Nat.le_of_lt hlen)]
  have hpad : List.replicate (BUFFER_SIZE - file.length) (0 : UInt8) =
      0 :: List.replicate (BUFFER_SIZE - file.length - 1) 0 := by
    rw [← List.replicate_succ]
    congr 1
    omega
  have hcount := strOccurrences_string newline_ne_zero h0
    (List.replicate (BUFFER_SIZE - file.length - 1) 0)
  rw [← hpad] at hcount
  have hle := List.count_le_length (a := newline) (l := file)
  unfold BUFFER_SIZE at hlen
  have hoff : toInt32 (0 - file.length) = -file.length := by
    rw [toInt32_of_range (by omega) (by omega), Int.zero_sub]
  have hline : toInt32 (0 + file.count newline) = file.count newline := by
    rw [toInt32_of_range (by omega) (by omega), Int.zero_add]
  have hfull : file.length ≠ BUFFER_SIZE := by unfold BUFFER_SIZE; omega
  rw [turn, hread]
  simp only [Scan.start, List.drop_replicate, hcount, hoff, bind, Except.bind, pure,
    Except.pure, hline, hfull, decide_false, Bool.false_and]

/-- A file that fills the buffer makes the search run past it. -/
theorem turn_overrun (hlen : BUFFER_SIZE ≤ file.length) :
    turn numberLines file .start = .error .outOfBounds := by
  have hread : (Scan.start.fd.read file BUFFER_SIZE).1 = file.take BUFFER_SIZE := by
    simp [Scan.start, Fd.read, pread]
  have hbuf : (Scan.start.fd.read file BUFFER_SIZE).1 ++
      Scan.start.buf.drop (Scan.start.fd.read file BUFFER_SIZE).1.length =
        file.take BUFFER_SIZE := by
    rw [hread, List.length_take, Nat.min_eq_left hlen, List.drop_of_length_le, List.append_nil]
    simp [Scan.start]
  rw [turn, hbuf, strOccurrences_overrun fun h => h0 (List.mem_of_mem_take h)]
  rfl

theorem scan_short (hlen : file.length < BUFFER_SIZE) :
    scan numberLines file .start = .ok
      { fd := { offset := file.length, append := false }
        buf := file ++ List.replicate (BUFFER_SIZE - file.length) 0
        offset := -file.length
        curline := file.count newline } := by
  rw [scan_eq, turn_short h0 numberLines hlen]
  rfl

theorem scan_overrun (hlen : BUFFER_SIZE ≤ file.length) :
    scan numberLines file .start = .error .outOfBounds := by
  rw [scan_eq, turn_overrun h0 numberLines hlen]
  rfl

end Turn

/-! ## The program -/

theorem lastLines_text {ls : List Bytes} (hnl : ∀ l ∈ ls, newline ∉ l) (n : Nat) :
    lastLines n (text ls) = text (ls.drop (ls.length - n)) := by
  rw [lastLines, lines_text hnl, List.length_map, ← List.map_drop]
  rfl

section Short

variable {ls : List Bytes} (hnl : ∀ l ∈ ls, newline ∉ l) (h0 : 0 ∉ text ls)
  (hlen : (text ls).length < BUFFER_SIZE) (bufAddr : Nat)

include hnl h0 hlen

/-- No line has to be skipped and there are exactly as many lines as asked for. -/
theorem main_uninitialised : main bufAddr ls.length (text ls) = .error .uninitialised := by
  simp only [main, scan_short h0 _ hlen, count_newline_text hnl, bind, Except.bind]
  rw [if_pos (Int.le_refl _), Int.sub_self]
  rfl

theorem main_few {n : Nat} (hn : ls.length < n) : main bufAddr n (text ls) = .ok (text ls) := by
  have htarget : Fd.target ⟨(text ls).length, false⟩ (text ls) 0 .set = ((0 : Nat) : Int) := rfl
  simp only [main, scan_short h0 _ hlen, count_newline_text hnl, bind, Except.bind]
  rw [if_neg (by omega), Fd.lseek_of_target htarget, tailFile_eq]
  rfl

theorem main_many {n : Nat} (hn : n < ls.length) :
    main bufAddr n (text ls) = .ok (text (ls.drop (ls.length - n))) := by
  obtain ⟨k, hk⟩ : ∃ k, ls.length - n = k + 1 := ⟨ls.length - n - 1, by omega⟩
  have hskip : ((ls.length : Int) - n).toNat = k + 1 := by omega
  have hsplit : text ls = text (ls.take (k + 1)) ++ text (ls.drop (k + 1)) := by
    rw [← text_append, List.take_append_drop]
  have hsum := congrArg List.length hsplit
  rw [List.length_append] at hsum
  have hptr := strOccurrenceOffset_text hnl (fun l hl h => h0 (mem_text_of_mem hl h)) (k := k)
    (by omega) none
    (List.replicate (BUFFER_SIZE - (text ls).length) 0)
  have hlt := hlen
  unfold BUFFER_SIZE at hlt
  have haddr : toInt32 (bufAddr + (BUFFER_SIZE - (text (ls.drop (k + 1)) ++
      List.replicate (BUFFER_SIZE - (text ls).length) 0).length) - bufAddr) =
      (text (ls.take (k + 1))).length := by
    simp only [List.length_append, List.length_replicate, BUFFER_SIZE]
    rw [toInt32_of_range (by omega) (by omega)]
    omega
  have hoff : toInt32 (-((text ls).length : Int) + (text (ls.take (k + 1))).length) =
      -((text (ls.drop (k + 1))).length : Int) := by
    rw [toInt32_of_range (by omega) (by omega)]
    omega
  have htarget : Fd.target ⟨(text ls).length, false⟩ (text ls)
      (-((text (ls.drop (k + 1))).length : Int)) .fileEnd = (text (ls.take (k + 1))).length := by
    simp only [Fd.target]
    omega
  simp only [main, scan_short h0 _ hlen, count_newline_text hnl, bind, Except.bind]
  rw [if_pos (by omega), hskip, hptr]
  simp only [haddr, hoff]
  rw [Fd.lseek_of_target htarget, tailFile_eq, hk, hsplit, List.drop_left]
  rfl

end Short

/-- **When `tail` prints the last lines**, of a file without NULs that is empty or ends in a
newline: when the file leaves room for a NUL in the buffer and does not have exactly `n` lines. -/
theorem main_eq_ok_iff (bufAddr n : Nat) {file : Bytes} (h0 : 0 ∉ file)
    (hend : file = [] ∨ file.getLast? = some newline) :
    main bufAddr n file = .ok (lastLines n file) ↔
      file.length < BUFFER_SIZE ∧ (lines file).length ≠ n := by
  obtain ⟨ls, rfl, hnl⟩ := exists_text hend
  rw [lines_text hnl, List.length_map, lastLines_text hnl]
  rcases Nat.lt_or_ge (text ls).length BUFFER_SIZE with hlen | hlen
  · rcases Nat.lt_trichotomy ls.length n with hn | rfl | hn
    · rw [main_few hnl h0 hlen bufAddr hn, Nat.sub_eq_zero_of_le (by omega), List.drop_zero]
      simp only [true_iff]
      omega
    · rw [main_uninitialised hnl h0 hlen]
      simp
    · rw [main_many hnl h0 hlen bufAddr hn]
      simp only [true_iff]
      omega
  · simp only [main, scan_overrun h0 _ hlen, bind, Except.bind]
    simp only [reduceCtorEq, false_iff]
    omega

/-- The last line of a file of two. -/
theorem main_last_of_two : main 0 1 [97, 10, 98, 10] = .ok [98, 10] :=
  (main_eq_ok_iff 0 1 (by decide) (by decide)).mpr (by decide)

/-- Asked for the one line of a file of one line, `tail` seeks to an address it never computed. -/
theorem main_one_line_of_one : ¬ ∀ (bufAddr n : Nat) (file : Bytes), 0 ∉ file →
    file = [] ∨ file.getLast? = some newline → main bufAddr n file = .ok (lastLines n file) := by
  intro h
  have hok := h 0 1 (text [[97]]) (by decide) (by decide)
  have herr : main 0 ([[97]] : List Bytes).length (text [[97]]) = .error .uninitialised :=
    main_uninitialised (by decide) (by decide) (by decide) 0
  rw [List.length_singleton] at herr
  exact absurd (herr.symm.trans hok) nofun

end Tlpi.Tail
