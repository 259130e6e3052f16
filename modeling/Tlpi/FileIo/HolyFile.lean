import Tlpi.Lib.CInt
import Tlpi.Lib.CString
import Tlpi.Lib.File

/-!
# Files with holes

`04-file-io-universal-io-model/holy_file.c` writes a pattern of 80 bytes byte by byte, seeks over a
gap, and does so as often as it is told. A gap becomes part of the file when something is written
after it, so all are but the last (`Filled`): the file always lacks one of the gaps asked for.

The offset that `lseek` returns is kept in an `int`. Where that comes out negative the program takes
it for an error and gives up (`main_ret_iff`).
-/

namespace Tlpi.HolyFile

open Tlpi.Lib

def PATTERN_CHUNK_SIZE : Nat := 80

def TEST_PATTERN : Bytes := bytesOf "1234567890_HelloWorld\n"

/-- `TEST_PATTERN[i % strlen(TEST_PATTERN)]` -/
def patternByte (i : Nat) : UInt8 := byteAt TEST_PATTERN (i % TEST_PATTERN.length)

/-- The inner loop: the descriptor and the file after it. -/
def writeChunk (fd : Fd) (file : Bytes) : Fd × Bytes :=
  (List.range PATTERN_CHUNK_SIZE).foldl (fun s i => s.1.write s.2 [patternByte i]) (fd, file)

/-- The outer loop with so many turns to go: what `main` returns and the file. -/
def fillGaps (gapSize : Int) : Nat → Fd → Bytes → Int × Bytes
  | 0, _, file => (0, file)
  | n + 1, fd, file =>
    let (fd, file) := writeChunk fd file
    let (offset, fd) := fd.lseek file gapSize .cur
    let err := toInt32 offset
    if err < 0 then (1, file) else fillGaps gapSize n fd file

/-- `main` with the values of `atoi`, where `opens` says whether the file may be opened. -/
def main (opens : Bool) (numGaps gapSize : Int) (file : Bytes) : Int × Bytes :=
  if numGaps = 0 ∨ gapSize = 0 then (1, file)
  else if opens then fillGaps gapSize numGaps.toNat { offset := 0, append := false } []
  else (1, file)

/-! ## One turn -/

theorem foldl_write (bytes : Bytes) (offset : Nat) (file : Bytes) :
    bytes.foldl (fun s b => s.1.write s.2 [b]) (({ offset, append := false } : Fd), file) =
      ({ offset := offset + bytes.length, append := false }, pwrite file offset bytes) := by
  induction bytes generalizing offset file with
  | nil => rfl
  | cons b bytes ih =>
    rw [List.foldl_cons]
    show bytes.foldl _ (({ offset := offset + 1, append := false } : Fd), pwrite file offset [b]) =
        _
    rw [ih, List.length_cons, Nat.add_assoc, Nat.add_comm 1]
    congr 1
    exact pwrite_append file offset [b] bytes

/-- The 80 bytes of a chunk. -/
def chunk : Bytes := (List.range PATTERN_CHUNK_SIZE).map patternByte

theorem length_chunk : chunk.length = 80 := by
  rw [chunk, List.length_map, List.length_range]
  rfl

theorem writeChunk_eq (offset : Nat) (file : Bytes) :
    writeChunk { offset, append := false } file =
      ({ offset := offset + 80, append := false }, pwrite file offset chunk) := by
  rw [writeChunk, ← length_chunk, ← foldl_write, chunk, List.foldl_map]

/-- What was asked for: the chunks, each with a gap after it. -/
def wanted (numGaps gapSize : Nat) : Bytes :=
  (List.replicate numGaps (chunk ++ List.replicate gapSize 0)).flatten

theorem wanted_succ (k gapSize : Nat) :
    wanted (k + 1) gapSize = wanted k gapSize ++ (chunk ++ List.replicate gapSize 0) := by
  rw [wanted, List.replicate_succ', List.flatten_append, List.flatten_singleton]
  rfl

theorem length_wanted (k gapSize : Nat) : (wanted k gapSize).length = k * (80 + gapSize) := by
  induction k with
  | zero => rw [Nat.zero_mul]; rfl
  | succ k ih =>
    rw [wanted_succ, List.length_append, ih, List.length_append, length_chunk,
      List.length_replicate, Nat.succ_mul]

/-- The file after `k` turns, with the offset behind the last gap: that gap is not in the file. -/
structure Filled (gapSize k : Nat) (fd : Fd) (file : Bytes) : Prop where
  file : file ++ List.replicate (if k = 0 then 0 else gapSize) 0 = wanted k gapSize
  fd : fd = { offset := k * (80 + gapSize), append := false }

theorem Filled.start (gapSize : Nat) : Filled gapSize 0 { offset := 0, append := false } [] :=
  ⟨rfl, by rw [Nat.zero_mul]⟩

/-- The descriptor behind the `k`-th gap. -/
def behindGap (gapSize k : Nat) : Fd := { offset := k * (80 + gapSize), append := false }

theorem Filled.turn {gapSize k : Nat} {fd : Fd} {file : Bytes} (h : Filled gapSize k fd file) :
    ∃ fd' file', writeChunk fd file = (fd', file') ∧
      fd'.lseek file' gapSize .cur =
        ((((k + 1) * (80 + gapSize) : Nat) : Int), behindGap gapSize (k + 1)) ∧
      Filled gapSize (k + 1) (behindGap gapSize (k + 1)) file' := by
  have hlen : k * (80 + gapSize) = file.length + if k = 0 then 0 else gapSize := by
    rw [← length_wanted, ← h.file, List.length_append, List.length_replicate]
  have hne : chunk ≠ [] := List.ne_nil_of_length_pos (by rw [length_chunk]; decide)
  have hchunk := writeChunk_eq (k * (80 + gapSize)) file
  rw [← h.fd] at hchunk
  refine ⟨_, _, hchunk, Fd.lseek_of_target ?_, ?_, rfl⟩
  · show ((k * (80 + gapSize) + 80 : Nat) : Int) + gapSize = _
    rw [Nat.succ_mul]
    push_cast
    ring
  · rw [if_neg (Nat.succ_ne_zero k), hlen, pwrite_past_end _ _ hne, h.file, wanted_succ,
      List.append_assoc]

/-! ## The loop -/

/-- The loop returns 0 exactly when every offset is a non-negative `int`, and then it has left all
but the last gap in the file. -/
theorem fillGaps_spec {gapSize k : Nat} {fd : Fd} {file : Bytes} (n : Nat)
    (h : Filled gapSize k fd file) :
    ((fillGaps gapSize n fd file).1 = 0 ↔
      ∀ j, k < j → j ≤ k + n → 0 ≤ toInt32 ((j * (80 + gapSize) : Nat) : Int)) ∧
    ((fillGaps gapSize n fd file).1 = 0 →
      (fillGaps gapSize n fd file).2 ++ List.replicate (if k + n = 0 then 0 else gapSize) 0 =
        wanted (k + n) gapSize) := by
  induction n generalizing k fd file with
  | zero => exact ⟨iff_of_true rfl fun j h1 h2 => absurd h1 (by omega), fun _ => h.file⟩
  | succ n ih =>
    obtain ⟨fd', file', hchunk, hseek, hturn⟩ := h.turn
    rw [fillGaps, hchunk]
    dsimp only
    rw [hseek]
    dsimp only
    split
    · next hneg =>
      refine ⟨iff_of_false one_ne_zero fun hall => ?_, fun hzero => absurd hzero one_ne_zero⟩
      have hoff := hall (k + 1) (Nat.lt_succ_self k) (by omega)
      omega
    · next hnonneg =>
      obtain ⟨hret, hfile⟩ := ih hturn
      rw [Nat.add_assoc, Nat.add_comm 1 n] at hret hfile
      refine ⟨hret.trans ⟨fun hall j h1 h2 => ?_, fun hall j h1 h2 => hall j (by omega) h2⟩, hfile⟩
      by_cases hj : j = k + 1
      · rw [hj]
        exact not_lt.mp hnonneg
      · exact hall j (by omega) h2

/-! ## The program -/

section Main

variable {numGaps gapSize : Nat}

theorem main_eq_fillGaps (hgaps : 1 ≤ numGaps) (hsize : 1 ≤ gapSize) (file : Bytes) :
    main true numGaps gapSize file =
      fillGaps gapSize numGaps { offset := 0, append := false } [] := by
  rw [main, if_neg (by omega), if_pos rfl, Int.toNat_natCast]

/-- **When `main` returns 0**: when no offset behind a gap is negative as an `int`. -/
theorem main_ret_iff (hgaps : 1 ≤ numGaps) (hsize : 1 ≤ gapSize) (file : Bytes) :
    (main true numGaps gapSize file).1 = 0 ↔
      ∀ j, 0 < j → j ≤ numGaps → 0 ≤ toInt32 ((j * (80 + gapSize) : Nat) : Int) := by
  rw [main_eq_fillGaps hgaps hsize, (fillGaps_spec numGaps (Filled.start gapSize)).1, Nat.zero_add]

theorem main_lacks_gap (hgaps : 1 ≤ numGaps) (hsize : 1 ≤ gapSize) {file file' : Bytes}
    (h : main true numGaps gapSize file = (0, file')) :
    file' ++ List.replicate gapSize 0 = wanted numGaps gapSize := by
  rw [main_eq_fillGaps hgaps hsize] at h
  have hfile := (fillGaps_spec numGaps (Filled.start gapSize)).2 (congrArg Prod.fst h)
  rwa [h, Nat.zero_add, if_neg (by omega)] at hfile

/-- **The gaps are never all there.** -/
theorem main_ne_wanted (numGaps gapSize : Nat) (hgaps : 1 ≤ numGaps) (hsize : 1 ≤ gapSize)
    (file : Bytes) : main true numGaps gapSize file ≠ (0, wanted numGaps gapSize) := by
  intro h
  have hlen := congrArg List.length (main_lacks_gap hgaps hsize h)
  rw [List.length_append, List.length_replicate] at hlen
  omega

end Main

/-- One gap of one byte. -/
theorem main_ne_wanted_one : main true (1 : Nat) (1 : Nat) [] ≠ (0, wanted 1 1) :=
  main_ne_wanted 1 1 (by decide) (by decide) []

/-- Asked for one gap, the program makes a file without any. -/
theorem one_gap_is_missing : ¬ ∀ (numGaps gapSize : Nat) (file : Bytes), 1 ≤ numGaps → 1 ≤ gapSize →
    main true numGaps gapSize file = (0, wanted numGaps gapSize) := by
  intro h
  have hmain := h 1 1 [] (Nat.le_refl 1) (Nat.le_refl 1)
  have hlen := congrArg List.length (main_lacks_gap (Nat.le_refl 1) (Nat.le_refl 1) hmain)
  rw [List.length_append, List.length_replicate] at hlen
  omega

end Tlpi.HolyFile
