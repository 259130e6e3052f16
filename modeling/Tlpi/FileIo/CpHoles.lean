import Tlpi.Lib.File

/-!
# Copying with holes

`04-file-io-universal-io-model/cpholes.c` copies a file byte by byte, counts the NUL bytes it
meets and skips them with one `lseek` before the next data byte. After any prefix of the input
the output is that prefix without its trailing NULs, and those are `holeSize` (`Copy.Inv`),
whatever the reads were. The length is then restored by storing one NUL over the last byte of
the file (`fixup`), which is right only when that byte was a NUL.
-/

namespace Tlpi.CpHoles

open Tlpi.Lib

def BUF_SIZE : Nat := 1024

/-- The results of the successive `read` calls on an input file. -/
structure Reads (input : Bytes) where
  chunks : List Bytes
  flatten_eq : chunks.flatten = input
  bounds : ∀ buf ∈ chunks, buf ≠ [] ∧ buf.length ≤ BUF_SIZE

/-- The copy loop's state; `written` lists the bytes written so far with their offsets. -/
structure Copy where
  outputFd : Fd
  output : Bytes
  holeSize : Nat
  written : List (UInt8 × Nat)

/-- After `open` with `O_TRUNC`. -/
def Copy.start : Copy :=
  { outputFd := { offset := 0, append := false }, output := [], holeSize := 0, written := [] }

/-- `write(outputFd, &b, 1)` -/
def Copy.write (s : Copy) (b : UInt8) : Copy :=
  let (outputFd, output) := s.outputFd.write s.output [b]
  { s with outputFd, output, written := s.written ++ [(b, s.outputFd.offset)] }

/-- `lseek(outputFd, off, whence)` -/
def Copy.lseek (s : Copy) (off : Int) (whence : Whence) : Copy :=
  { s with outputFd := (s.outputFd.lseek s.output off whence).2 }

/-- The body of the `for` loop. -/
def Copy.byte (s : Copy) (b : UInt8) : Copy :=
  if b = 0 then { s with holeSize := s.holeSize + 1 }
  else if s.holeSize > 0 then { (s.lseek s.holeSize .cur).write b with holeSize := 0 }
  else s.write b

/-- The `while` loop. -/
def copyLoop (chunks : List Bytes) (s : Copy) : Copy :=
  chunks.foldl (fun s buf => buf.foldl Copy.byte s) s

/-- From `lastApparentByte` on; `inputFd` is at the end of the input. -/
def fixup (input : Bytes) (s : Copy) : Copy :=
  let inputFd : Fd := { offset := input.length, append := false }
  let lastApparentByte := (inputFd.lseek input (-1) .fileEnd).1
  (s.lseek lastApparentByte .set).write 0

/-- The output file. -/
def main (input : Bytes) (reads : Reads input) : Bytes :=
  (fixup input (copyLoop reads.chunks .start)).output

/-! ## The copy loop -/

/-- After the prefix `p` of the input: the output is `p` without its trailing NULs, these are
`holeSize`, and exactly the other bytes that are not NUL have been written. -/
structure Copy.Inv (p : Bytes) (s : Copy) : Prop where
  consumed : p = s.output ++ List.replicate s.holeSize 0
  fd : s.outputFd = { offset := s.output.length, append := false }
  last : s.output.getLast? ≠ some 0
  written : s.written = p.zipIdx.filter fun x => x.1 ≠ 0

theorem Copy.Inv.start : Copy.Inv [] .start := ⟨rfl, rfl, by simp [Copy.start], rfl⟩

theorem Copy.lseek_of_target {s : Copy} {off : Int} {whence : Whence} {n : Nat}
    (h : s.outputFd.target s.output off whence = n) :
    s.lseek off whence = { s with outputFd := { s.outputFd with offset := n } } := by
  rw [Copy.lseek, Fd.lseek_of_target h]

/-- The two branches that write make the same write, past the pending hole. -/
theorem Copy.byte_of_ne {p : Bytes} {s : Copy} {b : UInt8} (hi : Copy.Inv p s) (hb : b ≠ 0) :
    s.byte b =
      { outputFd := { offset := p.length + 1, append := false }
        output := p ++ [b]
        holeSize := 0
        written := s.written ++ [(b, p.length)] } := by
  have hlen : p.length = s.output.length + s.holeSize := by rw [hi.consumed]; simp
  have hwrite : pwrite s.output p.length [b] = p ++ [b] := by
    rw [hlen, pwrite_past_end _ _ (by simp), ← hi.consumed]
  rw [Copy.byte, if_neg hb]
  split
  · have htarget : s.outputFd.target s.output s.holeSize .cur = p.length := by
      rw [hi.fd, Fd.target, hlen, Nat.cast_add]
    rw [Copy.lseek_of_target htarget]
    simp [Copy.write, Fd.write, hi.fd, hwrite]
  · have hzero : s.holeSize = 0 := by omega
    rw [hzero, Nat.add_zero] at hlen
    simp [Copy.write, Fd.write, hi.fd, ← hlen, hwrite, hzero]

theorem Copy.Inv.byte {p : Bytes} {s : Copy} (hi : Copy.Inv p s) (b : UInt8) :
    Copy.Inv (p ++ [b]) (s.byte b) := by
  have hsnoc : (p ++ [b]).zipIdx = p.zipIdx ++ [(b, p.length)] := by
    rw [List.zipIdx_append, Nat.zero_add]; rfl
  by_cases hb : b = 0
  · rw [Copy.byte, if_pos hb]
    refine ⟨?_, hi.fd, hi.last, ?_⟩
    · rw [List.replicate_succ', ← List.append_assoc, ← hi.consumed, hb]
    · rw [hsnoc, List.filter_append, ← hi.written]
      simp [hb]
  · rw [Copy.byte_of_ne hi hb]
    refine ⟨by simp, by simp, by simp [hb], ?_⟩
    rw [hsnoc, List.filter_append, ← hi.written]
    simp [hb]

theorem Copy.Inv.bytes {p : Bytes} {s : Copy} (hi : Copy.Inv p s) (buf : Bytes) :
    Copy.Inv (p ++ buf) (buf.foldl Copy.byte s) := by
  induction buf generalizing p s with
  | nil => simpa using hi
  | cons b buf ih =>
    have htail := ih (hi.byte b)
    rwa [List.append_assoc, List.singleton_append] at htail

/-- **The copy loop**, for every division of the input into reads. -/
theorem Copy.Inv.copyLoop {p : Bytes} {s : Copy} (hi : Copy.Inv p s) (chunks : List Bytes) :
    Copy.Inv (p ++ chunks.flatten) (CpHoles.copyLoop chunks s) := by
  induction chunks generalizing p s with
  | nil => simpa [CpHoles.copyLoop] using hi
  | cons buf chunks ih =>
    rw [List.flatten_cons, ← List.append_assoc]
    exact ih (hi.bytes buf)

/-! ## What the loop writes -/

/-- The copy loop has written the data of `input` and nothing else: each byte that is not NUL once,
at its own offset. The output holds the bytes of `input` and ends with the last of them that is not
NUL, and the hole that is pending is the NULs after it. -/
structure DataOnly (input : Bytes) (s : Copy) : Prop where
  written : ∀ b o, (b, o) ∈ s.written ↔ input[o]? = some b ∧ b ≠ 0
  once : (s.written.map Prod.snd).Nodup
  offsets : {o | o ∈ s.written.map Prod.snd} = {o | byteAt input o ≠ 0}
  length : ((∀ o, byteAt input o = 0) ∧ s.output.length = 0) ∨
    ∃ o, IsGreatest {o | byteAt input o ≠ 0} o ∧ s.output.length = o + 1
  bytes : ∀ o, byteAt s.output o = byteAt input o
  holeSize : s.holeSize = (input.reverse.takeWhile (· = 0)).length

section DataOnly

variable {input : Bytes} {s : Copy}

theorem Copy.Inv.mem_written (hi : Copy.Inv input s) (b : UInt8) (o : Nat) :
    (b, o) ∈ s.written ↔ input[o]? = some b ∧ b ≠ 0 := by
  rw [hi.written, List.mem_filter, List.mk_mem_zipIdx_iff_getElem?, decide_eq_true_eq]

theorem byteAt_ne_zero_iff (input : Bytes) (o : Nat) :
    byteAt input o ≠ 0 ↔ ∃ b, input[o]? = some b ∧ b ≠ 0 := by
  rw [byteAt, List.getD_eq_getElem?_getD]
  cases input[o]? <;> simp

theorem Copy.Inv.mem_offsets (hi : Copy.Inv input s) (o : Nat) :
    o ∈ s.written.map Prod.snd ↔ byteAt input o ≠ 0 := by
  simp only [List.mem_map, Prod.exists, exists_eq_right, hi.mem_written, byteAt_ne_zero_iff]

theorem Copy.Inv.offsets_nodup (hi : Copy.Inv input s) : (s.written.map Prod.snd).Nodup := by
  have hidx : (input.zipIdx.map Prod.snd).Nodup := by
    rw [List.zipIdx_map_snd]
    exact List.nodup_range'
  rw [hi.written]
  exact hidx.sublist (List.filter_sublist.map Prod.snd)

theorem Copy.Inv.byteAt_eq (hi : Copy.Inv input s) (o : Nat) :
    byteAt input o = byteAt s.output o := by
  rw [hi.consumed, byteAt_append_zeros]

theorem Copy.Inv.output_concat (hi : Copy.Inv input s) (hne : s.output ≠ []) :
    ∃ init b, s.output = init ++ [b] ∧ b ≠ 0 := by
  obtain ⟨init, b, heq⟩ := (List.eq_nil_or_concat s.output).resolve_left hne
  rw [List.concat_eq_append] at heq
  refine ⟨init, b, heq, fun hb => hi.last ?_⟩
  rw [heq, hb, List.getLast?_concat]

theorem Copy.Inv.isGreatest_offset (hi : Copy.Inv input s) (hne : s.output ≠ []) :
    IsGreatest {o | byteAt input o ≠ 0} (s.output.length - 1) := by
  obtain ⟨init, b, heq, hb⟩ := hi.output_concat hne
  have hlen : s.output.length = init.length + 1 := by rw [heq, List.length_append]; rfl
  constructor
  · show byteAt input (s.output.length - 1) ≠ 0
    rw [hi.byteAt_eq, hlen, heq, Nat.add_sub_cancel, byteAt_append_right (Nat.le_refl _),
      Nat.sub_self]
    exact hb
  · intro o ho
    by_contra hlt
    refine ho ?_
    rw [hi.byteAt_eq]
    exact byteAt_of_le (by omega)

theorem Copy.Inv.holeSize_eq (hi : Copy.Inv input s) :
    s.holeSize = (input.reverse.takeWhile (· = 0)).length := by
  have hstop : s.output.reverse.takeWhile (· = 0) = [] := by
    rcases eq_or_ne s.output [] with hnil | hne
    · rw [hnil]; rfl
    · obtain ⟨init, b, heq, hb⟩ := hi.output_concat hne
      rw [heq, List.reverse_append]
      exact List.takeWhile_cons_of_neg (by simpa using hb)
  rw [hi.consumed, List.reverse_append, List.reverse_replicate,
    List.takeWhile_append_of_pos (by simp [List.mem_replicate]), hstop, List.append_nil,
    List.length_replicate]

theorem Copy.Inv.dataOnly (hi : Copy.Inv input s) : DataOnly input s where
  written := hi.mem_written
  once := hi.offsets_nodup
  offsets := Set.ext hi.mem_offsets
  length := by
    rcases eq_or_ne s.output [] with hnil | hne
    · refine .inl ⟨fun o => ?_, by rw [hnil]; rfl⟩
      rw [hi.byteAt_eq, hnil]
      exact byteAt_of_le (Nat.zero_le o)
    · exact .inr ⟨_, hi.isGreatest_offset hne, by
        have := List.length_pos_iff.mpr hne
        omega⟩
  bytes o := (hi.byteAt_eq o).symm
  holeSize := hi.holeSize_eq

end DataOnly

/-- **The copy loop writes the data bytes only**, and what it does depends on the input but not on
the reads that deliver it. -/
theorem dataOnly_copyLoop (input : Bytes) (reads : Reads input) :
    DataOnly input (copyLoop reads.chunks .start) ∧
      ∀ reads' : Reads input, copyLoop reads'.chunks .start = copyLoop reads.chunks .start := by
  have hi := Copy.Inv.start.copyLoop reads.chunks
  rw [reads.flatten_eq, List.nil_append] at hi
  have hflat : ∀ chunks, copyLoop chunks .start = chunks.flatten.foldl Copy.byte .start :=
    fun chunks => (List.foldl_flatten).symm
  refine ⟨hi.dataOnly, fun reads' => ?_⟩
  rw [hflat, hflat, reads.flatten_eq, reads'.flatten_eq]

/-! ## The last byte -/

/-- What `main` makes of an input: the last byte becomes a NUL, and an empty input a NUL. -/
theorem main_eq (input : Bytes) (reads : Reads input) :
    main input reads = input.dropLast ++ [0] := by
  have hi := Copy.Inv.start.copyLoop reads.chunks
  rw [reads.flatten_eq, List.nil_append] at hi
  rw [main]
  generalize CpHoles.copyLoop reads.chunks .start = s at hi
  have hlen : input.length = s.output.length + s.holeSize := by rw [hi.consumed]; simp
  rcases List.eq_nil_or_concat input with rfl | ⟨init, b, rfl⟩
  · -- `lseek(inputFd, -1, SEEK_END)` fails, so does the next one, and the NUL goes to offset 0
    have hnil : s.output = [] :=
      List.eq_nil_of_length_eq_zero (by rw [List.length_nil] at hlen; omega)
    simp [fixup, Copy.write, Copy.lseek, Fd.write, Fd.lseek, Fd.target, hi.fd, hnil, pwrite]
  · rw [List.concat_eq_append] at hi hlen ⊢
    rw [List.length_append, List.length_singleton] at hlen
    have hin : ({ offset := (init ++ [b]).length, append := false } : Fd).target (init ++ [b]) (-1)
        .fileEnd = init.length := by simp [Fd.target]
    have hout : s.outputFd.target s.output init.length .set = init.length := rfl
    have hfix : (fixup (init ++ [b]) s).output = pwrite s.output init.length [0] := by
      rw [fixup, Fd.lseek_of_target hin, Copy.lseek_of_target hout]
      simp [Copy.write, Fd.write, hi.fd]
    rw [hfix, List.dropLast_concat]
    apply Bytes.ext
    · rw [length_pwrite (by simp), List.length_append, List.length_singleton]
      omega
    · intro i
      rw [byteAt_pwrite, ← hi.byteAt_eq]
      rcases Nat.lt_trichotomy i init.length with h | rfl | h
      · rw [if_neg (by omega), byteAt_append_left h, byteAt_append_left h]
      · rw [if_pos (by simp), byteAt_append_right (Nat.le_refl _)]
      · rw [if_neg (by simp; omega), byteAt_of_le (by simp; omega), byteAt_of_le (by simp; omega)]

end Tlpi.CpHoles
