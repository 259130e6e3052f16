import Tlpi.Lib.File
import Tlpi.Lib.CInt

/-!
# Vector I/O on top of `read` and `write`

`writev` and `readv` of `05-file-io-further-details/vector_fileio.c`. Both first add up the
lengths in an `unsigned long long` and then make one system call per buffer, keep its result in
an `int` and stop at the first short count. They are modelled over an arbitrary `write` and
`read`; on a regular file (`fileWrite`, `fileRead`) `writev` is one write of the concatenated
buffers and `readv` scatters one read over its buffers, so the two divisions into buffers need
not have anything in common.
-/

namespace Tlpi.VectorIo

open Tlpi.Lib

/-- What a call returns: -1 after `errno = EINVAL`, or the value at its end. -/
inductive Ret where
  | einval
  | value (n : Int)
  deriving DecidableEq

/-- The loop that adds up the lengths: false when it returns `EINVAL`. -/
def lengthsOk : Nat → List Nat → Bool
  | _, [] => true
  | cnt, len :: lens =>
    let cnt := (cnt + len) % 2 ^ 64
    if cnt > SSIZE_MAX then false else lengthsOk cnt lens

section Calls

variable {σ : Type*} (write : σ → Bytes → Int × σ) (read : σ → Nat → Int × Bytes × σ)

/-- The loop of `writev`, `total` being `total_bytes_written`. -/
def writeLoop : Int → List Bytes → σ → Int × σ
  | total, [], s => (total, s)
  | total, vec :: iov, s =>
    let (ret, s) := write s vec
    let bytesWritten := toInt32 ret
    if bytesWritten < 0 then (bytesWritten, s)
    else
      let total := toInt64 (total + bytesWritten)
      if toUInt64 bytesWritten < vec.length then (total, s) else writeLoop total iov s

/-- `writev(fildes, iov, iovcnt)`; the state is that of the file. -/
def writev (s : σ) (iov : List Bytes) (iovcnt : Int) : Ret × σ :=
  if iovcnt < 0 then (.einval, s)
  else
    let iov := iov.take iovcnt.toNat
    if lengthsOk 0 (iov.map List.length) then
      let (ret, s) := writeLoop write 0 iov s
      (.value ret, s)
    else (.einval, s)

/-- The loop of `readv`, `total` being `total_bytes_read`: the value, the buffers and the file.
A call that returns `data` stores it at the start of the buffer. -/
def readLoop : Int → List Bytes → σ → Int × List Bytes × σ
  | total, [], s => (total, [], s)
  | total, vec :: iov, s =>
    let (ret, data, s) := read s vec.length
    let bytesRead := toInt32 ret
    let filled := data ++ vec.drop data.length
    if bytesRead < 0 then (bytesRead, filled :: iov, s)
    else
      let total := toInt64 (total + bytesRead)
      if toUInt64 bytesRead < vec.length then (total, filled :: iov, s)
      else
        let (ret, iov, s) := readLoop total iov s
        (ret, filled :: iov, s)

/-- `readv(fildes, iov, iovcnt)`: the value, the buffers after it and the file. -/
def readv (s : σ) (iov : List Bytes) (iovcnt : Int) : Ret × List Bytes × σ :=
  if iovcnt ≤ 0 then (.einval, iov, s)
  else
    let vecs := iov.take iovcnt.toNat
    if lengthsOk 0 (vecs.map List.length) then
      let (ret, vecs, s) := readLoop read 0 vecs s
      (.value ret, vecs ++ iov.drop iovcnt.toNat, s)
    else (.einval, iov, s)

end Calls

/-! ## Regular files -/

/-- A descriptor of a regular file, opened without `O_APPEND`, at offset `o`. -/
def openAt (f : Bytes) (o : Nat) : Fd × Bytes := ({ offset := o, append := false }, f)

def fileWrite (s : Fd × Bytes) (data : Bytes) : Int × (Fd × Bytes) :=
  (data.length, s.1.write s.2 data)

def fileRead (s : Fd × Bytes) (n : Nat) : Int × Bytes × (Fd × Bytes) :=
  let (data, fd) := s.1.read s.2 n
  (data.length, data, (fd, s.2))

theorem fileWrite_openAt (f data : Bytes) (o : Nat) :
    fileWrite (openAt f o) data =
      ((data.length : Int), openAt (pwrite f o data) (o + data.length)) := rfl

theorem fileRead_openAt (f : Bytes) (o n : Nat) :
    fileRead (openAt f o) n =
      (((pread f o n).length : Int), pread f o n, openAt f (o + (pread f o n).length)) := rfl

/-! ## The length check -/

theorem lengthsOk_of_sum_le {lens : List Nat} {cnt : Nat} (h : cnt + lens.sum ≤ SSIZE_MAX) :
    lengthsOk cnt lens = true := by
  induction lens generalizing cnt with
  | nil => rfl
  | cons len lens ih =>
    rw [List.sum_cons] at h
    have hmod : (cnt + len) % 2 ^ 64 = cnt + len :=
      Nat.mod_eq_of_lt (by unfold SSIZE_MAX at h; omega)
    simp only [lengthsOk, hmod]
    rw [if_neg (by omega), ih (by omega)]

/-! ## One call -/

theorem count_exact (total : Nat) {n : Nat} (hn : n < 2 ^ 31) (htotal : total + n ≤ SSIZE_MAX) :
    toInt32 n = n ∧ toInt64 (total + n) = ((total + n : Nat) : Int) ∧ toUInt64 (n : Int) = n := by
  unfold SSIZE_MAX at htotal
  refine ⟨toInt32_of_range (by omega) (by omega), ?_, ?_⟩
  · rw [toInt64_of_range (by omega) (by omega)]
    rfl
  · rw [toUInt64_of_range (by omega) (by omega)]
    rfl

theorem writeLoop_file (total : Nat) {ws : List Bytes} (hlen : ∀ w ∈ ws, w.length < 2 ^ 31)
    (htotal : total + ws.flatten.length ≤ SSIZE_MAX) (f : Bytes) (o : Nat) :
    writeLoop fileWrite total ws (openAt f o) =
      (((total + ws.flatten.length : Nat) : Int),
        openAt (pwrite f o ws.flatten) (o + ws.flatten.length)) := by
  induction ws generalizing total f o with
  | nil => rfl
  | cons w ws ih =>
    rw [List.flatten_cons, List.length_append] at htotal
    obtain ⟨h32, h64, hu⟩ := count_exact total (hlen w List.mem_cons_self) (by omega)
    have htail := ih (total + w.length) (fun v hv => hlen v (List.mem_cons_of_mem _ hv))
      (by omega) (pwrite f o w) (o + w.length)
    simp only [writeLoop, fileWrite_openAt, h32, h64, hu]
    rw [if_neg (by omega), if_neg (Nat.lt_irrefl _), htail, pwrite_append, List.flatten_cons,
      List.length_append, Nat.add_assoc, Nat.add_assoc]

theorem readLoop_file (total : Nat) {rs : List Bytes} (hlen : ∀ r ∈ rs, r.length < 2 ^ 31)
    (htotal : total + rs.flatten.length ≤ SSIZE_MAX) (f : Bytes) (o : Nat) :
    readLoop fileRead total rs (openAt f o) =
      (((total + (pread f o rs.flatten.length).length : Nat) : Int),
        scatter (pread f o rs.flatten.length) rs,
        openAt f (o + (pread f o rs.flatten.length).length)) := by
  induction rs generalizing total o with
  | nil => simp [readLoop, pread, scatter]
  | cons r rs ih =>
    rw [List.flatten_cons, List.length_append] at htotal
    have hle : (pread f o r.length).length ≤ r.length := by rw [length_pread]; omega
    have hr := hlen r List.mem_cons_self
    obtain ⟨h32, h64, hu⟩ := count_exact total (n := (pread f o r.length).length) (by omega)
      (by omega)
    simp only [readLoop, fileRead_openAt, h32, h64, hu]
    rw [if_neg (by omega), List.flatten_cons, List.length_append, pread_append]
    rcases Nat.lt_or_ge (pread f o r.length).length r.length with hshort | hfull
    · -- the file ends inside this buffer, so nothing is left for the later ones
      have hrest : pread f (o + r.length) rs.flatten.length = [] := by
        rw [length_pread] at hshort
        rw [List.eq_nil_iff_length_eq_zero, length_pread]
        omega
      rw [if_pos hshort, hrest, List.append_nil, scatter, List.take_of_length_le hle,
        List.drop_of_length_le hle, scatter_nil]
    · have hlen_eq : (pread f o r.length).length = r.length := by omega
      have htail := ih (total + r.length)
        (fun v hv => hlen v (List.mem_cons_of_mem _ hv)) (by omega) (o + r.length)
      rw [if_neg (by omega), hlen_eq, htail, scatter, List.length_append, hlen_eq,
        List.take_left' hlen_eq, List.drop_left' hlen_eq, Nat.add_assoc, Nat.add_assoc,
        List.drop_of_length_le (Nat.le_refl _), List.drop_of_length_le (by simp)]

/-! ## The calls -/

theorem writev_file {ws : List Bytes} (hlen : ∀ w ∈ ws, w.length < 2 ^ 31)
    (hsum : ws.flatten.length ≤ SSIZE_MAX) (f : Bytes) (o : Nat) :
    writev fileWrite (openAt f o) ws ws.length =
      (.value ws.flatten.length, openAt (pwrite f o ws.flatten) (o + ws.flatten.length)) := by
  have hcheck : lengthsOk 0 (ws.map List.length) = true :=
    lengthsOk_of_sum_le (by rw [← List.length_flatten]; omega)
  have hloop := writeLoop_file 0 hlen (by omega) f o
  rw [Nat.zero_add, Nat.cast_zero] at hloop
  simp only [writev, Int.toNat_natCast, List.take_length, hcheck, if_true, hloop]
  rw [if_neg (by omega)]

theorem readv_file {rs : List Bytes} (hne : rs ≠ []) (hlen : ∀ r ∈ rs, r.length < 2 ^ 31)
    (hsum : rs.flatten.length ≤ SSIZE_MAX) (f : Bytes) (o : Nat) :
    readv fileRead (openAt f o) rs rs.length =
      (.value (pread f o rs.flatten.length).length, scatter (pread f o rs.flatten.length) rs,
        openAt f (o + (pread f o rs.flatten.length).length)) := by
  have hcheck : lengthsOk 0 (rs.map List.length) = true :=
    lengthsOk_of_sum_le (by rw [← List.length_flatten]; omega)
  have hpos : 0 < rs.length := List.length_pos_iff.mpr hne
  have hloop := readLoop_file 0 hlen (by omega) f o
  rw [Nat.zero_add, Nat.cast_zero] at hloop
  simp only [readv, Int.toNat_natCast, List.take_length, List.drop_length, List.append_nil, hcheck,
    if_true, hloop]
  rw [if_neg (by omega)]

/-- **Round trip under any re-segmentation.** `writev` at an offset is one write of the
concatenated buffers there, and returns its length. `readv` from the same offset returns the
number `n` of bytes there are for its buffers, stores them in order in the first `n` bytes of the
buffers and leaves the rest alone; with equal sums it reads back what was written. -/
theorem readv_writev (f : Bytes) (o : Nat) (ws rs : List Bytes) (hne : rs ≠ [])
    (hws : ∀ w ∈ ws, w.length < 2 ^ 31) (hrs : ∀ r ∈ rs, r.length < 2 ^ 31)
    (hsumw : (ws.map List.length).sum ≤ SSIZE_MAX) (hsumr : (rs.map List.length).sum ≤ SSIZE_MAX) :
    let written := writev fileWrite (openAt f o) ws ws.length
    let file := written.2.2
    let got := readv fileRead (openAt file o) rs rs.length
    let n := min (rs.map List.length).sum (file.length - o)
    written.1 = .value (ws.map List.length).sum ∧ file = pwrite f o ws.flatten ∧
      got.1 = .value n ∧ got.2.1.map List.length = rs.map List.length ∧
      got.2.1.flatten = pread file o n ++ rs.flatten.drop n ∧
      ((rs.map List.length).sum = (ws.map List.length).sum → got.2.1.flatten = ws.flatten) := by
  simp only [← List.length_flatten] at hsumw hsumr ⊢
  rw [writev_file hws hsumw]
  simp only [openAt, true_and]
  rw [← openAt, readv_file hne hrs hsumr]
  have hle : (pread (pwrite f o ws.flatten) o rs.flatten.length).length ≤ rs.flatten.length := by
    rw [length_pread]; omega
  have hflat := flatten_scatter hle
  refine ⟨by rw [length_pread], map_length_scatter _ _, ?_, fun heq => ?_⟩
  · rw [pread_min, ← length_pread]
    exact hflat
  · rw [heq, pread_pwrite_same] at hflat
    rw [heq, pread_pwrite_same, hflat, ← heq, List.drop_length, List.append_nil]

/-- Three bytes written from three buffers at offset 1 of an empty file are read back into two. -/
theorem readv_writev_two :
    (writev fileWrite (openAt [] 1) [[5], [], [6, 7]] 3).1 = .value 3 ∧
      (writev fileWrite (openAt [] 1) [[5], [], [6, 7]] 3).2.2 = [0, 5, 6, 7] ∧
      (readv fileRead (openAt (writev fileWrite (openAt [] 1) [[5], [], [6, 7]] 3).2.2 1)
        [[9], [9, 9]] 2).2.1.flatten = [5, 6, 7] := by
  have h := readv_writev [] 1 [[5], [], [6, 7]] [[9], [9, 9]] (by decide) (by decide) (by decide)
    (by decide) (by decide)
  exact ⟨h.1, h.2.1, h.2.2.2.2.2 (by decide)⟩

end Tlpi.VectorIo
