import Mathlib

/-!
# Regular files

A regular file is its list of bytes; a byte past the end reads as zero (`byteAt`). `pwrite`
and `pread` are one transfer at a given offset: a write past the end fills the gap with zeros,
a write of no bytes changes nothing, and a read returns what is left before the end. `Fd` is an
open file description with its own offset and `O_APPEND` flag; `read`, `write` and `lseek` move
the offset. Two files are equal when their lengths and bytes are (`Bytes.ext`), and
`length_pwrite` and `byteAt_pwrite` describe a write in these terms.
-/

namespace Tlpi.Lib

abbrev Bytes := List UInt8

/-- Membership in a list of strings is decided with this. -/
instance : LawfulBEq Bytes := inferInstance

/-- The byte at offset `i`, zero past the end. -/
def byteAt (f : Bytes) (i : Nat) : UInt8 := f.getD i 0

def pwrite (f : Bytes) (off : Nat) (data : Bytes) : Bytes :=
  if data = [] then f
  else f.take off ++ List.replicate (off - f.length) 0 ++ data ++ f.drop (off + data.length)

def pread (f : Bytes) (off n : Nat) : Bytes := (f.drop off).take n

/-! ## Bytes -/

theorem Bytes.ext {f g : Bytes} (hl : f.length = g.length) (hb : ∀ i, byteAt f i = byteAt g i) :
    f = g := by
  refine List.ext_getElem hl fun i h1 h2 => ?_
  have h := hb i
  simpa only [byteAt, List.getD_eq_getElem _ _ h1, List.getD_eq_getElem _ _ h2] using h

theorem byteAt_of_le {f : Bytes} {i : Nat} (h : f.length ≤ i) : byteAt f i = 0 :=
  List.getD_eq_default _ _ h

theorem byteAt_append_left {f g : Bytes} {i : Nat} (h : i < f.length) :
    byteAt (f ++ g) i = byteAt f i := List.getD_append _ _ _ _ h

theorem byteAt_append_right {f g : Bytes} {i : Nat} (h : f.length ≤ i) :
    byteAt (f ++ g) i = byteAt g (i - f.length) := List.getD_append_right _ _ _ _ h

theorem byteAt_take {f : Bytes} {n i : Nat} (h : i < n) : byteAt (f.take n) i = byteAt f i := by
  simp [byteAt, List.getD_eq_getElem?_getD, h]

theorem byteAt_drop (f : Bytes) (n i : Nat) : byteAt (f.drop n) i = byteAt f (n + i) := by
  simp [byteAt, List.getD_eq_getElem?_getD]

theorem byteAt_replicate_zero (n i : Nat) : byteAt (List.replicate n 0) i = 0 := by
  rcases Nat.lt_or_ge i n with h | h
  · simp [byteAt, List.getD_eq_getElem?_getD, h]
  · exact byteAt_of_le (by simpa using h)

theorem byteAt_append_zeros (f : Bytes) (n i : Nat) :
    byteAt (f ++ List.replicate n 0) i = byteAt f i := by
  rcases Nat.lt_or_ge i f.length with h | h
  · rw [byteAt_append_left h]
  · rw [byteAt_append_right h, byteAt_replicate_zero, byteAt_of_le h]

/-! ## Writes -/

theorem pwrite_nil (f : Bytes) (off : Nat) : pwrite f off [] = f := rfl

theorem length_pwrite {f : Bytes} {off : Nat} {data : Bytes} (h : data ≠ []) :
    (pwrite f off data).length = max f.length (off + data.length) := by
  simp only [pwrite, if_neg h, List.length_append, List.length_take, List.length_replicate,
    List.length_drop]
  omega

/-- **The bytes after a write**: those written in their range, the old ones elsewhere. -/
theorem byteAt_pwrite (f : Bytes) (off : Nat) (data : Bytes) (i : Nat) :
    byteAt (pwrite f off data) i =
      if off ≤ i ∧ i < off + data.length then byteAt data (i - off) else byteAt f i := by
  by_cases hd : data = []
  · subst hd
    rw [pwrite_nil, if_neg (by simp)]
  · have hgap : (f.take off ++ List.replicate (off - f.length) 0).length = off := by simp; omega
    have hmid : (f.take off ++ List.replicate (off - f.length) 0 ++ data).length =
        off + data.length := by rw [List.length_append, hgap]
    rw [pwrite, if_neg hd]
    rcases Nat.lt_or_ge i off with h1 | h1
    · rw [if_neg (by omega), byteAt_append_left (by omega), byteAt_append_left (by omega)]
      rw [byteAt_append_zeros, byteAt_take h1]
    · rcases Nat.lt_or_ge i (off + data.length) with h2 | h2
      · rw [if_pos ⟨h1, h2⟩, byteAt_append_left (by omega), byteAt_append_right (by omega), hgap]
      · rw [if_neg (by omega), byteAt_append_right (by omega), hmid, byteAt_drop]
        congr 1
        omega

theorem pwrite_append (f : Bytes) (off : Nat) (a b : Bytes) :
    pwrite (pwrite f off a) (off + a.length) b = pwrite f off (a ++ b) := by
  by_cases ha : a = []
  · subst ha; simp [pwrite_nil]
  by_cases hb : b = []
  · subst hb; simp [pwrite_nil]
  apply Bytes.ext
  · rw [length_pwrite hb, length_pwrite ha, length_pwrite (by simp [ha]), List.length_append]
    omega
  · intro i
    simp only [byteAt_pwrite, List.length_append]
    by_cases h1 : off + a.length ≤ i ∧ i < off + a.length + b.length
    · rw [if_pos h1, if_pos (by omega), byteAt_append_right (by omega)]
      congr 1
      omega
    · rw [if_neg h1]
      by_cases h2 : off ≤ i ∧ i < off + a.length
      · rw [if_pos h2, if_pos (by omega), byteAt_append_left (by omega)]
      · rw [if_neg h2, if_neg (by omega)]

/-- A write past the end leaves a hole that reads as zeros. -/
theorem pwrite_past_end (f : Bytes) (n : Nat) {data : Bytes} (h : data ≠ []) :
    pwrite f (f.length + n) data = f ++ List.replicate n 0 ++ data := by
  rw [pwrite, if_neg h, List.take_of_length_le (by omega), Nat.add_sub_cancel_left,
    List.drop_of_length_le (by omega), List.append_nil]

/-! ## Reads -/

theorem length_pread (f : Bytes) (off n : Nat) :
    (pread f off n).length = min n (f.length - off) := by
  simp [pread]

theorem pread_min (f : Bytes) (off n : Nat) :
    pread f off (min n (f.length - off)) = pread f off n := by
  rw [pread, pread, List.take_eq_take_iff, List.length_drop]
  omega

theorem pread_append (f : Bytes) (off m n : Nat) :
    pread f off (m + n) = pread f off m ++ pread f (off + m) n := by
  rw [pread, List.take_add, List.drop_drop]; rfl

theorem pread_append_drop (f : Bytes) (off n : Nat) :
    pread f off n ++ f.drop (off + (pread f off n).length) = f.drop off := by
  rw [← List.drop_drop, length_pread, ← pread_min, pread, List.take_append_drop]

theorem pread_pwrite_same (f : Bytes) (off : Nat) (data : Bytes) :
    pread (pwrite f off data) off data.length = data := by
  by_cases h : data = []
  · subst h; simp [pread]
  · apply Bytes.ext
    · rw [length_pread, length_pwrite h]; omega
    · intro i
      rcases Nat.lt_or_ge i data.length with hi | hi
      · rw [pread, byteAt_take hi, byteAt_drop, byteAt_pwrite, if_pos (by omega)]
        congr 1
        omega
      · rw [byteAt_of_le hi, byteAt_of_le (by rw [length_pread]; omega)]

/-! ## Scattered buffers -/

/-- Store `data` in buffers in order, each one filled before the next is touched; what `data`
does not reach keeps its old content. -/
def scatter (data : Bytes) : List Bytes → List Bytes
  | [] => []
  | b :: bs => (data.take b.length ++ b.drop data.length) :: scatter (data.drop b.length) bs

theorem scatter_nil : ∀ bs : List Bytes, scatter [] bs = bs
  | [] => rfl
  | b :: bs => by simp [scatter, scatter_nil bs]

theorem map_length_scatter (data : Bytes) (bs : List Bytes) :
    (scatter data bs).map List.length = bs.map List.length := by
  induction bs generalizing data with
  | nil => rfl
  | cons b bs ih =>
    simp only [scatter, List.map_cons, ih, List.length_append, List.length_take, List.length_drop]
    congr 1
    omega

/-- Scattering is a store into the concatenated buffers. -/
theorem flatten_scatter {data : Bytes} {bs : List Bytes} (h : data.length ≤ bs.flatten.length) :
    (scatter data bs).flatten = data ++ bs.flatten.drop data.length := by
  induction bs generalizing data with
  | nil =>
    have : data = [] := by simpa using h
    simp [scatter, this]
  | cons b bs ih =>
    rw [List.flatten_cons, List.length_append] at h
    have hrest : (data.drop b.length).length ≤ bs.flatten.length := by
      rw [List.length_drop]
      omega
    rw [scatter, List.flatten_cons, ih hrest, List.flatten_cons, List.length_drop, List.drop_append]
    rcases Nat.le_total b.length data.length with hb | hb
    · rw [List.drop_of_length_le hb, List.append_nil, List.nil_append, ← List.append_assoc,
        List.take_append_drop]
    · rw [List.take_of_length_le hb, List.drop_of_length_le hb, Nat.sub_eq_zero_of_le hb]
      simp

/-! ## Open file descriptions -/

inductive Whence where
  | set
  | cur
  | fileEnd
  deriving DecidableEq

structure Fd where
  offset : Nat
  append : Bool
  deriving DecidableEq

/-- `write(fd, data, n)`: all bytes are stored, at the end of the file with `O_APPEND`. -/
def Fd.write (fd : Fd) (f data : Bytes) : Fd × Bytes :=
  let off := if fd.append then f.length else fd.offset
  ({ fd with offset := off + data.length }, pwrite f off data)

/-- `read(fd, buf, n)` -/
def Fd.read (fd : Fd) (f : Bytes) (n : Nat) : Bytes × Fd :=
  let data := pread f fd.offset n
  (data, { fd with offset := fd.offset + data.length })

theorem Fd.left_after_read {fd : Fd} {f : Bytes} {n : Nat} (h : 0 < (fd.read f n).1.length) :
    f.length - (fd.read f n).2.offset < f.length - fd.offset := by
  simp only [Fd.read, length_pread] at h ⊢
  omega

/-- The offset that `lseek(fd, off, whence)` asks for. -/
def Fd.target (fd : Fd) (f : Bytes) (off : Int) : Whence → Int
  | .set => off
  | .cur => fd.offset + off
  | .fileEnd => f.length + off

/-- `lseek(fd, off, whence)`: the new offset, or -1 with the offset unchanged when the new one
would be negative. -/
def Fd.lseek (fd : Fd) (f : Bytes) (off : Int) (whence : Whence) : Int × Fd :=
  let target := fd.target f off whence
  if target < 0 then (-1, fd) else (target, { fd with offset := target.toNat })

theorem Fd.lseek_of_target {fd : Fd} {f : Bytes} {off : Int} {whence : Whence} {n : Nat}
    (h : fd.target f off whence = n) :
    fd.lseek f off whence = ((n : Int), { fd with offset := n }) := by
  simp only [Fd.lseek, h, Int.toNat_natCast]
  rw [if_neg (by omega)]

end Tlpi.Lib
