import Tlpi.FileIo.VectorIo

/-!
# Vector I/O over calls that stop short or fail

`writev` and `readv` when the `write` and `read` under them return what they like: the `k`-th call
returns `-1` (`none`) or a count (`some c`), which for `read` is that of the bytes it delivers. A
`Chan` records the calls made, the bytes that have moved and the file offset. What both loops
return, how many bytes they move and how many calls they make depends on the lengths and the
counts alone: that is `transfer`, and both loops refine it. The counts pass through an `int`, so
what is returned is what was moved only while they fit one (`CountsFit`).
-/

namespace Tlpi.VectorIo

open Tlpi.Lib

/-- A file as its calls have left it. -/
structure Chan where
  calls : Nat
  moved : Bytes
  offset : Nat

/-- A file at offset `o` before any call. -/
def chanAt (o : Nat) : Chan := { calls := 0, moved := [], offset := o }

/-- `write` with its results given. -/
def chanWrite (counts : Nat → Option Nat) (s : Chan) (buf : Bytes) : Int × Chan :=
  match counts s.calls with
  | none => (-1, { s with calls := s.calls + 1 })
  | some c =>
    (c, { calls := s.calls + 1, moved := s.moved ++ buf.take c, offset := s.offset + c })

/-- `read` with what it delivers given. -/
def chanRead (data : Nat → Option Bytes) (s : Chan) (_ : Nat) : Int × Bytes × Chan :=
  match data s.calls with
  | none => (-1, [], { s with calls := s.calls + 1 })
  | some d =>
    (d.length, d,
      { calls := s.calls + 1, moved := s.moved ++ d, offset := s.offset + d.length })

/-- The results of `read`. -/
def lengths (data : Nat → Option Bytes) (k : Nat) : Option Nat := (data k).map List.length

/-- The calls from the `k`-th on count no more bytes than they were asked for. -/
def Within (counts : Nat → Option Nat) (k : Nat) (lens : List Nat) : Prop :=
  ∀ j len, lens[j]? = some len → ∀ c, counts (k + j) = some c → c ≤ len

theorem Within.head {counts : Nat → Option Nat} {k len : Nat} {lens : List Nat}
    (h : Within counts k (len :: lens)) : ∀ c, counts k = some c → c ≤ len :=
  h 0 len rfl

theorem Within.tail {counts : Nat → Option Nat} {k len : Nat} {lens : List Nat}
    (h : Within counts k (len :: lens)) : Within counts (k + 1) lens := by
  intro j len' hget c hc
  rw [Nat.add_right_comm] at hc
  exact h (j + 1) len' hget c hc

/-! ## One call -/

theorem toInt32_natCast (c : Nat) :
    toInt32 c = if c % 2 ^ 32 < 2 ^ 31 then ((c % 2 ^ 32 : Nat) : Int)
      else ((c % 2 ^ 32 : Nat) : Int) - 2 ^ 32 := by
  unfold toInt32
  rw [Int.bmod_def]
  split <;> split <;> omega

/-- A call lets the loop go on when it moved the whole buffer and the count fits an `int`. -/
theorem goes_on_iff {c len : Nat} (h : c ≤ len) :
    (¬ toInt32 c < 0 ∧ ¬ toUInt64 (toInt32 c) < len) ↔ c = len ∧ len < 2 ^ 31 := by
  rw [toInt32_natCast]
  unfold toUInt64
  constructor
  · rintro ⟨hneg, hshort⟩
    split at hneg <;> split at hshort <;> omega
  · rintro ⟨rfl, hlt⟩
    rw [if_pos (by omega)]
    omega

theorem toInt32_eq_neg_one_iff (c : Nat) : toInt32 c = -1 ↔ c % 2 ^ 32 = 2 ^ 32 - 1 := by
  rw [toInt32_natCast]
  split <;> omega

/-! ## Counting -/

/-- What a loop returns, the bytes it has moved and the calls made by then. -/
structure Transfer where
  value : Int
  moved : Nat
  calls : Nat

/-- The value of a loop that stops at a call that moved `c` bytes. -/
def stopValue (total : Int) (c : Nat) : Int :=
  if toInt32 c < 0 then toInt32 c else toInt64 (total + toInt32 c)

/-- Both loops from the `k`-th call on, as far as they count. -/
def transfer (counts : Nat → Option Nat) : Nat → Int → List Nat → Transfer
  | k, total, [] => ⟨total, 0, k⟩
  | k, total, len :: lens =>
    match counts k with
    | none => ⟨-1, 0, k + 1⟩
    | some c =>
      if toInt32 c < 0 ∨ toUInt64 (toInt32 c) < len then ⟨stopValue total c, c, k + 1⟩
      else
        let t := transfer counts (k + 1) (toInt64 (total + toInt32 c)) lens
        { t with moved := c + t.moved }

section Transfer

variable {counts : Nat → Option Nat} {k len : Nat} {total : Int} {lens : List Nat}

theorem transfer_none (h : counts k = none) :
    transfer counts k total (len :: lens) = ⟨-1, 0, k + 1⟩ := by
  rw [transfer, h]

theorem transfer_stop {c : Nat} (h : counts k = some c)
    (hstop : toInt32 c < 0 ∨ toUInt64 (toInt32 c) < len) :
    transfer counts k total (len :: lens) = ⟨stopValue total c, c, k + 1⟩ := by
  rw [transfer, h]
  exact if_pos hstop

theorem transfer_full {c : Nat} (h : counts k = some c)
    (hfull : ¬ (toInt32 c < 0 ∨ toUInt64 (toInt32 c) < len)) :
    transfer counts k total (len :: lens) =
      ⟨(transfer counts (k + 1) (toInt64 (total + toInt32 c)) lens).value,
        c + (transfer counts (k + 1) (toInt64 (total + toInt32 c)) lens).moved,
        (transfer counts (k + 1) (toInt64 (total + toInt32 c)) lens).calls⟩ := by
  rw [transfer, h]
  exact if_neg hfull

theorem full_of_not_stop {c : Nat} (hle : c ≤ len)
    (hfull : ¬ (toInt32 c < 0 ∨ toUInt64 (toInt32 c) < len)) : c = len ∧ len < 2 ^ 31 :=
  (goes_on_iff hle).mp (not_or.mp hfull)

/-- **The three ways a call can go**: it fails, it ends the loop, or it moves the whole buffer. -/
theorem transfer_cases (total : Int) (h : Within counts k (len :: lens)) :
    (counts k = none ∧ transfer counts k total (len :: lens) = ⟨-1, 0, k + 1⟩) ∨
    (∃ c, counts k = some c ∧ c ≤ len ∧ ¬ (c = len ∧ len < 2 ^ 31) ∧
      transfer counts k total (len :: lens) = ⟨stopValue total c, c, k + 1⟩) ∨
    (counts k = some len ∧ len < 2 ^ 31 ∧
      transfer counts k total (len :: lens) =
        ⟨(transfer counts (k + 1) (toInt64 (total + len)) lens).value,
          len + (transfer counts (k + 1) (toInt64 (total + len)) lens).moved,
          (transfer counts (k + 1) (toInt64 (total + len)) lens).calls⟩) := by
  cases hc : counts k with
  | none => exact .inl ⟨rfl, transfer_none hc⟩
  | some c =>
    have hle := h.head c hc
    by_cases hstop : toInt32 c < 0 ∨ toUInt64 (toInt32 c) < len
    · refine .inr (.inl ⟨c, rfl, hle, fun hfull => ?_, transfer_stop hc hstop⟩)
      exact not_or.mpr ((goes_on_iff hle).mpr hfull) hstop
    · obtain ⟨rfl, hlt⟩ := full_of_not_stop hle hstop
      refine .inr (.inr ⟨rfl, hlt, ?_⟩)
      rw [transfer_full hc hstop, toInt32_of_range (by omega) (by omega)]

theorem transfer_calls (total : Int) (h : Within counts k lens) :
    ∃ i, (transfer counts k total lens).calls = k + i ∧
      (transfer counts k total lens).moved ≤ (lens.take i).sum ∧
      ∀ j, j + 1 < i → counts (k + j) = lens[j]? := by
  induction lens generalizing k total with
  | nil => exact ⟨0, rfl, Nat.le_refl _, fun j hj => absurd hj (Nat.not_lt_zero _)⟩
  | cons len lens ih =>
    rcases transfer_cases total h with ⟨-, heq⟩ | ⟨c, -, hle, -, heq⟩ | ⟨hc, -, heq⟩
    · rw [heq]
      exact ⟨1, rfl, Nat.zero_le _, fun j hj => by omega⟩
    · rw [heq]
      exact ⟨1, rfl, by simpa using hle, fun j hj => by omega⟩
    · obtain ⟨i, hcalls, hmoved, hfull⟩ := ih (toInt64 (total + len)) h.tail
      rw [heq]
      refine ⟨i + 1, ?_, ?_, fun j hj => ?_⟩
      · rw [hcalls, Nat.add_right_comm, Nat.add_assoc]
      · rw [List.take_succ_cons, List.sum_cons]
        exact Nat.add_le_add_left hmoved len
      · cases j with
        | zero => exact hc
        | succ j =>
          rw [List.getElem?_cons_succ, ← hfull j (by omega), Nat.add_right_comm k 1 j]
          rfl

theorem transfer_moved_le (total : Int) (h : Within counts k lens) :
    (transfer counts k total lens).moved ≤ lens.sum := by
  obtain ⟨i, -, hmoved, -⟩ := transfer_calls total h
  exact hmoved.trans (List.Sublist.sum_le_sum (List.take_sublist i lens) fun _ _ => Nat.zero_le _)

/-- The calls from the `k`-th on that come before the `i`-th of them moved their whole buffers, and
their counts fit an `int`. -/
def FullBefore (counts : Nat → Option Nat) (k : Nat) (lens : List Nat) (i : Nat) : Prop :=
  ∀ j < i, ∃ len < 2 ^ 31, lens[j]? = some len ∧ counts (k + j) = some len

theorem fullBefore_succ {i : Nat} :
    FullBefore counts k (len :: lens) (i + 1) ↔
      (counts k = some len ∧ len < 2 ^ 31) ∧ FullBefore counts (k + 1) lens i := by
  unfold FullBefore
  rw [Nat.forall_lt_succ_left]
  refine and_congr (by simp [and_comm]) (forall₂_congr fun j _ => ?_)
  rw [List.getElem?_cons_succ, Nat.add_right_comm]
  rfl

theorem forall_fullBefore_cons {P : Nat → Prop} :
    (∀ i < (len :: lens).length, FullBefore counts k (len :: lens) i → P i) ↔
      P 0 ∧ (counts k = some len → len < 2 ^ 31 →
        ∀ i < lens.length, FullBefore counts (k + 1) lens i → P (i + 1)) := by
  have hzero : FullBefore counts k (len :: lens) 0 := fun j hj => absurd hj (Nat.not_lt_zero j)
  rw [List.length_cons, Nat.forall_lt_succ_left]
  simp only [fullBefore_succ, hzero, true_implies]
  refine and_congr_right fun _ => ⟨fun h hc hlt i hi hfull => ?_, fun h i hi hfull => ?_⟩
  · exact h i hi ⟨⟨hc, hlt⟩, hfull⟩
  · exact h hfull.1.1 hfull.1.2 i hi hfull.2

/-- Up to the first call that does not move its whole buffer every count fits an `int`. -/
def CountsFit (counts : Nat → Option Nat) (k : Nat) (lens : List Nat) : Prop :=
  ∀ i < lens.length, FullBefore counts k lens i → ∀ c, counts (k + i) = some c → c < 2 ^ 31

/-- What a loop returns when it stops is the number of bytes moved exactly when the last count fits
an `int`. -/
theorem stopValue_eq_iff {total c : Nat} (h : total + c ≤ SSIZE_MAX) :
    stopValue total c = ((total + c : Nat) : Int) ↔ c < 2 ^ 31 := by
  constructor
  · intro hvalue
    by_contra hlarge
    unfold SSIZE_MAX at h
    have hsmall : toInt32 c < c ∧ toInt32 c < 2 ^ 31 := by
      rw [toInt32_natCast]
      split <;> omega
    unfold stopValue at hvalue
    split at hvalue
    · omega
    · rw [toInt64_of_range (by omega) (by omega)] at hvalue
      omega
  · intro hlt
    obtain ⟨h32, h64, -⟩ := count_exact total hlt h
    rw [stopValue, h32, if_neg (by omega), h64]

theorem transfer_value_iff (total : Nat) (h : Within counts k lens)
    (hcount : ∀ j, counts j ≠ none) (hsum : total + lens.sum ≤ SSIZE_MAX) :
    (transfer counts k total lens).value =
        ((total + (transfer counts k total lens).moved : Nat) : Int) ↔
      CountsFit counts k lens := by
  induction lens generalizing k total with
  | nil => exact iff_of_true rfl fun i hi => absurd hi (Nat.not_lt_zero i)
  | cons len lens ih =>
    rw [List.sum_cons] at hsum
    rw [CountsFit, forall_fullBefore_cons]
    rcases transfer_cases total h with ⟨hc, -⟩ | ⟨c, hc, hle, hnfull, heq⟩ | ⟨hc, hlt, heq⟩
    · exact absurd hc (hcount k)
    · rw [heq]
      dsimp only
      rw [stopValue_eq_iff (by omega), Nat.add_zero, hc]
      simp only [Option.some.injEq, forall_eq']
      exact ⟨fun hlt => ⟨hlt, fun hfull hlen => absurd ⟨hfull, hlen⟩ hnfull⟩, And.left⟩
    · obtain ⟨-, h64, -⟩ := count_exact total hlt (by omega)
      have htail := ih (total + len) h.tail (by omega)
      have hfirst : ∀ c, counts (k + 0) = some c → c < 2 ^ 31 := fun c hc' => by
        rwa [← Option.some.inj (hc.symm.trans hc')]
      rw [heq, h64]
      dsimp only
      rw [← Nat.add_assoc, htail, and_iff_right hfirst]
      simp only [hc, hlt, true_implies, CountsFit, Nat.add_assoc, Nat.add_comm 1]

theorem countsFit_of_lt (h : Within counts k lens) (hlen : ∀ len ∈ lens, len < 2 ^ 31) :
    CountsFit counts k lens := by
  intro i hi _ c hc
  have hget := List.getElem?_eq_getElem hi
  exact Nat.lt_of_le_of_lt (h i _ hget c hc) (hlen _ (List.getElem_mem hi))

end Transfer

/-! ## The loops -/

theorem map_length_cons (vec : Bytes) (iov : List Bytes) :
    (vec :: iov).map List.length = vec.length :: iov.map List.length := rfl

theorem writeLoop_eq {counts : Nat → Option Nat} (total : Int) (iov : List Bytes) (s : Chan)
    (h : Within counts s.calls (iov.map List.length)) :
    let t := transfer counts s.calls total (iov.map List.length)
    writeLoop (chanWrite counts) total iov s =
      (t.value, ⟨t.calls, s.moved ++ iov.flatten.take t.moved, s.offset + t.moved⟩) := by
  induction iov generalizing total s with
  | nil => simp [writeLoop, transfer]
  | cons vec iov ih =>
    rw [map_length_cons] at h ⊢
    cases hc : counts s.calls with
    | none =>
      have hcall : chanWrite counts s vec = (-1, { s with calls := s.calls + 1 }) := by
        rw [chanWrite, hc]
      rw [transfer_none hc, writeLoop, hcall]
      simp [toInt32]
    | some c =>
      have hle := h.head c hc
      have hcall : chanWrite counts s vec =
          ((c : Int), ⟨s.calls + 1, s.moved ++ vec.take c, s.offset + c⟩) := by
        rw [chanWrite, hc]
      rw [writeLoop, hcall]
      dsimp only
      by_cases hstop : toInt32 c < 0 ∨ toUInt64 (toInt32 c) < vec.length
      · rw [transfer_stop hc hstop]
        simp only [stopValue, List.flatten_cons, List.take_append_of_le_length hle]
        by_cases hneg : toInt32 c < 0
        · simp only [if_pos hneg]
        · simp only [if_neg hneg, if_pos (hstop.resolve_left hneg)]
      · obtain ⟨hneg, hshort⟩ := not_or.mp hstop
        obtain ⟨rfl, -⟩ := full_of_not_stop hle hstop
        rw [if_neg hneg, if_neg hshort, transfer_full hc hstop, ih _ _ h.tail]
        simp only [List.flatten_cons, List.take_length_add_append, List.take_length,
          List.append_assoc, Nat.add_assoc]

theorem readLoop_eq {data : Nat → Option Bytes} (total : Int) (iov : List Bytes) (s : Chan)
    (h : Within (lengths data) s.calls (iov.map List.length)) :
    let t := transfer (lengths data) s.calls total (iov.map List.length)
    ∃ d : Bytes, d.length = t.moved ∧ readLoop (chanRead data) total iov s =
      (t.value, scatter d iov, ⟨t.calls, s.moved ++ d, s.offset + t.moved⟩) := by
  induction iov generalizing total s with
  | nil => exact ⟨[], rfl, by simp [readLoop, transfer, scatter]⟩
  | cons vec iov ih =>
    rw [map_length_cons] at h ⊢
    cases hd : data s.calls with
    | none =>
      have hc : lengths data s.calls = none := by rw [lengths, hd]; rfl
      have hcall : chanRead data s vec.length = (-1, [], { s with calls := s.calls + 1 }) := by
        rw [chanRead, hd]
      rw [transfer_none hc, readLoop, hcall]
      exact ⟨[], rfl, by simp [toInt32, scatter_nil]⟩
    | some d =>
      have hc : lengths data s.calls = some d.length := by rw [lengths, hd]; rfl
      have hle := h.head _ hc
      have hcall : chanRead data s vec.length =
          ((d.length : Int), d, ⟨s.calls + 1, s.moved ++ d, s.offset + d.length⟩) := by
        rw [chanRead, hd]
      rw [readLoop, hcall]
      dsimp only
      by_cases hstop : toInt32 d.length < 0 ∨ toUInt64 (toInt32 d.length) < vec.length
      · refine ⟨d, by rw [transfer_stop hc hstop], ?_⟩
        rw [transfer_stop hc hstop, scatter, List.take_of_length_le hle, List.drop_of_length_le hle,
          scatter_nil]
        simp only [stopValue]
        by_cases hneg : toInt32 d.length < 0
        · simp only [if_pos hneg]
        · simp only [if_neg hneg, if_pos (hstop.resolve_left hneg)]
      · obtain ⟨hneg, hshort⟩ := not_or.mp hstop
        obtain ⟨hlen, -⟩ := full_of_not_stop hle hstop
        obtain ⟨rest, hrest, hloop⟩ := ih (toInt64 (total + toInt32 d.length))
          ⟨s.calls + 1, s.moved ++ d, s.offset + d.length⟩ h.tail
        refine ⟨d ++ rest, by rw [transfer_full hc hstop, List.length_append, hrest], ?_⟩
        rw [if_neg hneg, if_neg hshort, transfer_full hc hstop, hloop, scatter,
          List.take_left' hlen, List.drop_left' hlen,
          List.drop_of_length_le (Nat.le_of_eq hlen.symm),
          List.drop_of_length_le (by rw [List.length_append]; omega), List.append_assoc,
          Nat.add_assoc]

/-! ## The calls -/

theorem writev_rejected {counts : Nat → Option Nat} {iov : List Bytes} (o : Nat)
    (h : lengthsOk 0 (iov.map List.length) = false) :
    writev (chanWrite counts) (chanAt o) iov iov.length = (.einval, chanAt o) := by
  rw [writev, if_neg (by omega), Int.toNat_natCast, List.take_length]
  simp only [h]
  rfl

theorem readv_rejected {data : Nat → Option Bytes} {iov : List Bytes} (o : Nat)
    (h : lengthsOk 0 (iov.map List.length) = false) :
    readv (chanRead data) (chanAt o) iov iov.length = (.einval, iov, chanAt o) := by
  rw [readv]
  split
  · rfl
  · simp only [Int.toNat_natCast, List.take_length, h]
    rfl

theorem writev_accepted {counts : Nat → Option Nat} {iov : List Bytes} (o : Nat)
    (h : lengthsOk 0 (iov.map List.length) = true)
    (hwithin : Within counts 0 (iov.map List.length)) :
    let t := transfer counts 0 0 (iov.map List.length)
    writev (chanWrite counts) (chanAt o) iov iov.length =
      (.value t.value, ⟨t.calls, iov.flatten.take t.moved, o + t.moved⟩) := by
  have hloop := writeLoop_eq 0 iov (chanAt o) hwithin
  rw [writev, if_neg (by omega), Int.toNat_natCast, List.take_length]
  simp only [h, if_true, hloop]
  rfl

theorem readv_accepted {data : Nat → Option Bytes} {iov : List Bytes} (o : Nat)
    (hne : iov ≠ []) (h : lengthsOk 0 (iov.map List.length) = true)
    (hwithin : Within (lengths data) 0 (iov.map List.length)) :
    let t := transfer (lengths data) 0 0 (iov.map List.length)
    ∃ d : Bytes, d.length = t.moved ∧ readv (chanRead data) (chanAt o) iov iov.length =
      (.value t.value, scatter d iov, ⟨t.calls, d, o + t.moved⟩) := by
  obtain ⟨d, hd, hloop⟩ := readLoop_eq 0 iov (chanAt o) hwithin
  have hpos : 0 < iov.length := List.length_pos_iff.mpr hne
  refine ⟨d, hd, ?_⟩
  rw [readv, if_neg (by omega)]
  simp only [Int.toNat_natCast, List.take_length, List.drop_length, List.append_nil, h, if_true,
    hloop]
  rfl

/-! ## Short counts -/

/-- The bytes passed on are the first of the buffers, and their number is returned. -/
def PassesPrefix (iov : List Bytes) (done : Ret × Chan) : Prop :=
  done.2.moved <+: iov.flatten ∧ done.1 = .value done.2.moved.length

/-- The bytes received are stored in order from the start of the buffers, and their number is
returned; every call but the last filled its buffer, and the buffers no call was made for are
untouched. -/
def PlacesPrefix (data : Nat → Bytes) (iov : List Bytes) (done : Ret × List Bytes × Chan) : Prop :=
  done.1 = .value done.2.2.moved.length ∧
    done.2.1.map List.length = iov.map List.length ∧
    done.2.1.flatten = done.2.2.moved ++ iov.flatten.drop done.2.2.moved.length ∧
    (∀ j, j + 1 < done.2.2.calls → iov[j]?.map List.length = some (data j).length) ∧
    done.2.1.drop done.2.2.calls = iov.drop done.2.2.calls

theorem drop_scatter {d : Bytes} {bs : List Bytes} {i : Nat}
    (h : d.length ≤ ((bs.map List.length).take i).sum) : (scatter d bs).drop i = bs.drop i := by
  induction bs generalizing d i with
  | nil => rfl
  | cons b bs ih =>
    cases i with
    | zero =>
      have : d = [] := by simpa using h
      rw [this, scatter_nil]
    | succ i =>
      rw [List.map_cons, List.take_succ_cons, List.sum_cons] at h
      rw [scatter, List.drop_succ_cons, List.drop_succ_cons]
      apply ih
      rw [List.length_drop]
      omega

theorem writev_passesPrefix {iov : List Bytes} (hlen : ∀ v ∈ iov, v.length < 2 ^ 31)
    (hsum : (iov.map List.length).sum ≤ SSIZE_MAX) {counts : Nat → Nat}
    (hwithin : Within (fun k => some (counts k)) 0 (iov.map List.length)) (o : Nat) :
    PassesPrefix iov
      (writev (chanWrite fun k => some (counts k)) (chanAt o) iov iov.length) := by
  have hvalue := (transfer_value_iff 0 hwithin (fun _ => nofun) (by omega)).mpr
    (countsFit_of_lt hwithin (by simpa using hlen))
  have hmoved := transfer_moved_le 0 hwithin
  rw [writev_accepted o (lengthsOk_of_sum_le (by omega)) hwithin]
  refine ⟨List.take_prefix _ _, ?_⟩
  rw [List.length_take, List.length_flatten, Nat.min_eq_left hmoved]
  simpa using hvalue

theorem readv_placesPrefix {iov : List Bytes} (hne : iov ≠ [])
    (hlen : ∀ v ∈ iov, v.length < 2 ^ 31) (hsum : (iov.map List.length).sum ≤ SSIZE_MAX)
    {data : Nat → Bytes}
    (hwithin : Within (lengths fun k => some (data k)) 0 (iov.map List.length)) (o : Nat) :
    PlacesPrefix data iov (readv (chanRead fun k => some (data k)) (chanAt o) iov iov.length) := by
  have hvalue := (transfer_value_iff 0 hwithin (fun _ => nofun) (by omega)).mpr
    (countsFit_of_lt hwithin (by simpa using hlen))
  have hmoved := transfer_moved_le 0 hwithin
  obtain ⟨i, hcalls, htake, hfull⟩ := transfer_calls 0 hwithin
  have hcheck : lengthsOk 0 (iov.map List.length) = true := lengthsOk_of_sum_le (by omega)
  obtain ⟨d, hd, heq⟩ := readv_accepted o hne hcheck hwithin
  rw [Nat.zero_add, Nat.cast_zero, ← hd] at hvalue
  rw [Nat.zero_add] at hcalls
  rw [← hd] at hmoved htake
  rw [heq]
  refine ⟨?_, map_length_scatter _ _, ?_, fun j hj => ?_, ?_⟩
  · exact congrArg Ret.value hvalue
  · apply flatten_scatter
    rw [List.length_flatten]
    exact hmoved
  · have hj' := hfull j (hcalls ▸ hj)
    rw [List.getElem?_map, Nat.zero_add] at hj'
    exact hj'.symm
  · show (scatter d iov).drop (transfer _ 0 0 _).calls = iov.drop (transfer _ 0 0 _).calls
    rw [hcalls]
    exact drop_scatter htake

/-- **Short counts skip no data**: whatever counts the calls return, `writev` passes on the first
bytes of its buffers and `readv`, given at least one buffer, fills its buffers from the start; both
return the number of bytes. -/
theorem short_counts_prefix (iov : List Bytes) (hlen : ∀ v ∈ iov, v.length < 2 ^ 31)
    (hsum : (iov.map List.length).sum ≤ SSIZE_MAX) (o : Nat) :
    (∀ counts : Nat → Nat, Within (fun k => some (counts k)) 0 (iov.map List.length) →
      PassesPrefix iov
        (writev (chanWrite fun k => some (counts k)) (chanAt o) iov iov.length)) ∧
    (iov ≠ [] → ∀ data : Nat → Bytes,
      Within (lengths fun k => some (data k)) 0 (iov.map List.length) →
      PlacesPrefix data iov
        (readv (chanRead fun k => some (data k)) (chanAt o) iov iov.length)) :=
  ⟨fun _ hwithin => writev_passesPrefix hlen hsum hwithin o,
    fun hne _ hwithin => readv_placesPrefix hne hlen hsum hwithin o⟩

theorem within_one : Within (fun _ => some 1) 0 [2, 1] := by
  intro j len hget c hc
  cases hc
  match j, hget with
  | 0, rfl => decide
  | 1, rfl => decide

/-- Two buffers and calls that move one byte each. -/
theorem short_counts_one :
    PassesPrefix [[1, 2], [3]] (writev (chanWrite fun _ => some 1) (chanAt 0) [[1, 2], [3]] 2) ∧
      PlacesPrefix (fun _ => [7]) [[1, 2], [3]]
        (readv (chanRead fun _ => some [7]) (chanAt 0) [[1, 2], [3]] 2) := by
  have h := short_counts_prefix [[1, 2], [3]] (by decide) (by decide) 0
  exact ⟨h.1 (fun _ => 1) within_one, h.2 (by decide) (fun _ => [7]) within_one⟩

/-- Without buffers `readv` returns -1. -/
theorem readv_no_buffers : ¬ ∀ (iov : List Bytes), (∀ v ∈ iov, v.length < 2 ^ 31) →
    (iov.map List.length).sum ≤ SSIZE_MAX → ∀ o,
      (∀ counts : Nat → Nat, Within (fun k => some (counts k)) 0 (iov.map List.length) →
        PassesPrefix iov
          (writev (chanWrite fun k => some (counts k)) (chanAt o) iov iov.length)) ∧
      (∀ data : Nat → Bytes, Within (lengths fun k => some (data k)) 0 (iov.map List.length) →
        PlacesPrefix data iov
          (readv (chanRead fun k => some (data k)) (chanAt o) iov iov.length)) := by
  intro h
  have hread := (h [] (by simp) (by decide) 0).2 (fun _ => []) (by simp [Within])
  exact nomatch hread.1

/-! ## Large counts -/

theorem lengthsOk_cons {total len : Nat} {lens : List Nat} (htotal : total ≤ SSIZE_MAX)
    (hlen : len ≤ SSIZE_MAX) (h : lengthsOk total (len :: lens) = true) :
    total + len ≤ SSIZE_MAX ∧ lengthsOk (total + len) lens = true := by
  have hmod : (total + len) % 2 ^ 64 = total + len :=
    Nat.mod_eq_of_lt (by unfold SSIZE_MAX at htotal hlen; omega)
  simp only [lengthsOk, hmod] at h
  split at h
  · cases h
  · next hle => exact ⟨Nat.le_of_not_lt hle, h⟩

theorem sum_le_of_lengthsOk {lens : List Nat} {cnt : Nat} (hcnt : cnt ≤ SSIZE_MAX)
    (hlen : ∀ len ∈ lens, len ≤ SSIZE_MAX) (hok : lengthsOk cnt lens = true) :
    cnt + lens.sum ≤ SSIZE_MAX := by
  induction lens generalizing cnt with
  | nil => exact hcnt
  | cons len lens ih =>
    obtain ⟨hle, hlen⟩ := List.forall_mem_cons.mp hlen
    obtain ⟨hsum, hok⟩ := lengthsOk_cons hcnt hle hok
    rw [List.sum_cons, ← Nat.add_assoc]
    exact ih hsum hlen hok

theorem writev_value_iff {iov : List Bytes} (hlen : ∀ v ∈ iov, v.length ≤ SSIZE_MAX)
    (hok : lengthsOk 0 (iov.map List.length) = true) {counts : Nat → Nat}
    (hwithin : Within (fun k => some (counts k)) 0 (iov.map List.length)) (o : Nat) :
    let done := writev (chanWrite fun k => some (counts k)) (chanAt o) iov iov.length
    done.1 = .value done.2.moved.length ↔
      CountsFit (fun k => some (counts k)) 0 (iov.map List.length) := by
  have hsum := sum_le_of_lengthsOk (Nat.zero_le _) (by simpa using hlen) hok
  have hmoved := transfer_moved_le 0 hwithin
  rw [← transfer_value_iff 0 hwithin (fun _ => nofun) hsum, writev_accepted o hok hwithin]
  dsimp only
  rw [List.length_take, List.length_flatten, Nat.min_eq_left hmoved, Nat.zero_add, Ret.value.injEq]
  rfl

theorem readv_value_iff {iov : List Bytes} (hne : iov ≠ [])
    (hlen : ∀ v ∈ iov, v.length ≤ SSIZE_MAX) (hok : lengthsOk 0 (iov.map List.length) = true)
    {data : Nat → Bytes}
    (hwithin : Within (lengths fun k => some (data k)) 0 (iov.map List.length)) (o : Nat) :
    let done := readv (chanRead fun k => some (data k)) (chanAt o) iov iov.length
    done.1 = .value done.2.2.moved.length ↔
      CountsFit (lengths fun k => some (data k)) 0 (iov.map List.length) := by
  have hsum := sum_le_of_lengthsOk (Nat.zero_le _) (by simpa using hlen) hok
  obtain ⟨d, hd, heq⟩ := readv_accepted o hne hok hwithin
  rw [← transfer_value_iff 0 hwithin (fun _ => nofun) hsum, heq]
  dsimp only
  rw [hd, Nat.zero_add, Ret.value.injEq]
  rfl

/-- **When the byte count is exact**: exactly when, up to the first call that does not move its
whole buffer, no call counts `2 ^ 31` bytes or more. -/
theorem counts_exact_iff (iov : List Bytes) (hlen : ∀ v ∈ iov, v.length ≤ SSIZE_MAX)
    (hok : lengthsOk 0 (iov.map List.length) = true) (o : Nat) :
    (∀ counts : Nat → Nat, Within (fun k => some (counts k)) 0 (iov.map List.length) →
      let done := writev (chanWrite fun k => some (counts k)) (chanAt o) iov iov.length
      (done.1 = .value done.2.moved.length ↔
        CountsFit (fun k => some (counts k)) 0 (iov.map List.length))) ∧
    (iov ≠ [] → ∀ data : Nat → Bytes,
      Within (lengths fun k => some (data k)) 0 (iov.map List.length) →
      let done := readv (chanRead fun k => some (data k)) (chanAt o) iov iov.length
      (done.1 = .value done.2.2.moved.length ↔
        CountsFit (lengths fun k => some (data k)) 0 (iov.map List.length))) :=
  ⟨fun _ hwithin => writev_value_iff hlen hok hwithin o,
    fun hne _ hwithin => readv_value_iff hne hlen hok hwithin o⟩

/-- Two buffers and calls that move one byte each. -/
theorem counts_exact_one :
    let wrote := writev (chanWrite fun _ => some 1) (chanAt 0) [[1, 2], [3]] 2
    let got := readv (chanRead fun _ => some [7]) (chanAt 0) [[1, 2], [3]] 2
    wrote.1 = .value wrote.2.moved.length ∧ got.1 = .value got.2.2.moved.length := by
  have h := counts_exact_iff [[1, 2], [3]] (by decide) (by decide) 0
  have hfit := countsFit_of_lt within_one (by decide)
  exact ⟨(h.1 (fun _ => 1) within_one).mpr hfit,
    (h.2 (by decide) (fun _ => [7]) within_one).mpr hfit⟩

/-- A write of `2 ^ 31` bytes is returned as `-2 ^ 31`. -/
theorem counts_negative : ¬ ∀ (iov : List Bytes), (∀ v ∈ iov, v.length ≤ SSIZE_MAX) →
    lengthsOk 0 (iov.map List.length) = true → ∀ o,
      (∀ counts : Nat → Nat, Within (fun k => some (counts k)) 0 (iov.map List.length) →
        let done := writev (chanWrite fun k => some (counts k)) (chanAt o) iov iov.length
        done.1 = .value done.2.moved.length) ∧
      (iov ≠ [] → ∀ data : Nat → Bytes,
        Within (lengths fun k => some (data k)) 0 (iov.map List.length) →
        let done := readv (chanRead fun k => some (data k)) (chanAt o) iov iov.length
        done.1 = .value done.2.2.moved.length) := by
  intro h
  have hlens : [List.replicate (2 ^ 31) (0 : UInt8)].map List.length = [2 ^ 31] := by
    rw [List.map_singleton, List.length_replicate]
  have hlen : ∀ v ∈ [List.replicate (2 ^ 31) (0 : UInt8)], v.length ≤ SSIZE_MAX := by
    rw [List.forall_mem_singleton, List.length_replicate]
    decide
  have hok : lengthsOk 0 ([List.replicate (2 ^ 31) (0 : UInt8)].map List.length) = true := by
    rw [hlens]
    decide
  have hwithin : Within (fun _ => some (2 ^ 31)) 0
      ([List.replicate (2 ^ 31) (0 : UInt8)].map List.length) := by
    rw [hlens]
    intro j len hget c hc
    cases hc
    match j, hget with
    | 0, rfl => exact Nat.le_refl _
  have hvalue := (h _ hlen hok 0).1 (fun _ => 2 ^ 31) hwithin
  have hfit := (writev_value_iff hlen hok hwithin 0).mp hvalue
  rw [hlens] at hfit
  exact absurd (hfit 0 (by decide) (fun j hj => absurd hj (Nat.not_lt_zero j)) _ rfl) (by decide)

/-! ## Failing calls -/

/-- The first call that does not move its whole buffer fails only while nothing has been moved, `m`
being the bytes moved before, and does not return a count that is -1 as an `int`. -/
def Clean (counts : Nat → Option Nat) (k m : Nat) (lens : List Nat) : Prop :=
  ∀ i < lens.length, FullBefore counts k lens i →
    (counts (k + i) = none → m + (lens.take i).sum = 0) ∧
      ∀ c, counts (k + i) = some c → c % 2 ^ 32 ≠ 2 ^ 32 - 1

theorem clean_cons {counts : Nat → Option Nat} {k m len : Nat} {lens : List Nat} :
    Clean counts k m (len :: lens) ↔
      (counts k = none → m = 0) ∧ (∀ c, counts k = some c → c % 2 ^ 32 ≠ 2 ^ 32 - 1) ∧
        (counts k = some len → len < 2 ^ 31 → Clean counts (k + 1) (m + len) lens) := by
  unfold Clean
  rw [forall_fullBefore_cons]
  simp only [List.take_succ_cons, List.sum_cons, List.take_zero, List.sum_nil, Nat.add_zero,
    Nat.add_assoc, Nat.add_comm 1]
  exact and_assoc

theorem stopValue_eq_neg_one_iff {total : Nat} (htotal : total ≤ SSIZE_MAX) (c : Nat) :
    stopValue total c = -1 ↔ c % 2 ^ 32 = 2 ^ 32 - 1 := by
  rw [← toInt32_eq_neg_one_iff, stopValue]
  split
  · rfl
  · next hneg =>
    have hlt : toInt32 c < 2 ^ 31 := by
      rw [toInt32_natCast]
      split <;> omega
    have : toInt64 (total + toInt32 c) ≠ -1 := by
      unfold SSIZE_MAX at htotal
      unfold toInt64
      rw [Int.bmod_def]
      split <;> omega
    exact ⟨fun h => absurd h this, fun h => by omega⟩

/-- A loop that returns -1 has moved nothing exactly when its calls are clean. -/
theorem transfer_clean_iff {counts : Nat → Option Nat} {k total : Nat} {lens : List Nat} (m : Nat)
    (h : Within counts k lens) (htotal : total ≤ SSIZE_MAX) (hok : lengthsOk total lens = true) :
    ((transfer counts k total lens).value = -1 → m + (transfer counts k total lens).moved = 0) ↔
      Clean counts k m lens := by
  induction lens generalizing k total m with
  | nil =>
    have hvalue : ((total : Nat) : Int) ≠ -1 := by omega
    exact ⟨fun _ i hi => absurd hi (Nat.not_lt_zero i), fun _ hneg => absurd hneg hvalue⟩
  | cons len lens ih =>
    rw [clean_cons]
    rcases transfer_cases total h with ⟨hc, heq⟩ | ⟨c, hc, hle, hnfull, heq⟩ | ⟨hc, hlt, heq⟩
    · rw [heq, hc]
      simp
    · rw [heq, hc]
      dsimp only
      rw [stopValue_eq_neg_one_iff htotal]
      simp only [reduceCtorEq, false_implies, true_and, Option.some.injEq, forall_eq']
      refine ⟨fun hmoved => ⟨fun hneg => ?_, fun hfull hlt => absurd ⟨hfull, hlt⟩ hnfull⟩,
        fun hclean hneg => absurd hneg hclean.1⟩
      have := hmoved hneg
      omega
    · obtain ⟨hsum, hok⟩ := lengthsOk_cons htotal (by unfold SSIZE_MAX; omega) hok
      obtain ⟨-, h64, -⟩ := count_exact total hlt hsum
      rw [heq, hc, h64]
      dsimp only
      rw [← Nat.add_assoc, ih (m + len) h.tail hsum hok]
      simp only [reduceCtorEq, false_implies, true_and, Option.some.injEq, forall_eq']
      exact ⟨fun hclean => ⟨by omega, fun _ _ => hclean⟩, fun hclean => hclean.2 trivial hlt⟩

/-- A call that returns -1 has moved no byte and left the file offset at `o`. -/
def FailsClean (o : Nat) (ret : Ret) (s : Chan) : Prop :=
  ret = .einval ∨ ret = .value (-1) → s.moved = [] ∧ s.offset = o

theorem failsClean_value_iff {o n calls : Nat} {moved : Bytes} {value : Int}
    (h : moved.length = n) :
    FailsClean o (.value value) ⟨calls, moved, o + n⟩ ↔ (value = -1 → n = 0) := by
  subst h
  simp [FailsClean]

theorem writev_failsClean_iff {counts : Nat → Option Nat} {iov : List Bytes}
    (h : Within counts 0 (iov.map List.length)) (o : Nat) :
    let done := writev (chanWrite counts) (chanAt o) iov iov.length
    FailsClean o done.1 done.2 ↔
      lengthsOk 0 (iov.map List.length) = false ∨ Clean counts 0 0 (iov.map List.length) := by
  cases hok : lengthsOk 0 (iov.map List.length) with
  | false =>
    rw [writev_rejected o hok]
    simp [FailsClean, chanAt]
  | true =>
    have hlen := transfer_moved_le 0 h
    have hclean := transfer_clean_iff 0 h (Nat.zero_le _) hok
    rw [writev_accepted o hok h]
    dsimp only
    rw [failsClean_value_iff (by rw [List.length_take, List.length_flatten, Nat.min_eq_left hlen])]
    simpa using hclean

theorem readv_failsClean_iff {data : Nat → Option Bytes} {iov : List Bytes}
    (h : Within (lengths data) 0 (iov.map List.length)) (o : Nat) :
    let done := readv (chanRead data) (chanAt o) iov iov.length
    FailsClean o done.1 done.2.2 ↔
      lengthsOk 0 (iov.map List.length) = false ∨
        Clean (lengths data) 0 0 (iov.map List.length) := by
  cases hok : lengthsOk 0 (iov.map List.length) with
  | false =>
    rw [readv_rejected o hok]
    simp [FailsClean, chanAt]
  | true =>
    rcases eq_or_ne iov [] with rfl | hne
    · simp [readv, FailsClean, chanAt, Clean]
    · have hclean := transfer_clean_iff 0 h (Nat.zero_le _) hok
      obtain ⟨d, hd, heq⟩ := readv_accepted o hne hok h
      rw [heq]
      dsimp only
      rw [failsClean_value_iff hd]
      simpa using hclean

/-- **When a call that returns -1 has done nothing**: exactly when it rejects its lengths, or when
the first of its calls that does not move its whole buffer comes after no byte in case it fails,
and does not return a count that is -1 as an `int`. -/
theorem failsClean_iff (iov : List Bytes) (o : Nat) :
    (∀ counts : Nat → Option Nat, Within counts 0 (iov.map List.length) →
      let done := writev (chanWrite counts) (chanAt o) iov iov.length
      (FailsClean o done.1 done.2 ↔
        lengthsOk 0 (iov.map List.length) = false ∨
          Clean counts 0 0 (iov.map List.length))) ∧
    (∀ data : Nat → Option Bytes, Within (lengths data) 0 (iov.map List.length) →
      let done := readv (chanRead data) (chanAt o) iov iov.length
      (FailsClean o done.1 done.2.2 ↔
        lengthsOk 0 (iov.map List.length) = false ∨
          Clean (lengths data) 0 0 (iov.map List.length))) :=
  ⟨fun _ h => writev_failsClean_iff h o, fun _ h => readv_failsClean_iff h o⟩

/-- The first call moves one byte, the calls after it fail. -/
def oneThenFail (k : Nat) : Option Nat := if k = 0 then some 1 else none

theorem within_oneThenFail : Within oneThenFail 0 [1, 1] := by
  intro j len hget c hc
  match j, hget with
  | 0, rfl => cases hc; decide
  | 1, rfl => cases hc

/-- A first call that fails leaves the file as it was. -/
theorem failsClean_first_call :
    FailsClean 5 (writev (chanWrite fun _ => none) (chanAt 5) [[1], [2]] 2).1
      (writev (chanWrite fun _ => none) (chanAt 5) [[1], [2]] 2).2 := by
  apply ((failsClean_iff [[1], [2]] 5).1 (fun _ => none) (fun _ _ _ _ => nofun)).mpr
  refine .inr fun i hi hfull => ⟨fun _ => ?_, fun _ => nofun⟩
  cases i with
  | zero => rfl
  | succ i =>
    obtain ⟨_, -, -, hc⟩ := hfull 0 (Nat.succ_pos i)
    cases hc

/-- `writev` returns -1 after its first buffer has been written. -/
theorem failsClean_second_call : ¬ ∀ (iov : List Bytes) (o : Nat),
    (∀ counts : Nat → Option Nat, Within counts 0 (iov.map List.length) →
      let done := writev (chanWrite counts) (chanAt o) iov iov.length
      FailsClean o done.1 done.2) ∧
    (∀ data : Nat → Option Bytes, Within (lengths data) 0 (iov.map List.length) →
      let done := readv (chanRead data) (chanAt o) iov iov.length
      FailsClean o done.1 done.2.2) := by
  intro h
  have hclean := (h [[1], [2]] 5).1 oneThenFail within_oneThenFail (.inr (by decide))
  exact absurd hclean.1 (by decide)

/-! ## The length check -/

/-- The check of the lengths passes when no partial sum exceeds the limit modulo `2 ^ 64`. -/
theorem lengthsOk_iff {lens : List Nat} {cnt : Nat} (hcnt : cnt ≤ SSIZE_MAX) :
    lengthsOk cnt lens = true ↔ ∀ i, (cnt + (lens.take i).sum) % 2 ^ 64 ≤ SSIZE_MAX := by
  have hmod : cnt % 2 ^ 64 ≤ SSIZE_MAX := (Nat.mod_le _ _).trans hcnt
  induction lens generalizing cnt with
  | nil =>
    refine ⟨fun _ i => ?_, fun _ => rfl⟩
    rw [List.take_nil]
    exact hmod
  | cons len lens ih =>
    rw [← Nat.and_forall_add_one]
    simp only [lengthsOk, List.take_succ_cons, List.sum_cons, List.take_zero, List.sum_nil,
      Nat.add_zero, hmod, true_and, ← Nat.add_assoc]
    split
    · next hgt =>
      refine ⟨fun h => absurd h Bool.false_ne_true, fun h => ?_⟩
      have := h 0
      rw [List.take_zero, List.sum_nil, Nat.add_zero] at this
      omega
    · next hle =>
      have hle := Nat.le_of_not_lt hle
      refine (ih hle ((Nat.mod_le _ _).trans hle)).trans ?_
      simp only [Nat.mod_add_mod]

/-- A call checks its lengths exactly: it returns `EINVAL` without a system call when their sum
exceeds the limit, and passes the check when it does not. -/
def ChecksSum (lens : List Nat) (ret : Ret) (s : Chan) : Prop :=
  (SSIZE_MAX < lens.sum → ret = .einval ∧ s.calls = 0) ∧ (lens.sum ≤ SSIZE_MAX → ret ≠ .einval)

theorem writev_checksSum_iff (counts : Nat → Option Nat) (o : Nat) (iov : List Bytes) :
    let done := writev (chanWrite counts) (chanAt o) iov iov.length
    ChecksSum (iov.map List.length) done.1 done.2 ↔
      ((iov.map List.length).sum ≤ SSIZE_MAX ↔ lengthsOk 0 (iov.map List.length) = true) := by
  cases hok : lengthsOk 0 (iov.map List.length) with
  | false =>
    rw [writev_rejected o hok]
    simp [ChecksSum, chanAt]
  | true =>
    rw [writev, if_neg (by omega), Int.toNat_natCast, List.take_length]
    simp [ChecksSum, hok]

theorem readv_checksSum_iff (data : Nat → Option Bytes) (o : Nat) {iov : List Bytes}
    (hne : iov ≠ []) :
    let done := readv (chanRead data) (chanAt o) iov iov.length
    ChecksSum (iov.map List.length) done.1 done.2.2 ↔
      ((iov.map List.length).sum ≤ SSIZE_MAX ↔ lengthsOk 0 (iov.map List.length) = true) := by
  cases hok : lengthsOk 0 (iov.map List.length) with
  | false =>
    rw [readv_rejected o hok]
    simp [ChecksSum, chanAt]
  | true =>
    have hpos : 0 < iov.length := List.length_pos_iff.mpr hne
    rw [readv, if_neg (by omega), Int.toNat_natCast, List.take_length]
    simp [ChecksSum, hok]

theorem sum_le_iff_lengthsOk_iff (lens : List Nat) :
    (lens.sum ≤ SSIZE_MAX ↔ lengthsOk 0 lens = true) ↔
      lens.sum ≤ SSIZE_MAX ∨ ∃ i, SSIZE_MAX < (lens.take i).sum % 2 ^ 64 := by
  by_cases hle : lens.sum ≤ SSIZE_MAX
  · have hok : lengthsOk 0 lens = true := lengthsOk_of_sum_le (by omega)
    simp [hle, hok]
  · rw [lengthsOk_iff (Nat.zero_le _)]
    simp [hle]

/-- **When the length check is exact**: exactly when the sum does not exceed the limit or some
partial sum exceeds it even after it has wrapped. -/
theorem checksSum_iff (iov : List Bytes) (hne : iov ≠ []) (o : Nat) (counts : Nat → Option Nat)
    (data : Nat → Option Bytes) :
    let lens := iov.map List.length
    let wrote := writev (chanWrite counts) (chanAt o) iov iov.length
    let got := readv (chanRead data) (chanAt o) iov iov.length
    (ChecksSum lens wrote.1 wrote.2 ∧ ChecksSum lens got.1 got.2.2 ↔
      lens.sum ≤ SSIZE_MAX ∨ ∃ i, SSIZE_MAX < (lens.take i).sum % 2 ^ 64) := by
  have hwrite := writev_checksSum_iff counts o iov
  have hread := readv_checksSum_iff data o hne
  dsimp only at hwrite hread ⊢
  rw [hwrite, hread, and_self, sum_le_iff_lengthsOk_iff]

/-- One buffer of one byte. -/
theorem checksSum_one_byte :
    ChecksSum [1] (writev (chanWrite fun _ => none) (chanAt 0) [[7]] 1).1
        (writev (chanWrite fun _ => none) (chanAt 0) [[7]] 1).2 ∧
      ChecksSum [1] (readv (chanRead fun _ => none) (chanAt 0) [[7]] 1).1
        (readv (chanRead fun _ => none) (chanAt 0) [[7]] 1).2.2 :=
  (checksSum_iff [[7]] (by decide) 0 (fun _ => none) (fun _ => none)).mpr (.inl (by decide))

/-- Two buffers of together `2 ^ 64 + 1` bytes. -/
def wrappingBuffers : List Bytes := [List.replicate 2 0, List.replicate (2 ^ 64 - 1) 0]

theorem wrappingBuffers_lengths : wrappingBuffers.map List.length = [2, 2 ^ 64 - 1] := by
  simp only [wrappingBuffers, List.map_cons, List.length_replicate, List.map_nil]

/-- The sum wraps to 1 and passes the check. -/
theorem checksSum_wrapped : ¬ ∀ (iov : List Bytes), iov ≠ [] → (∀ v ∈ iov, v.length < 2 ^ 64) →
    ∀ (o : Nat) (counts : Nat → Option Nat) (data : Nat → Option Bytes),
      let lens := iov.map List.length
      let wrote := writev (chanWrite counts) (chanAt o) iov iov.length
      let got := readv (chanRead data) (chanAt o) iov iov.length
      ChecksSum lens wrote.1 wrote.2 ∧ ChecksSum lens got.1 got.2.2 := by
  intro h
  have hlt : ∀ v ∈ wrappingBuffers, v.length < 2 ^ 64 := by
    intro v hv
    have hmem := List.mem_map_of_mem (f := List.length) hv
    rw [wrappingBuffers_lengths, List.mem_pair] at hmem
    omega
  have hboth := h wrappingBuffers (List.cons_ne_nil _ _) hlt 0 (fun _ => none) (fun _ => none)
  have hwrite := (writev_checksSum_iff _ _ _).mp hboth.1
  rw [wrappingBuffers_lengths] at hwrite
  exact absurd (hwrite.mpr (by decide)) (by decide)

end Tlpi.VectorIo
