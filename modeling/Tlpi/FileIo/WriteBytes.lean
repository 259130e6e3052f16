import Tlpi.Lib.CInt
import Tlpi.Lib.Fault

/-!
# `write_bytes`

`13-file-io-buffering/write_bytes.c` writes a number of bytes in pieces of a buffer's size. Each
round of its loop moves on by what it writes, so the loop ends when that is something. A buffer of
size 0, which `malloc` may well grant, makes it go on for ever (`writes_total_iff`).
-/

namespace Tlpi.WriteBytes

open Tlpi.Lib

/-- The macro `min(a, b)`. -/
def min (a b : Int) : Int := if a > b then b else a

/-- What the system does: whether `malloc`, `open` and `close` succeed, and what the `k`-th `write`
returns for a size. -/
structure Env where
  malloc : Nat → Bool
  opens : Bool
  write : Nat → Int → Int
  closes : Bool

/-- The `for` loop from the `k`-th write on: the return value of `main`, or 0 when the loop ends,
and the sizes that are asked for. -/
def loop (env : Env) (numBytes bufSize : Int) :
    (fuel : Nat) → Nat → (totWritten : Int) → Except Fault (Int × List Int)
  | 0, _, _ => .error .outOfFuel
  | fuel + 1, k, totWritten =>
    if totWritten < numBytes then
      let thisWrite := min bufSize (toInt64 (numBytes - totWritten))
      if env.write k thisWrite ≠ thisWrite then .ok (1, [thisWrite])
      else do
        let (ret, asked) ← loop env numBytes bufSize fuel (k + 1) (toInt64 (totWritten + thisWrite))
        return (ret, thisWrite :: asked)
    else .ok (0, [])

/-- `main` with the values of `atoi`: what it returns and the sizes that it asks `write` for. -/
def main (env : Env) (numBytes bufSize : Int) (fuel : Nat) : Except Fault (Int × List Int) :=
  if env.malloc (toUInt64 bufSize) then
    if env.opens then do
      let (ret, asked) ← loop env numBytes bufSize fuel 0 0
      return (if ret = 0 ∧ ¬ env.closes then 1 else ret, asked)
    else .ok (1, [])
  else .ok (1, [])

variable {env : Env} {numBytes bufSize : Int}

theorem min_le (a b : Int) : min a b ≤ a := by
  unfold min
  split <;> omega

/-! ## The loop -/

theorem loop_total (hwrite : ∀ k n, env.write k n = n) (hbuf : 0 < bufSize)
    (hmax : numBytes ≤ INT_MAX) (tot : Int) (htot : 0 ≤ tot) (k : Nat) :
    ∃ fuel asked, loop env numBytes bufSize fuel k tot = .ok (0, asked) ∧
      (∀ n ∈ asked, 0 ≤ n ∧ n ≤ bufSize) ∧ asked.sum = max 0 (numBytes - tot) := by
  induction h : (numBytes - tot).toNat using Nat.strong_induction_on generalizing tot k with
  | _ d ih =>
    by_cases hlt : tot < numBytes
    · have hmax' : numBytes < 2 ^ 31 := by
        unfold INT_MAX at hmax
        omega
      have hrange : toInt64 (numBytes - tot) = numBytes - tot :=
        toInt64_of_range (by omega) (by omega)
      have hwrites : 0 < min bufSize (numBytes - tot) ∧
          min bufSize (numBytes - tot) ≤ numBytes - tot := by
        unfold min
        split <;> omega
      have hnext : toInt64 (tot + min bufSize (numBytes - tot)) =
          tot + min bufSize (numBytes - tot) := toInt64_of_range (by omega) (by omega)
      obtain ⟨fuel, asked, hrun, hsizes, hsum⟩ :=
        ih (numBytes - (tot + min bufSize (numBytes - tot))).toNat (by omega)
          (tot + min bufSize (numBytes - tot)) (by omega) (k + 1) rfl
      refine ⟨fuel + 1, min bufSize (numBytes - tot) :: asked, ?_, ?_, ?_⟩
      · rw [loop, if_pos hlt]
        simp only [hrange, hwrite, ne_eq, not_true, if_false, hnext, hrun]
        rfl
      · exact List.forall_mem_cons.mpr ⟨⟨hwrites.1.le, min_le _ _⟩, hsizes⟩
      · rw [List.sum_cons, hsum]
        omega
    · refine ⟨1, [], ?_, nofun, ?_⟩
      · rw [loop, if_neg hlt]
      · rw [List.sum_nil]
        omega

/-- With an empty buffer it makes no progress. -/
theorem loop_stuck (hwrite : ∀ k n, env.write k n = n) {tot : Int} (htot : 0 ≤ tot)
    (hlt : tot < numBytes) (hmax : numBytes ≤ INT_MAX) (fuel k : Nat) :
    loop env numBytes 0 fuel k tot = .error .outOfFuel := by
  have hmax' : numBytes < 2 ^ 31 := by
    unfold INT_MAX at hmax
    omega
  have hzero : min 0 (toInt64 (numBytes - tot)) = 0 := by
    rw [toInt64_of_range (by omega) (by omega), min, if_neg (by omega)]
  have hsame : toInt64 (tot + 0) = tot := by
    rw [Int.add_zero]
    exact toInt64_of_range (by omega) (by omega)
  induction fuel generalizing k with
  | zero => rfl
  | succ fuel ih =>
    rw [loop, if_pos hlt]
    simp only [hzero, hwrite, ne_eq, not_true, if_false, hsame, ih]
    rfl

/-! ## The program -/

theorem main_eq (hmalloc : env.malloc (toUInt64 bufSize) = true) (hopen : env.opens = true)
    (fuel : Nat) : main env numBytes bufSize fuel =
      (loop env numBytes bufSize fuel 0 0).map fun r =>
        (if r.1 = 0 ∧ ¬ env.closes then 1 else r.1, r.2) := by
  rw [main, if_pos hmalloc, if_pos hopen]
  cases loop env numBytes bufSize fuel 0 0 <;> rfl

/-- `malloc` has no room for a negative size. -/
theorem nonneg_of_malloc (hbuf : -2 ^ 31 ≤ bufSize) (hfail : ∀ n, 2 ^ 63 ≤ n → env.malloc n = false)
    (hmalloc : env.malloc (toUInt64 bufSize) = true) : 0 ≤ bufSize := by
  by_contra hneg
  have hlarge : 2 ^ 63 ≤ toUInt64 bufSize := by
    unfold toUInt64
    omega
  rw [hfail _ hlarge] at hmalloc
  cases hmalloc

/-- **When the program ends with the right total**: exactly when the buffer is not empty or there is
nothing to write. -/
theorem writes_total_iff (env : Env) (numBytes bufSize : Int)
    (hnum : -2 ^ 31 ≤ numBytes ∧ numBytes < 2 ^ 31) (hbuf : -2 ^ 31 ≤ bufSize ∧ bufSize < 2 ^ 31)
    (hfail : ∀ n, 2 ^ 63 ≤ n → env.malloc n = false)
    (hmalloc : env.malloc (toUInt64 bufSize) = true) (hopen : env.opens = true)
    (hwrite : ∀ k n, env.write k n = n) :
    (∃ fuel ret asked, main env numBytes bufSize fuel = .ok (ret, asked) ∧
        (∀ n ∈ asked, 0 ≤ n ∧ n ≤ bufSize) ∧ asked.sum = max 0 numBytes) ↔
      0 < bufSize ∨ numBytes ≤ 0 := by
  have hpos : 0 ≤ bufSize := nonneg_of_malloc hbuf.1 hfail hmalloc
  have hmax : numBytes ≤ INT_MAX := by
    unfold INT_MAX
    omega
  simp only [main_eq hmalloc hopen]
  constructor
  · rintro ⟨fuel, ret, asked, hrun, -, -⟩
    by_contra hnot
    obtain ⟨hzero, hlt⟩ := not_or.mp hnot
    obtain rfl : bufSize = 0 := by omega
    rw [loop_stuck hwrite (Int.le_refl 0) (not_le.mp hlt) hmax] at hrun
    cases hrun
  · intro h
    rcases Int.lt_or_le 0 numBytes with hlt | hle
    · obtain ⟨fuel, asked, hrun, hsizes, hsum⟩ :=
        loop_total hwrite (h.resolve_right (not_le.mpr hlt)) hmax 0 (Int.le_refl 0) 0
      refine ⟨fuel, if env.closes then 0 else 1, asked, ?_, hsizes, ?_⟩
      · rw [hrun]
        cases env.closes <;> rfl
      · rw [hsum, Int.sub_zero]
    · -- the loop is not entered
      refine ⟨1, if env.closes then 0 else 1, [], ?_, nofun, ?_⟩
      · rw [loop, if_neg (not_lt.mpr hle)]
        cases env.closes <;> rfl
      · rw [List.sum_nil]
        omega

/-- A system on which everything works. -/
def healthy : Env where
  malloc := fun n => n < 2 ^ 63
  opens := true
  write := fun _ n => n
  closes := true

theorem writes_total_ten : ∃ fuel ret asked, main healthy 10 4 fuel = .ok (ret, asked) ∧
    (∀ n ∈ asked, 0 ≤ n ∧ n ≤ 4) ∧ asked.sum = max 0 10 :=
  (writes_total_iff healthy 10 4 (by decide) (by decide)
    (fun n hn => decide_eq_false (not_lt.mpr hn)) (by decide) rfl fun _ _ => rfl).mpr (by decide)

/-- One byte out of an empty buffer. -/
theorem empty_buffer_never_ends : ¬ ∀ (env : Env) (numBytes bufSize : Int),
    (-2 ^ 31 ≤ numBytes ∧ numBytes < 2 ^ 31) → (-2 ^ 31 ≤ bufSize ∧ bufSize < 2 ^ 31) →
    (∀ n, 2 ^ 63 ≤ n → env.malloc n = false) → env.malloc (toUInt64 bufSize) = true →
    env.opens = true → (∀ k n, env.write k n = n) →
    ∃ fuel ret asked, main env numBytes bufSize fuel = .ok (ret, asked) ∧
      (∀ n ∈ asked, 0 ≤ n ∧ n ≤ bufSize) ∧ asked.sum = max 0 numBytes := by
  intro h
  obtain ⟨fuel, ret, asked, hrun, -, -⟩ := h healthy 1 0 (by decide) (by decide)
    (fun n hn => decide_eq_false (not_lt.mpr hn)) (by decide) rfl fun _ _ => rfl
  rw [main_eq (by decide) rfl, loop_stuck (fun _ _ => rfl) (Int.le_refl 0) (by decide)
    (by decide)] at hrun
  cases hrun

end Tlpi.WriteBytes
