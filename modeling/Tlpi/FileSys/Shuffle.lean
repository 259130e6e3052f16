import Tlpi.Lib.CInt
import Tlpi.Lib.Fault

/-!
# The shuffle

`shuffle` of `14-file-systems/benchmarkwrites.c` swaps each element with one at or after it, at an
index that it computes from `rand()` in `size_t`. The values of `rand()` are given one after the
other, any below or equal to `RAND_MAX`. Whatever they are the index is inside the array
(`TurnOk.of_rand`), and a run of swaps permutes the array.
-/

namespace Tlpi.Benchmark

open Tlpi.Lib

/-- `i + rand() / (RAND_MAX / (n - i) + 1)` in `size_t`. -/
def swapIndex (randMax n i rand : Nat) : Except Fault Nat := do
  let q ← checkedDiv randMax (toUInt64 ((n : Int) - i))
  let r ← checkedDiv rand (toUInt64 ((q : Int) + 1))
  return toUInt64 ((i : Int) + r)

/-- The body of the loop. -/
def shuffleTurn (randMax n : Nat) (rand : Nat → Nat) (array : List Int) (i : Nat) :
    Except Fault (List Int) := do
  let j ← swapIndex randMax n i (rand i)
  let t ← fetch array j
  let array ← store array j (← fetch array i)
  store array i t

/-- `shuffle(array, n)`, where the `k`-th `rand()` returns `rand k`. -/
def shuffle (randMax : Nat) (rand : Nat → Nat) (array : List Int) (n : Nat) :
    Except Fault (List Int) :=
  if n > 1 then (List.range (n - 1)).foldlM (shuffleTurn randMax n rand) array else .ok array

/-- The index of a turn is `j`, no value on the way to it leaves `size_t`, and it is inside the
array and not before `i`. -/
structure TurnOk (randMax n i rand j : Nat) : Prop where
  index : swapIndex randMax n i rand = .ok j
  exact : j = i + rand / (randMax / (n - i) + 1)
  in_range : ∀ x ∈ [(n : Int) - i, randMax / ((n : Int) - i), randMax / ((n : Int) - i) + 1,
    rand / (randMax / ((n : Int) - i) + 1), i + rand / (randMax / ((n : Int) - i) + 1)],
    0 ≤ x ∧ x < 2 ^ 64
  lower : i ≤ j
  upper : j < n

section Turn

variable {randMax n i rand : Nat}

theorem quotient_lt (hrand : rand ≤ randMax) {m : Nat} (hm : 0 < m) :
    rand / (randMax / m + 1) < m := by
  refine Nat.div_lt_of_lt_mul ?_
  calc rand ≤ randMax := hrand
    _ < m * (randMax / m + 1) := Nat.lt_mul_div_succ randMax hm
    _ = (randMax / m + 1) * m := Nat.mul_comm _ _

theorem TurnOk.of_rand (hi : i < n) (hn : n < 2 ^ 64) (hmax : randMax < 2 ^ 31)
    (hrand : rand ≤ randMax) :
    TurnOk randMax n i rand (i + rand / (randMax / (n - i) + 1)) := by
  obtain ⟨m, rfl⟩ : ∃ m, n = i + m := ⟨n - i, by omega⟩
  have hsub : ((i + m : Nat) : Int) - i = m := by omega
  have hm : 0 < m := by omega
  have hq : randMax / m ≤ randMax := Nat.div_le_self _ _
  have hr : rand / (randMax / m + 1) < m := quotient_lt hrand hm
  have hquot : (randMax : Int) / m = ((randMax / m : Nat) : Int) := rfl
  have hdiv : ((randMax / m : Nat) : Int) + 1 = ((randMax / m + 1 : Nat) : Int) := rfl
  have hres : (rand : Int) / ((randMax / m + 1 : Nat) : Int) =
      ((rand / (randMax / m + 1) : Nat) : Int) := rfl
  rw [Nat.add_sub_cancel_left]
  refine ⟨?_, by rw [Nat.add_sub_cancel_left], ?_, Nat.le_add_right _ _, by omega⟩
  · rw [swapIndex, hsub, toUInt64_natCast (by omega), checkedDiv_eq_ok hm]
    show (checkedDiv rand (toUInt64 (((randMax / m : Nat) : Int) + 1)) >>= _) = _
    rw [hdiv, toUInt64_natCast (by omega), checkedDiv_eq_ok (Nat.succ_pos _)]
    show Except.ok (toUInt64 ((i : Int) + ((rand / (randMax / m + 1) : Nat) : Int))) = _
    rw [← Int.natCast_add, toUInt64_natCast (by omega)]
  · rw [hsub, hquot, hdiv, hres]
    generalize randMax / m = q at *
    generalize rand / (q + 1) = r at *
    intro x hx
    simp only [List.mem_cons, List.not_mem_nil, or_false] at hx
    rcases hx with rfl | rfl | rfl | rfl | rfl <;> omega

end Turn

/-- The array with the elements at `i` and `j` exchanged. -/
def swapAt (array : List Int) (i j : Nat) : List Int :=
  (array.set j (array.getD i 0)).set i (array.getD j 0)

theorem swapAt_perm {array : List Int} {i j : Nat} (hi : i < array.length) (hj : j < array.length) :
    (swapAt array i j).Perm array := by
  rw [swapAt, List.getD_eq_getElem _ _ hi, List.getD_eq_getElem _ _ hj]
  exact List.set_set_perm hj hi

/-- A turn swaps its element with the one at the index that it computes. -/
theorem shuffleTurn_eq {randMax n i : Nat} {rand : Nat → Nat} {array : List Int} {j : Nat}
    (hturn : TurnOk randMax n i (rand i) j) (hlen : array.length = n) :
    shuffleTurn randMax n rand array i = .ok (swapAt array i j) := by
  have hj : j < array.length := by rw [hlen]; exact hturn.upper
  have hi : i < array.length := hturn.lower.trans_lt hj
  rw [shuffleTurn, hturn.index, swapAt, List.getD_eq_getElem _ _ hi, List.getD_eq_getElem _ _ hj]
  show (fetch array j >>= _) = _
  rw [fetch_eq_ok hj, fetch_eq_ok hi]
  show (store array j array[i] >>= _) = _
  rw [store_eq_ok hj]
  exact store_eq_ok (by rwa [List.length_set]) _

/-- The array after the turns of `turns`, when turn `i` computes the index `j i`. -/
def swaps (j : Nat → Nat) (turns : List Nat) (array : List Int) : List Int :=
  turns.foldl (fun array i => swapAt array i (j i)) array

section Loop

variable {randMax n : Nat} {rand j : Nat → Nat} {array : List Int}

/-- The loop makes the swaps of its turns, and the array stays a permutation of the old one. -/
theorem foldlM_shuffleTurn (turns : List Nat)
    (hturns : ∀ i ∈ turns, TurnOk randMax n i (rand i) (j i)) (hlen : array.length = n) :
    turns.foldlM (shuffleTurn randMax n rand) array = .ok (swaps j turns array) ∧
      (swaps j turns array).Perm array := by
  induction turns generalizing array with
  | nil => exact ⟨rfl, .refl _⟩
  | cons i turns ih =>
    obtain ⟨hturn, hturns⟩ := List.forall_mem_cons.mp hturns
    have hj : j i < array.length := by rw [hlen]; exact hturn.upper
    have hperm : (swapAt array i (j i)).Perm array := swapAt_perm (hturn.lower.trans_lt hj) hj
    obtain ⟨hrest, hrestPerm⟩ := ih hturns (hperm.length_eq.trans hlen)
    refine ⟨?_, hrestPerm.trans hperm⟩
    rw [List.foldlM_cons, shuffleTurn_eq hturn hlen]
    exact hrest

theorem shuffle_eq (hturns : ∀ i < n - 1, TurnOk randMax n i (rand i) (j i))
    (hlen : array.length = n) :
    shuffle randMax rand array n = .ok (swaps j (List.range (n - 1)) array) ∧
      (swaps j (List.range (n - 1)) array).Perm array := by
  rw [shuffle]
  split
  · exact foldlM_shuffleTurn _ (fun i hi => hturns i (List.mem_range.mp hi)) hlen
  · next hle =>
    have hrange : List.range (n - 1) = [] := by
      rw [Nat.sub_eq_zero_of_le (by omega), List.range_zero]
    rw [hrange]
    exact ⟨rfl, .refl _⟩

end Loop

/-- **The shuffle is a permutation**: for every sequence of random numbers each turn computes an
index between its own and the end of the array without dividing by zero or leaving `size_t`, the
result is the array after the swaps at these indices, and it is a permutation of the array. -/
theorem shuffle_perm (randMax : Nat) (rand : Nat → Nat) (array : List Int) (n : Nat)
    (hmax : 1 ≤ randMax ∧ randMax < 2 ^ 31) (hrand : ∀ k, rand k ≤ randMax)
    (hlen : array.length = n) (hn : n < 2 ^ 64) :
    ∃ j : Nat → Nat, (∀ i < n - 1, TurnOk randMax n i (rand i) (j i)) ∧
      shuffle randMax rand array n = .ok (swaps j (List.range (n - 1)) array) ∧
      (swaps j (List.range (n - 1)) array).Perm array := by
  have hturns : ∀ i < n - 1,
      TurnOk randMax n i (rand i) (i + rand i / (randMax / (n - i) + 1)) :=
    fun i hi => TurnOk.of_rand (by omega) hn hmax.2 (hrand i)
  exact ⟨_, hturns, shuffle_eq hturns hlen⟩

/-- Three elements, with the largest random numbers. -/
theorem shuffle_perm_three :
    ∃ j : Nat → Nat, (∀ i < 3 - 1, TurnOk 1 3 i 1 (j i)) ∧
      shuffle 1 (fun _ => 1) [5, 6, 7] 3 = .ok (swaps j (List.range (3 - 1)) [5, 6, 7]) ∧
      (swaps j (List.range (3 - 1)) [5, 6, 7]).Perm [5, 6, 7] :=
  shuffle_perm 1 (fun _ => 1) [5, 6, 7] 3 (by decide) (fun _ => Nat.le_refl 1) rfl (by decide)

end Tlpi.Benchmark
