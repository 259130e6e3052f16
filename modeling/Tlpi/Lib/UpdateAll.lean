import Mathlib.Logic.Function.Basic
import Mathlib.Data.List.Basic

/-!
# One change at many places

`updateAll f keys s` changes a map at every key of a list, one key after the other. When a second
change of a value does nothing, neither the order of the keys nor how often each is in the list
matters: the value at a key is changed once, and nothing else is changed. The keys may be given by
names that lead to them, or to nothing.
-/

namespace Tlpi.Lib

variable {ι α : Type} [DecidableEq ι] {f : α → α}

/-- `f` at each key, with the values that the keys before it left. -/
def updateAll (f : α → α) (keys : List ι) (s : ι → α) : ι → α :=
  keys.foldl (fun s i => Function.update s i (f (s i))) s

theorem updateAll_cons (f : α → α) (i : ι) (keys : List ι) (s : ι → α) :
    updateAll f (i :: keys) s = updateAll f keys (Function.update s i (f (s i))) := rfl

theorem updateAll_not_mem {keys : List ι} {i : ι} (h : i ∉ keys) (s : ι → α) :
    updateAll f keys s i = s i := by
  induction keys generalizing s with
  | nil => rfl
  | cons k keys ih =>
    rw [List.mem_cons, not_or] at h
    rw [updateAll_cons, ih h.2, Function.update_of_ne h.1]

theorem updateAll_mem (hf : ∀ a, f (f a) = f a) {keys : List ι} {i : ι} (h : i ∈ keys) (s : ι → α) :
    updateAll f keys s i = f (s i) := by
  induction keys generalizing s with
  | nil => exact absurd h List.not_mem_nil
  | cons k keys ih =>
    rw [updateAll_cons]
    by_cases hk : i = k
    · subst hk
      by_cases hmem : i ∈ keys
      · rw [ih hmem, Function.update_self, hf]
      · rw [updateAll_not_mem hmem, Function.update_self]
    · have hmem : i ∈ keys := (List.mem_cons.mp h).resolve_left hk
      rw [ih hmem, Function.update_of_ne hk]

section Targets

variable {κ : Type} {target : κ → Option ι} {names : List κ} {i : ι}

/-- A loop over names that makes the change behind each name that leads somewhere. -/
theorem foldl_eq_updateAll {step : (ι → α) → κ → ι → α}
    (hnone : ∀ s name, target name = none → step s name = s)
    (hsome : ∀ s name i, target name = some i → step s name = Function.update s i (f (s i)))
    (names : List κ) (s : ι → α) : names.foldl step s = updateAll f (names.filterMap target) s := by
  induction names generalizing s with
  | nil => rfl
  | cons name names ih =>
    rw [List.foldl_cons, ih]
    cases htarget : target name with
    | none => rw [List.filterMap_cons_none htarget, hnone s name htarget]
    | some i => rw [List.filterMap_cons_some htarget, updateAll_cons, hsome s name i htarget]

theorem updateAll_target (hf : ∀ a, f (f a) = f a) {name : κ} (hname : name ∈ names)
    (htarget : target name = some i) (s : ι → α) :
    updateAll f (names.filterMap target) s i = f (s i) :=
  updateAll_mem hf (List.mem_filterMap.mpr ⟨name, hname, htarget⟩) s

theorem updateAll_no_target (h : ∀ name ∈ names, target name ≠ some i) (s : ι → α) :
    updateAll f (names.filterMap target) s i = s i := by
  apply updateAll_not_mem
  intro hmem
  obtain ⟨name, hname, htarget⟩ := List.mem_filterMap.mp hmem
  exact h name hname htarget

end Targets

end Tlpi.Lib
