import Mathlib

/-!
# Lists with distinct keys

A list whose elements have a key and a value, `lookupBy key val l` as the map that it stands for,
whatever the order of the elements. Adding an element, replacing one and taking one out are updates
of the map at its key.
-/

namespace Tlpi.Lib

variable {α κ β : Type*} [DecidableEq κ] {key : α → κ} {val : α → β} {l l' rest : List α} {a a' : α}
  {k : κ} {b : β}

def lookupBy (key : α → κ) (val : α → β) (l : List α) (k : κ) : Option β :=
  (l.find? fun a => key a = k).map val

theorem lookupBy_eq_some (h : (l.map key).Nodup) :
    lookupBy key val l k = some b ↔ ∃ a ∈ l, key a = k ∧ val a = b := by
  rw [lookupBy, Option.map_eq_some_iff]
  refine ⟨?_, ?_⟩
  · rintro ⟨a, ha, rfl⟩
    exact ⟨a, List.mem_of_find?_eq_some ha, by simpa using List.find?_some ha, rfl⟩
  · rintro ⟨a, ha, rfl, rfl⟩
    cases hfind : l.find? fun x => key x = key a with
    | none => simpa using List.find?_eq_none.mp hfind a ha
    | some a' =>
      have hkey : key a' = key a := by simpa using List.find?_some hfind
      exact ⟨a, by rw [List.inj_on_of_nodup_map h (List.mem_of_find?_eq_some hfind) ha hkey], rfl⟩

theorem lookupBy_ne_none : lookupBy key val l k ≠ none ↔ ∃ a ∈ l, key a = k := by
  simp [lookupBy]

theorem lookupBy_eq_none : lookupBy key val l k = none ↔ ∀ a ∈ l, key a ≠ k := by
  simp [lookupBy]

theorem lookupBy_ext {m : κ → Option β} (h : (l'.map key).Nodup)
    (hm : ∀ k b, m k = some b ↔ ∃ a ∈ l', key a = k ∧ val a = b) : lookupBy key val l' = m :=
  funext fun k => Option.ext fun b => by rw [lookupBy_eq_some h, hm]

theorem lookupBy_perm (hp : l.Perm l') (h : (l.map key).Nodup) :
    lookupBy key val l = lookupBy key val l' := by
  have h' : (l'.map key).Nodup := (hp.map key).nodup_iff.mp h
  refine lookupBy_ext h fun k b => ?_
  rw [lookupBy_eq_some h']
  simp only [hp.mem_iff]

theorem lookupBy_cons (a : α) (l : List α) :
    lookupBy key val (a :: l) = Function.update (lookupBy key val l) (key a) (some (val a)) := by
  funext k
  rw [lookupBy, List.find?_cons, Function.update_apply]
  by_cases hk : key a = k
  · simp [hk]
  · simp [hk, Ne.symm hk, lookupBy]

omit [DecidableEq κ] in
theorem nodup_keys_cons :
    ((a :: l).map key).Nodup ↔ (∀ x ∈ l, key x ≠ key a) ∧ (l.map key).Nodup := by
  rw [List.map_cons, List.nodup_cons, List.mem_map]
  simp only [not_exists, not_and]

theorem lookupBy_insert (h : (l.map key).Nodup) (ha : lookupBy key val l (key a) = none)
    (hl' : l'.Perm (a :: l)) :
    (l'.map key).Nodup ∧
      lookupBy key val l' = Function.update (lookupBy key val l) (key a) (some (val a)) := by
  have hcons : ((a :: l).map key).Nodup := nodup_keys_cons.mpr ⟨lookupBy_eq_none.mp ha, h⟩
  have hnd : (l'.map key).Nodup := (hl'.map key).nodup_iff.mpr hcons
  exact ⟨hnd, (lookupBy_perm hl' hnd).trans (lookupBy_cons a l)⟩

theorem lookupBy_remove (h : (l.map key).Nodup) (hl : l.Perm (a :: l')) :
    (l'.map key).Nodup ∧
      lookupBy key val l' = Function.update (lookupBy key val l) (key a) none := by
  have hcons : ((a :: l').map key).Nodup := (hl.map key).nodup_iff.mp h
  obtain ⟨ha, hnd⟩ := nodup_keys_cons.mp hcons
  have hnone : lookupBy key val l' (key a) = none := lookupBy_eq_none.mpr ha
  refine ⟨hnd, ?_⟩
  rw [lookupBy_perm hl h, lookupBy_cons, Function.update_idem, ← hnone, Function.update_eq_self]

theorem lookupBy_replace (h : (l.map key).Nodup) (hl : l.Perm (a :: rest))
    (hl' : l'.Perm (a' :: rest)) (hk : key a' = key a) :
    (l'.map key).Nodup ∧
      lookupBy key val l' = Function.update (lookupBy key val l) (key a) (some (val a')) := by
  obtain ⟨hnd, hrest⟩ := @lookupBy_remove α κ β _ key val l rest a h hl
  have hnone : lookupBy key val rest (key a') = none := by
    rw [hrest, hk, Function.update_self]
  obtain ⟨hnd', hins⟩ := lookupBy_insert hnd hnone hl'
  exact ⟨hnd', by rw [hins, hrest, hk, Function.update_idem]⟩

end Tlpi.Lib
