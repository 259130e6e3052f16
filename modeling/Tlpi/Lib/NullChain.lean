import Mathlib

/-!
# Null-terminated pointer chains

`NullChain null next a l`: following `next` from `a` visits exactly the nodes `l` and then
reaches `null`. `Visits null next a b`: `b` is a node on the way. A chain is finite by
construction, so a node that is its own successor has none (`NullChain.next_ne`).
-/

namespace Tlpi.Lib

variable {α : Type*} {null : α} {next next' : α → α}

inductive NullChain (null : α) (next : α → α) : α → List α → Prop where
  | nil : NullChain null next null []
  | cons {a : α} {l : List α} : a ≠ null → NullChain null next (next a) l →
      NullChain null next a (a :: l)

inductive Visits (null : α) (next : α → α) (a : α) : α → Prop where
  | here : a ≠ null → Visits null next a a
  | next {b : α} : Visits null next a b → next b ≠ null → Visits null next a (next b)

theorem NullChain.eq_cons {a : α} {l : List α} (h : NullChain null next a l) (ha : a ≠ null) :
    ∃ l', l = a :: l' ∧ NullChain null next (next a) l' := by
  cases h with
  | nil => exact absurd rfl ha
  | cons _ h2 => exact ⟨_, rfl, h2⟩

theorem NullChain.of_nil {a : α} (h : NullChain null next a []) : a = null := by
  cases h
  rfl

theorem NullChain.of_cons {a b : α} {l : List α} (h : NullChain null next a (b :: l)) :
    a = b ∧ b ≠ null := by
  cases h with
  | cons hne _ => exact ⟨rfl, hne⟩

theorem NullChain.congr {a : α} {l : List α} (h : NullChain null next a l)
    (hn : ∀ b ∈ l, next' b = next b) : NullChain null next' a l := by
  induction h with
  | nil => exact .nil
  | @cons a l h1 h2 ih =>
    refine .cons h1 ?_
    rw [hn a List.mem_cons_self]
    exact ih fun b hb => hn b (List.mem_cons_of_mem _ hb)

theorem NullChain.unique {a : α} {l l' : List α} (h : NullChain null next a l)
    (h' : NullChain null next a l') : l = l' := by
  induction h generalizing l' with
  | nil =>
    cases h' with
    | nil => rfl
    | cons hne _ => exact absurd rfl hne
  | cons hne _ ih =>
    cases h' with
    | nil => exact absurd rfl hne
    | cons _ h2 => rw [ih h2]

theorem NullChain.next_ne {a : α} {l : List α} (h : NullChain null next a l) (ha : a ≠ null) :
    next a ≠ a := by
  intro e
  obtain ⟨l', rfl, h'⟩ := h.eq_cons ha
  rw [e] at h'
  have := congrArg List.length (h.unique h')
  simp at this

theorem NullChain.next_mem {a b : α} {l : List α} (h : NullChain null next a l) (hb : b ∈ l)
    (hne : next b ≠ null) : next b ∈ l := by
  induction h with
  | nil => cases hb
  | cons _ h ih =>
    rcases List.mem_cons.mp hb with rfl | hb
    · obtain ⟨l', rfl, -⟩ := h.eq_cons hne
      exact List.mem_cons_of_mem _ List.mem_cons_self
    · exact List.mem_cons_of_mem _ (ih hb)

theorem Visits.of_next {a b : α} (ha : a ≠ null) (h : Visits null next (next a) b) :
    Visits null next a b := by
  induction h with
  | here hne => exact .next (.here ha) hne
  | next _ hne ih => exact .next ih hne

/-- The nodes on the way are the nodes of the chain. -/
theorem NullChain.visits_iff {a b : α} {l : List α} (h : NullChain null next a l) :
    Visits null next a b ↔ b ∈ l := by
  constructor
  · intro hv
    induction hv with
    | here hne =>
      obtain ⟨l', rfl, -⟩ := h.eq_cons hne
      exact List.mem_cons_self
    | next _ hne ih => exact h.next_mem ih hne
  · intro hb
    induction h with
    | nil => cases hb
    | cons hne _ ih =>
      rcases List.mem_cons.mp hb with rfl | hb
      · exact .here hne
      · exact (ih hb).of_next hne

end Tlpi.Lib
