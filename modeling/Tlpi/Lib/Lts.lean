import Mathlib

/-!
# Runs of a labelled transition system

`Run step s as t`: the labels `as` lead from `s` to `t`. `Guarded step ok` keeps the steps
that meet the condition `ok` on the state before them, so `Run (Guarded step ok)` is a run
whose steps all meet it. `Run.invariant` is the one induction over runs that the
developments above use: what every step keeps, every run keeps. `Run.length_le` bounds a run by
a measure that its steps lower. `Ends` says that no run goes on for ever and none gets stuck
before a final state, `EndsUpTo` the same but for steps that come from outside;
`Ends.of_measure` and `EndsUpTo.of_measure` are the rules for them.
-/

namespace Tlpi.Lib

variable {σ ℓ : Type*} {step : σ → ℓ → σ → Prop}

inductive Run (step : σ → ℓ → σ → Prop) : σ → List ℓ → σ → Prop where
  | nil (s : σ) : Run step s [] s
  | cons {s t u : σ} {a : ℓ} {as : List ℓ} : step s a t → Run step t as u → Run step s (a :: as) u

/-- The steps whose source state and label meet `ok`. -/
def Guarded (step : σ → ℓ → σ → Prop) (ok : σ → ℓ → Prop) (s : σ) (a : ℓ) (t : σ) : Prop :=
  ok s a ∧ step s a t

/-- **What every step keeps, every run keeps.** -/
theorem Run.invariant {I : σ → Prop} (hstep : ∀ s a t, I s → step s a t → I t) {s t : σ}
    {as : List ℓ} (h : Run step s as t) (hs : I s) : I t := by
  induction h with
  | nil => exact hs
  | cons h1 _ ih => exact ih (hstep _ _ _ hs h1)

/-- A run under an invariant is no longer than a measure that every step lowers. -/
theorem Run.length_le {I : σ → Prop} {μ : σ → Nat}
    (hstep : ∀ s a t, I s → step s a t → I t ∧ μ t < μ s) {s t : σ} {as : List ℓ}
    (h : Run step s as t) (hs : I s) : as.length + μ t ≤ μ s := by
  induction h with
  | nil => simp
  | cons h1 _ ih =>
    obtain ⟨hi, hlt⟩ := hstep _ _ _ hs h1
    have := ih hi
    rw [List.length_cons]
    omega

theorem Run.guarded {ok : ℓ → Prop} {s t : σ} {as : List ℓ} (h : Run step s as t)
    (hok : ∀ a ∈ as, ok a) : Run (Guarded step fun _ => ok) s as t := by
  induction h with
  | nil => exact .nil _
  | cons h1 _ ih =>
    rw [List.forall_mem_cons] at hok
    exact .cons ⟨hok.1, h1⟩ (ih hok.2)

theorem Run.append {s t u : σ} {as bs : List ℓ} (h : Run step s as t) (h' : Run step t bs u) :
    Run step s (as ++ bs) u := by
  induction h with
  | nil => exact h'
  | cons h1 _ ih => exact .cons h1 (ih h')

/-- Some run leads from `s` to `t`. -/
def Reaches (step : σ → ℓ → σ → Prop) (s t : σ) : Prop := ∃ as, Run step s as t

theorem Reaches.refl (s : σ) : Reaches step s s := ⟨[], .nil s⟩

theorem Reaches.single {s t : σ} {a : ℓ} (h : step s a t) : Reaches step s t :=
  ⟨[a], .cons h (.nil t)⟩

theorem Reaches.trans {s t u : σ} : Reaches step s t → Reaches step t u → Reaches step s u :=
  fun ⟨as, h⟩ ⟨bs, h'⟩ => ⟨as ++ bs, h.append h'⟩

/-! ## Runs that end -/

/-- Only steps from outside (those labelled `ext`) can make a run from `s` longer than a fixed
bound, and every run can be continued up to a final state without any. -/
structure EndsUpTo (step : σ → ℓ → σ → Prop) (ext : ℓ → Bool) (s : σ) (final : σ → Prop) :
    Prop where
  bounded : ∃ N k, ∀ as t, Run step s as t → as.length ≤ N + k * as.countP ext
  completes : ∀ as t, Run step s as t → ∃ bs u, Run step t bs u ∧ final u ∧ bs.countP ext = 0

/-- Steps that keep an invariant and lower a measure, but for the steps from outside, which may
raise it by `k`; and a next step of its own in every state that is not final. -/
theorem EndsUpTo.of_measure {ext : ℓ → Bool} {I final : σ → Prop} {μ : σ → Nat} (k : Nat)
    (hstep : ∀ s a t, I s → step s a t → I t ∧ μ t + 1 ≤ μ s + if ext a then k + 1 else 0)
    (hnext : ∀ s, I s → final s ∨ ∃ a t, step s a t ∧ ext a = false) {s : σ} (hs : I s) :
    EndsUpTo step ext s final := by
  have hlen : ∀ {s as t}, Run step s as t → I s →
      as.length + μ t ≤ μ s + (k + 1) * as.countP ext := fun h hs => by
    induction h with
    | nil => simp
    | @cons s t u a as h1 _ ih =>
      obtain ⟨hi, hlt⟩ := hstep _ _ _ hs h1
      have := ih hi
      cases ha : ext a <;> simp [ha, Nat.mul_add] at hlt ⊢ <;> omega
  refine ⟨⟨μ s, k + 1, fun as t h => ?_⟩, fun as t h => ?_⟩
  · have := hlen h hs
    omega
  · have ht : I t := h.invariant (fun s a t hi h1 => (hstep s a t hi h1).1) hs
    clear h
    -- by induction on the measure of the state reached
    induction hn : μ t using Nat.strong_induction_on generalizing t with
    | _ n ih =>
      rcases hnext t ht with hf | ⟨a, u, hu, ha⟩
      · exact ⟨[], t, .nil t, hf, rfl⟩
      · obtain ⟨hiu, hlt⟩ := hstep t a u ht hu
        rw [ha, if_neg (by simp)] at hlt
        obtain ⟨bs, w, hw, hf, hb⟩ := ih (μ u) (by omega) u hiu rfl
        exact ⟨a :: bs, w, .cons hu hw, hf, by simp [ha, hb]⟩

/-- No run from `s` goes on for ever, and each can be continued up to a final state. -/
structure Ends (step : σ → ℓ → σ → Prop) (s : σ) (final : σ → Prop) : Prop where
  bounded : ∃ N, ∀ as t, Run step s as t → as.length ≤ N
  completes : ∀ as t, Run step s as t → ∃ bs u, Run step t bs u ∧ final u

/-- Steps that keep an invariant and lower a measure, with a next step in every state of the
invariant that is not final. -/
theorem Ends.of_measure {I final : σ → Prop} {μ : σ → Nat}
    (hstep : ∀ s a t, I s → step s a t → I t ∧ μ t < μ s)
    (hnext : ∀ s, I s → final s ∨ ∃ a t, step s a t) {s : σ} (hs : I s) :
    Ends step s final := by
  obtain ⟨⟨N, k, hb⟩, hc⟩ : EndsUpTo step (fun _ => false) s final :=
    EndsUpTo.of_measure 0 (fun s a t hi h1 => by simpa using hstep s a t hi h1)
      (by simpa using hnext) hs
  refine ⟨⟨N, fun as t hr => by simpa using hb as t hr⟩, fun as t hr => ?_⟩
  obtain ⟨bs, u, hu, hf, -⟩ := hc as t hr
  exact ⟨bs, u, hu, hf⟩

/-! ## Executable steps -/

/-- Run an executable step function along a list of labels. -/
def execAll (exec : σ → ℓ → Option σ) : σ → List ℓ → Option σ
  | s, [] => some s
  | s, a :: as => (exec s a).bind fun t => execAll exec t as

theorem Run.of_execAll {exec : σ → ℓ → Option σ}
    (hexec : ∀ s a t, exec s a = some t → step s a t) :
    ∀ {as : List ℓ} {s t : σ}, execAll exec s as = some t → Run step s as t
  | [], s, t, h => by
    simp only [execAll, Option.some.injEq] at h
    subst h
    exact .nil s
  | a :: as, s, t, h => by
    simp only [execAll, Option.bind_eq_some_iff] at h
    obtain ⟨u, hu, h⟩ := h
    exact .cons (hexec s a u hu) (Run.of_execAll hexec h)

/-- An execution that checks `fit` before every step is a guarded run, for every condition that
`fit` implies. -/
theorem Run.guarded_of_execAll {exec : σ → ℓ → Option σ} {fit ok : σ → ℓ → Prop}
    [∀ s a, Decidable (fit s a)] (hexec : ∀ s a t, exec s a = some t → step s a t)
    (hfit : ∀ s a, fit s a → ok s a) {as : List ℓ} {s t : σ}
    (h : execAll (fun s a => if fit s a then exec s a else none) s as = some t) :
    Run (Guarded step ok) s as t := by
  refine Run.of_execAll (fun s a t he => ?_) h
  split at he
  · next hf => exact ⟨hfit s a hf, hexec s a t he⟩
  · cases he

end Tlpi.Lib
