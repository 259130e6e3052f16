import Mathlib

/-!
# Threads over a shared state

`Conf ι σ τ`: a state `shared` that every thread sees, and a state `own i` of each thread
`i : ι`. A step of one thread replaces the shared state and that thread's own
(`Conf.set`). `Conf.total g` adds up `g` over the threads: `Conf.total_set` says how one step
changes it, which is all that a counting invariant needs, and `Conf.eq_of_total_le_one` reads mutual
exclusion off such an invariant. `Conf.Excl` ties the owner of a lock to the threads inside.
-/

namespace Tlpi.Lib

structure Conf (ι σ τ : Type*) where
  shared : σ
  own : ι → τ

/-- The owner of a mutex that `main` and its threads take. -/
inductive Owner (ι : Type*) where
  | nobody
  | main
  | thread (i : ι)
  deriving DecidableEq

namespace Conf

variable {ι σ τ : Type*} [DecidableEq ι] (c : Conf ι σ τ) (i j : ι) (s : σ) (t : τ)

/-- Thread `i` has made a step: the shared state is `s`, its own is `t`. -/
def set : Conf ι σ τ := { shared := s, own := Function.update c.own i t }

@[simp] theorem set_shared : (c.set i s t).shared = s := rfl

@[simp] theorem set_own_self : (c.set i s t).own i = t := Function.update_self ..

variable {i j} in
theorem set_own_of_ne (h : j ≠ i) : (c.set i s t).own j = c.own j := Function.update_of_ne h ..

theorem set_own : (c.set i s t).own j = if j = i then t else c.own j :=
  Function.update_apply ..

theorem set_set (s' : σ) (t' : τ) : (c.set i s t).set i s' t' = c.set i s' t' := by
  simp [set]

theorem forall_set {P : ι → τ → Prop} :
    (∀ j, P j ((c.set i s t).own j)) ↔ P i t ∧ ∀ j, j ≠ i → P j (c.own j) :=
  Function.forall_update_iff c.own P

/-! ## A lock -/

section lock

/-- The threads that are `inside` are those that `owner` names. -/
def Excl (owner : σ → ι → Prop) (inside : τ → Prop) : Prop :=
  ∀ i, inside (c.own i) ↔ owner c.shared i

variable {c i s t} {owner : σ → ι → Prop} {inside : τ → Prop}

theorem Excl.keep (h : c.Excl owner inside) (ho : ∀ j, owner s j ↔ owner c.shared j)
    (ht : inside t ↔ inside (c.own i)) : (c.set i s t).Excl owner inside := fun j => by
  rw [set_shared, ho, ← h j, set_own]
  split
  · next hj => rw [hj, ht]
  · rfl

theorem Excl.lock (h : c.Excl owner inside) (hn : ∀ j, ¬ owner c.shared j)
    (ho : ∀ j, owner s j ↔ j = i) (ht : inside t) : (c.set i s t).Excl owner inside := fun j => by
  rw [set_shared, ho, set_own]
  split
  · next hj => simp [hj, ht]
  · next hj => simp [hj, h j, hn j]

theorem Excl.unlock (h : c.Excl owner inside) (hn : ∀ j, owner c.shared j → j = i)
    (ho : ∀ j, ¬ owner s j) (ht : ¬ inside t) : (c.set i s t).Excl owner inside := fun j => by
  rw [set_shared, set_own]
  split
  · simp [ht, ho]
  · next hj => simpa [ho j, h j] using fun hc => hj (hn j hc)

end lock

/-! ## Totals -/

section total

variable [Fintype ι]

/-- `g` added up over the threads, in any monoid. -/
def sum {M : Type*} [AddCommMonoid M] (g : ι → τ → M) : M := ∑ i, g i (c.own i)

theorem sum_set {M : Type*} [AddCommMonoid M] (g : ι → τ → M) :
    (c.set i s t).sum g + g i (c.own i) = c.sum g + g i t := by
  unfold sum
  rw [← Finset.sum_erase_add Finset.univ _ (Finset.mem_univ i),
    ← Finset.sum_erase_add Finset.univ (fun k => g k (c.own k)) (Finset.mem_univ i), set_own_self,
    add_right_comm]
  congr 2
  exact Finset.sum_congr rfl fun k hk => by rw [c.set_own_of_ne s t (Finset.ne_of_mem_erase hk)]

/-- `g` counted over the threads. -/
def total (g : ι → τ → Nat) : Nat := ∑ i, g i (c.own i)

variable (g : ι → τ → Nat)

theorem total_set : (c.set i s t).total g + g i (c.own i) = c.total g + g i t :=
  c.sum_set i s t g

variable {g i s t} in
theorem total_set_eq (h : g i t = g i (c.own i)) : (c.set i s t).total g = c.total g := by
  have := c.total_set i s t g
  omega

variable {g i s t} in
theorem total_set_succ (h : g i t = g i (c.own i) + 1) :
    (c.set i s t).total g = c.total g + 1 := by
  have := c.total_set i s t g
  omega

variable {g i s t} in
theorem total_set_lt (h : g i t < g i (c.own i)) : (c.set i s t).total g < c.total g := by
  have := c.total_set i s t g
  omega

omit [DecidableEq ι] in
theorem le_total : g i (c.own i) ≤ c.total g :=
  Finset.single_le_sum (f := fun k => g k (c.own k)) (fun _ _ => Nat.zero_le _)
    (Finset.mem_univ i)

theorem add_le_total {i j : ι} (h : i ≠ j) : g i (c.own i) + g j (c.own j) ≤ c.total g := by
  unfold total
  rw [← Finset.add_sum_erase Finset.univ (fun k => g k (c.own k)) (Finset.mem_univ i)]
  exact Nat.add_le_add_left (Finset.single_le_sum (f := fun k => g k (c.own k))
    (fun _ _ => Nat.zero_le _) (Finset.mem_erase.mpr ⟨h.symm, Finset.mem_univ j⟩)) _

variable {g} in
omit [DecidableEq ι] in
theorem total_le_sum {f : ι → Int} (h : ∀ i, (g i (c.own i) : Int) ≤ f i) :
    (c.total g : Int) ≤ ∑ i, f i := by
  unfold total
  rw [Nat.cast_sum]
  exact Finset.sum_le_sum fun i _ => h i

variable {g} in
omit [DecidableEq ι] in
theorem total_lt_sum {f : ι → Int} {i : ι} (h : ∀ i, (g i (c.own i) : Int) ≤ f i)
    (hi : (g i (c.own i) : Int) < f i) : (c.total g : Int) < ∑ i, f i := by
  unfold total
  rw [Nat.cast_sum]
  exact Finset.sum_lt_sum (fun i _ => h i) ⟨i, Finset.mem_univ i, hi⟩

omit [DecidableEq ι] in
theorem total_eq_zero : c.total g = 0 ↔ ∀ i, g i (c.own i) = 0 := by
  simp [total, Finset.sum_eq_zero_iff]

omit [DecidableEq ι] in
theorem total_const {n : Nat} (h : ∀ i, g i (c.own i) = n) : c.total g = Fintype.card ι * n := by
  unfold total
  rw [Finset.sum_congr rfl fun i _ => h i, Finset.sum_const, Finset.card_univ, smul_eq_mul]

/-- **Mutual exclusion by counting**: at most one thread counts when the total is at most
one. -/
theorem eq_of_total_le_one {i j : ι} (h : c.total g ≤ 1) (hi : 0 < g i (c.own i))
    (hj : 0 < g j (c.own j)) : i = j := by
  by_contra hne
  have := c.add_le_total g hne
  omega

end total

end Conf

end Tlpi.Lib
