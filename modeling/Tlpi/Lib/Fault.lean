import Mathlib

/-!
# Code without defined behaviour

Reading or writing outside an array, reading a variable that was never assigned, dividing by zero,
following a null pointer and counting an `int` past its range have no defined behaviour in C. Code
that may do so is a function into `Except Fault`; so is code that runs on fuel. `bind_eq_ok` takes a
computation that ended well apart, `mapM_eq_ok` runs one that ends well on every element of a list,
and `foldlM_checked` one that checks every element.
-/

namespace Tlpi.Lib

inductive Fault where
  /-- A read or write outside the array. -/
  | outOfBounds
  /-- A use of a variable that was never assigned. -/
  | uninitialised
  /-- A loop or a recursion that has used up its fuel. -/
  | outOfFuel
  /-- A division by zero. -/
  | divByZero
  /-- A use of what a null pointer points to. -/
  | nullPointer
  /-- An `int` that leaves its range. -/
  | overflow
  deriving DecidableEq

/-- A variable as it is read. -/
def assigned {α : Type*} : Option α → Except Fault α
  | none => .error .uninitialised
  | some a => .ok a

/-- An element of an array. -/
def fetch {α : Type*} (array : List α) (i : Nat) : Except Fault α :=
  match array[i]? with
  | none => .error .outOfBounds
  | some a => .ok a

/-- An assignment to an element of an array. -/
def store {α : Type*} (array : List α) (i : Nat) (a : α) : Except Fault (List α) :=
  if i < array.length then .ok (array.set i a) else .error .outOfBounds

/-- `a / b` -/
def checkedDiv (a b : Nat) : Except Fault Nat := if b = 0 then .error .divByZero else .ok (a / b)

theorem fetch_eq_some {α : Type*} {array : List α} {i : Nat} {a : α} (h : array[i]? = some a) :
    fetch array i = .ok a := by
  rw [fetch, h]

theorem fetch_eq_ok {α : Type*} {array : List α} {i : Nat} (h : i < array.length) :
    fetch array i = .ok array[i] := by
  rw [fetch, List.getElem?_eq_getElem h]

theorem store_eq_ok {α : Type*} {array : List α} {i : Nat} (h : i < array.length) (a : α) :
    store array i a = .ok (array.set i a) := if_pos h

theorem checkedDiv_eq_ok {a b : Nat} (h : 0 < b) : checkedDiv a b = .ok (a / b) :=
  if_neg (Nat.pos_iff_ne_zero.mp h)

theorem ite_error_eq_ok {ε α : Type*} {p : Prop} [Decidable p] {e : ε} {x : Except ε α} {a : α} :
    (if p then .error e else x) = .ok a ↔ ¬ p ∧ x = .ok a := by
  by_cases hp : p
  · simp [hp]
  · simp [hp]

variable {α β : Type}

theorem toOption_eq_some {ε : Type} {x : Except ε α} {a : α} : x.toOption = some a ↔ x = .ok a := by
  cases x <;> simp [Except.toOption]

theorem ok_bind (a : α) (f : α → Except Fault β) : Except.ok a >>= f = f a := rfl

theorem bind_eq_ok {x : Except Fault α} {f : α → Except Fault β} {b : β} :
    x >>= f = .ok b ↔ ∃ a, x = .ok a ∧ f a = .ok b := by
  cases x with
  | error e => exact ⟨nofun, fun ⟨_, h, _⟩ => nomatch h⟩
  | ok a => exact ⟨fun h => ⟨a, rfl, h⟩, fun ⟨_, h, hf⟩ => by cases h; exact hf⟩

theorem ite_bind_eq_ok {p : Prop} [Decidable p] {a : α} {e : Fault}
    {f : α → Except Fault β} {b : β} :
    (if p then .ok a else .error e) >>= f = .ok b ↔ p ∧ f a = .ok b := by
  split
  · next hp => exact ⟨fun h => ⟨hp, h⟩, And.right⟩
  · next hp => exact ⟨nofun, fun h => absurd h.1 hp⟩

theorem assigned_map_eq_ok {f : α → β} {o : Option α} {b : β} :
    assigned (o.map f) = .ok b ↔ ∃ a, o = some a ∧ f a = b := by
  cases o with
  | none => exact ⟨nofun, fun ⟨_, h, _⟩ => nomatch h⟩
  | some a => exact ⟨fun h => ⟨a, rfl, Except.ok.inj h⟩, fun ⟨_, h, hb⟩ =>
      by cases h; rw [← hb]; rfl⟩

theorem mapM_eq_ok {f : α → Except Fault β} {g : α → β} {l : List α}
    (hf : ∀ a ∈ l, f a = .ok (g a)) : l.mapM f = .ok (l.map g) := by
  induction l with
  | nil => rfl
  | cons a l ih =>
    rw [List.forall_mem_cons] at hf
    rw [List.mapM_cons, hf.1, ih hf.2]
    rfl

theorem foldlM_checked {step : β → α → Except Fault β} {next : β → α → β} {fits : α → Prop}
    [DecidablePred fits] {e : Fault}
    (hstep : ∀ s a, step s a = if fits a then .ok (next s a) else .error e) (l : List α) (s : β) :
    l.foldlM step s = if ∀ a ∈ l, fits a then .ok (l.foldl next s) else .error e := by
  induction l generalizing s with
  | nil => rw [if_pos (by simp)]; rfl
  | cons a l ih =>
    rw [List.foldlM_cons, hstep, List.foldl_cons]
    by_cases ha : fits a
    · rw [if_pos ha]
      simp only [List.forall_mem_cons, ha, true_and]
      exact ih _
    · rw [if_neg ha, if_neg fun h => ha (h a List.mem_cons_self)]
      rfl

end Tlpi.Lib
