import Tlpi.Lib.CString

/-!
# `strtol`

White space, a sign, and digits of a base, which may be left to the number itself (base 0). A value
outside the range of `long` is replaced by the nearest one in it, with `ERANGE`. Base 10 is spelt
out in `strtol_ten`; a number of digits alone has the value `decimalValue` (`strtol_digits`).
-/

namespace Tlpi.Lib

def LONG_MAX : Int := 2 ^ 63 - 1
def LONG_MIN : Int := -2 ^ 63

def isdigit (b : UInt8) : Bool := 48 ≤ b && b ≤ 57

/-- The value of a digit or letter; 36 is in no base. -/
def digitVal (b : UInt8) : Nat :=
  if 48 ≤ b ∧ b ≤ 57 then b.toNat - 48
  else if 97 ≤ b ∧ b ≤ 122 then b.toNat - 87
  else if 65 ≤ b ∧ b ≤ 90 then b.toNat - 55
  else 36

/-- What `strtol` returns, whether it sets `errno`, and where it stops. -/
structure Strtol where
  val : Int
  erange : Bool
  endptr : List UInt8

/-- A sign, if there is one: whether it is a minus, and what follows. -/
def splitSign : List UInt8 → Bool × List UInt8
  | 45 :: t => (true, t)
  | 43 :: t => (false, t)
  | t => (false, t)

/-- The base of the number at `t`, and where its digits begin. -/
def numberBase (base : Nat) (t : List UInt8) : Nat × List UInt8 :=
  match t with
  | 48 :: x :: d :: r =>
    if (base = 0 ∨ base = 16) ∧ (x = 120 ∨ x = 88) ∧ digitVal d < 16 then (16, d :: r)
    else (if base = 0 then 8 else base, t)
  | 48 :: _ => (if base = 0 then 8 else base, t)
  | _ => (if base = 0 then 10 else base, t)

def clampLong (n : Int) : Int := max LONG_MIN (min LONG_MAX n)

def strtol (s : List UInt8) (base : Nat) : Strtol :=
  let (negative, t) := splitSign (s.dropWhile isspace)
  let (base, t) := numberBase base t
  let digits := t.takeWhile fun b => digitVal b < base
  if digits = [] then ⟨0, false, s⟩
  else
    let n : Nat := digits.foldl (fun n b => base * n + digitVal b) 0
    let n : Int := if negative then -n else n
    ⟨clampLong n, decide (n < LONG_MIN ∨ LONG_MAX < n), t.dropWhile fun b => digitVal b < base⟩

/-! ## Base 10 -/

theorem digitVal_lt_ten {b : UInt8} : digitVal b < 10 ↔ isdigit b = true := by
  unfold digitVal isdigit
  have := b.toNat_lt
  simp only [UInt8.le_iff_toNat_le, Bool.and_eq_true, decide_eq_true_eq, UInt8.reduceToNat]
  split_ifs <;> omega

theorem digitVal_of_isdigit {b : UInt8} (h : isdigit b = true) : digitVal b = b.toNat - 48 := by
  rw [digitVal, if_pos]
  simpa [isdigit] using h

theorem numberBase_ten (t : List UInt8) : numberBase 10 t = (10, t) := by
  unfold numberBase
  split <;> simp

theorem foldl_digits {ds : List UInt8} (h : ∀ b ∈ ds, isdigit b = true) :
    ds.foldl (fun n b => 10 * n + digitVal b) 0 = decimalValue ds :=
  List.foldl_ext _ _ _ fun n b hb => by rw [digitVal_of_isdigit (h b hb)]

/-- What comes after a number is not another digit. -/
def NoDigit (s : List UInt8) : Prop := ∀ b ∈ s.head?, isdigit b = false

theorem span_digits {ds : List UInt8} (h : ∀ b ∈ ds, isdigit b = true) {rest : List UInt8}
    (hrest : NoDigit rest) :
    (ds ++ rest).takeWhile isdigit = ds ∧ (ds ++ rest).dropWhile isdigit = rest := by
  have hstop : rest.takeWhile isdigit = [] ∧ rest.dropWhile isdigit = rest := by
    cases rest with
    | nil => exact ⟨rfl, rfl⟩
    | cons b rest =>
      have hb : ¬ isdigit b = true := by simpa using hrest b rfl
      exact ⟨List.takeWhile_cons_of_neg hb, List.dropWhile_cons_of_neg hb⟩
  rw [List.takeWhile_append_of_pos h, List.dropWhile_append_of_pos h, hstop.1, hstop.2]
  simp

theorem isdigit_not_special {b : UInt8} (h : isdigit b = true) :
    isspace b = false ∧ b ≠ 45 ∧ b ≠ 43 := by
  unfold isdigit at h
  unfold isspace
  simp only [Bool.and_eq_true, decide_eq_true_eq, UInt8.le_iff_toNat_le] at h
  refine ⟨?_, ?_, ?_⟩
  · simp only [Bool.or_eq_false_iff, Bool.and_eq_false_iff, decide_eq_false_iff_not,
      UInt8.le_iff_toNat_le, ← UInt8.toNat_inj]
    simp at h ⊢
    omega
  · rintro rfl
    simp at h
  · rintro rfl
    simp at h

theorem strtol_ten (s : List UInt8) :
    strtol s 10 =
      let t := splitSign (s.dropWhile isspace)
      let ds := t.2.takeWhile isdigit
      let n : Int := if t.1 then -decimalValue ds else decimalValue ds
      if ds = [] then ⟨0, false, s⟩
      else ⟨clampLong n, decide (n < LONG_MIN ∨ LONG_MAX < n), t.2.dropWhile isdigit⟩ := by
  have hp : (fun b => decide (digitVal b < 10)) = isdigit := by
    funext b
    rw [Bool.eq_iff_iff, decide_eq_true_eq, digitVal_lt_ten]
  have hds : ∀ t : List UInt8, (t.takeWhile isdigit).foldl (fun n b => 10 * n + digitVal b) 0 =
      decimalValue (t.takeWhile isdigit) := fun t =>
    foldl_digits fun b hb => List.mem_takeWhile_imp hb
  simp only [strtol, numberBase_ten, hp, hds]

theorem strtol_digits {ds rest : List UInt8} (hne : ds ≠ []) (h : ∀ b ∈ ds, isdigit b = true)
    (hrest : NoDigit rest) :
    (strtol (ds ++ rest) 10).val = clampLong (decimalValue ds) ∧
      (strtol (ds ++ rest) 10).endptr = rest := by
  obtain ⟨d, ds, rfl⟩ := List.exists_cons_of_ne_nil hne
  obtain ⟨h1, h2, h3⟩ := isdigit_not_special (h d List.mem_cons_self)
  have hdrop : (d :: ds ++ rest).dropWhile isspace = d :: ds ++ rest :=
    List.dropWhile_cons_of_neg (by simp [h1])
  have hsign : splitSign (d :: ds ++ rest) = (false, d :: ds ++ rest) := by
    rw [List.cons_append]
    unfold splitSign
    split
    · next heq => exact absurd (List.cons.inj heq).1 h2
    · next heq => exact absurd (List.cons.inj heq).1 h3
    · rfl
  obtain ⟨ht, hd⟩ := span_digits h hrest
  rw [strtol_ten, hdrop, hsign]
  simp only [ht, hd, reduceCtorEq, if_false, Bool.false_eq_true, and_self]

end Tlpi.Lib
