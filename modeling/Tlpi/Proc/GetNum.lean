import Tlpi.Lib.CInt
import Tlpi.Lib.Strtol

/-!
# Numbers on the command line

`getLong` and `getInt` of `tlpi-dist/lib/get_num.c`, which every program of the distribution reads
its numeric arguments with. An argument is a number in the base that the flags give, and all of it:
white space, a sign, and digits, which `GN_ANY_BASE` and `GN_BASE_16` allow a `0x` before. It is
accepted when its value is in the range of the type and of the flags (`getNum_eq_ok_iff`,
`getInt_eq_ok_iff`).
-/

namespace Tlpi.GetNum

open Tlpi.Lib

abbrev Bytes := List UInt8

def GN_NONNEG : Nat := 0o1
def GN_GT_0 : Nat := 0o2
def GN_ANY_BASE : Nat := 0o100
def GN_BASE_8 : Nat := 0o200
def GN_BASE_16 : Nat := 0o400

def INT_MIN : Int := -2 ^ 31

/-- What `gnFail` prints before it exits. -/
def gnFail (fname msg : Bytes) (arg name : Option Bytes) : Bytes :=
  fname ++ bytesOf " error" ++ name.elim [] (fun name => bytesOf " (in " ++ name ++ bytesOf ")") ++
    bytesOf ": " ++ msg ++ [newline] ++
      match arg with
      | none | some [] => []
      | some arg => bytesOf "        offending text: " ++ arg ++ [newline]

def base (flags : Nat) : Nat :=
  if flags &&& GN_ANY_BASE ≠ 0 then 0 else if flags &&& GN_BASE_8 ≠ 0 then 8
  else if flags &&& GN_BASE_16 ≠ 0 then 16 else 10

/-- The number, or what is printed. -/
def getNum (fname : Bytes) (arg : Option Bytes) (flags : Nat) (name : Option Bytes) :
    Except Bytes Int :=
  match arg with
  | none | some [] => .error (gnFail fname (bytesOf "null or empty string") arg name)
  | some s =>
    let res := strtol s (base flags)
    if res.erange then .error (gnFail fname (bytesOf "strtol() failed") arg name)
    else if res.endptr ≠ [] then .error (gnFail fname (bytesOf "nonnumeric characters") arg name)
    else if flags &&& GN_NONNEG ≠ 0 ∧ res.val < 0 then
      .error (gnFail fname (bytesOf "negative value not allowed") arg name)
    else if flags &&& GN_GT_0 ≠ 0 ∧ res.val ≤ 0 then
      .error (gnFail fname (bytesOf "value must be > 0") arg name)
    else .ok res.val

def getLong (arg : Option Bytes) (flags : Nat) (name : Option Bytes) : Except Bytes Int :=
  getNum (bytesOf "getLong") arg flags name

def getInt (arg : Option Bytes) (flags : Nat) (name : Option Bytes) : Except Bytes Int :=
  match getNum (bytesOf "getInt") arg flags name with
  | .error e => .error e
  | .ok res =>
    if INT_MAX < res ∨ res < INT_MIN then
      .error (gnFail (bytesOf "getInt") (bytesOf "integer out of range") arg name)
    else .ok res

/-! ## The numbers of a base -/

/-- Digits of base `b`, at least one. -/
def Digits (b : Nat) (ds : Bytes) : Prop := ds ≠ [] ∧ ∀ d ∈ ds, digitVal d < b

def digitsValue (b : Nat) (ds : Bytes) : Nat := ds.foldl (fun n d => b * n + digitVal d) 0

/-- `ds` is a number without a sign, of value `n`; base 0 is any base. -/
inductive Magnitude : (base : Nat) → (ds : Bytes) → (n : Nat) → Prop where
  | digits {b : Nat} {ds : Bytes} (hb : b ≠ 0) (h : Digits b ds) : Magnitude b ds (digitsValue b ds)
  | decimal {d : UInt8} {ds : Bytes} (hd : d ≠ 48) (h : Digits 10 (d :: ds)) :
      Magnitude 0 (d :: ds) (digitsValue 10 (d :: ds))
  | octal {ds : Bytes} (h : Digits 8 (48 :: ds)) : Magnitude 0 (48 :: ds) (digitsValue 8 (48 :: ds))
  | hex {b : Nat} {x : UInt8} {ds : Bytes} (hb : b = 0 ∨ b = 16) (hx : x = 120 ∨ x = 88)
      (h : Digits 16 ds) : Magnitude b (48 :: x :: ds) (digitsValue 16 ds)

/-- A number: white space, a sign if it has one, and its digits. -/
inductive Number (base : Nat) : Bytes → Int → Prop where
  | unsigned {ds : Bytes} {n : Nat} (h : Magnitude base ds n) : Number base ds n
  | plus {ds : Bytes} {n : Nat} (h : Magnitude base ds n) : Number base (43 :: ds) n
  | minus {ds : Bytes} {n : Nat} (h : Magnitude base ds n) : Number base (45 :: ds) (-n)
  | space {c : UInt8} {s : Bytes} {n : Int} (hc : isspace c = true) (h : Number base s n) :
      Number base (c :: s) n

theorem not_digits_x {b : Nat} (hb : b ≤ 16) {x : UInt8} (hx : x = 120 ∨ x = 88) (ds : Bytes) :
    ¬ Digits b (48 :: x :: ds) := fun h => by
  have := h.2 x (by simp)
  have : digitVal x = 33 := by obtain rfl | rfl := hx <;> rfl
  omega

theorem magnitude_plain {b : Nat} {ds : Bytes} {n : Nat}
    (hds : ∀ x d r, ds = 48 :: x :: d :: r →
      ¬ ((b = 0 ∨ b = 16) ∧ (x = 120 ∨ x = 88) ∧ digitVal d < 16)) :
    Magnitude b ds n ↔
      Digits (if b = 0 then if ds.head? = some 48 then 8 else 10 else b) ds ∧
        n = digitsValue (if b = 0 then if ds.head? = some 48 then 8 else 10 else b) ds := by
  refine ⟨fun h => ?_, fun ⟨h, hn⟩ => ?_⟩
  · cases h with
    | digits hb h => simp only [if_neg hb, h, and_self]
    | decimal hd h => simpa [hd] using h
    | octal h => simpa using h
    | @hex _ x ds hb hx h =>
      obtain ⟨d, ds, rfl⟩ := List.exists_cons_of_ne_nil h.1
      exact absurd ⟨hb, hx, h.2 d List.mem_cons_self⟩ (hds x d ds rfl)
  · subst hn
    split at h
    · next hb =>
      subst hb
      obtain ⟨d, ds, rfl⟩ := List.exists_cons_of_ne_nil h.1
      by_cases hd : d = 48
      · subst hd
        simpa using Magnitude.octal (by simpa using h)
      · simp only [List.head?_cons, Option.some.injEq, hd, if_false, if_true] at h ⊢
        exact .decimal hd h
    · next hb =>
      simp only [if_neg hb]
      exact .digits hb h

theorem magnitude_hex {b : Nat} (hb : b = 0 ∨ b = 16) {x : UInt8} (hx : x = 120 ∨ x = 88)
    {ds : Bytes}
    {n : Nat} : Magnitude b (48 :: x :: ds) n ↔ Digits 16 ds ∧ n = digitsValue 16 ds := by
  refine ⟨fun h => ?_, fun ⟨h, hn⟩ => hn ▸ .hex hb hx h⟩
  cases h with
  | digits hb0 h =>
    obtain rfl := hb.resolve_left hb0
    exact absurd h (not_digits_x le_rfl hx ds)
  | decimal hd h => exact absurd rfl hd
  | octal h => exact absurd h (not_digits_x (by omega) hx ds)
  | hex _ _ h => exact ⟨h, rfl⟩

theorem magnitude_iff {b : Nat} {ds : Bytes} {n : Nat} :
    Magnitude b ds n ↔
      Digits (numberBase b ds).1 (numberBase b ds).2 ∧
        n = digitsValue (numberBase b ds).1 (numberBase b ds).2 := by
  unfold numberBase
  split
  · next x d r =>
    split
    · next hc => exact magnitude_hex hc.1 hc.2.1
    · next hc =>
      rw [magnitude_plain fun x' d' r' he => by cases he; exact hc]
      simp
  · next t ht =>
    rw [magnitude_plain fun x d r he => absurd (List.cons.inj he).2 (ht x d r)]
    simp
  · next hx hz =>
    have hhead : ds.head? ≠ some 48 := fun hh => by
      cases ds with
      | nil => cases hh
      | cons d ds =>
        cases hh
        exact hz ds rfl
    rw [magnitude_plain fun x d r he => absurd he (hx x d r)]
    simp [hhead]

theorem Magnitude.head {b : Nat} (hb : b ≤ 36) {ds : Bytes} {n : Nat} (h : Magnitude b ds n) :
    ∃ d ds', ds = d :: ds' ∧ isspace d = false ∧ d ≠ 43 ∧ d ≠ 45 := by
  have hdigit : ∀ {d : UInt8}, digitVal d < 36 → isspace d = false ∧ d ≠ 43 ∧ d ≠ 45 := by
    intro d hd
    refine ⟨?_, ?_, ?_⟩
    · have hge : 48 ≤ d.toNat := by
        simp only [digitVal, UInt8.le_iff_toNat_le, UInt8.reduceToNat] at hd
        split_ifs at hd <;> omega
      rw [Bool.eq_false_iff]
      intro hs
      simp only [isspace, Bool.or_eq_true, Bool.and_eq_true, decide_eq_true_eq,
        UInt8.le_iff_toNat_le, ← UInt8.toNat_inj, UInt8.reduceToNat] at hs
      omega
    · rintro rfl
      exact absurd hd (by decide)
    · rintro rfl
      exact absurd hd (by decide)
  have hdigits : ∀ {b : Nat}, b ≤ 36 → ∀ {ds : Bytes}, Digits b ds →
      ∃ d ds', ds = d :: ds' ∧ isspace d = false ∧ d ≠ 43 ∧ d ≠ 45 := fun hb ds h => by
    obtain ⟨d, ds, rfl⟩ := List.exists_cons_of_ne_nil h.1
    exact ⟨d, ds, rfl, hdigit ((h.2 d List.mem_cons_self).trans_le hb)⟩
  cases h with
  | digits _ h => exact hdigits hb h
  | decimal _ h => exact hdigits (by omega) h
  | octal h => exact hdigits (by omega) h
  | @hex _ x ds => exact ⟨48, x :: ds, rfl, by decide, by decide, by decide⟩

theorem splitSign_other {c : UInt8} (s : Bytes) (h1 : c ≠ 43) (h2 : c ≠ 45) :
    splitSign (c :: s) = (false, c :: s) := by
  unfold splitSign
  split
  · next h => exact absurd (List.cons.inj h).1 h2
  · next h => exact absurd (List.cons.inj h).1 h1
  · rfl

theorem number_iff {b : Nat} (hb : b ≤ 36) {s : Bytes} {n : Int} :
    Number b s n ↔ ∃ m : Nat, Magnitude b (splitSign (s.dropWhile isspace)).2 m ∧
      n = if (splitSign (s.dropWhile isspace)).1 then -(m : Int) else m := by
  refine ⟨fun h => ?_, ?_⟩
  · induction h with
    | @unsigned ds m h =>
      obtain ⟨d, ds, rfl, hs, h1, h2⟩ := h.head hb
      rw [List.dropWhile_cons_of_neg (by simp [hs]), splitSign_other ds h1 h2]
      exact ⟨m, h, rfl⟩
    | @plus ds m h => exact ⟨m, h, rfl⟩
    | @minus ds m h => exact ⟨m, h, rfl⟩
    | space hc _ ih => rwa [List.dropWhile_cons_of_pos hc]
  · rintro ⟨m, hm, rfl⟩
    induction s with
    | nil =>
      obtain ⟨d, ds, hd, -⟩ := hm.head hb
      cases hd
    | cons c s ih =>
      by_cases hc : isspace c = true
      · rw [List.dropWhile_cons_of_pos hc] at hm ⊢
        exact .space hc (ih hm)
      · rw [List.dropWhile_cons_of_neg hc] at hm ⊢
        by_cases h1 : c = 43
        · subst h1
          exact .plus hm
        by_cases h2 : c = 45
        · subst h2
          exact .minus hm
        rw [splitSign_other s h1 h2] at hm ⊢
        exact .unsigned hm

theorem takeWhile_all {b : Nat} {ds : Bytes} :
    Digits b ds ↔ ds.takeWhile (fun d => digitVal d < b) ≠ [] ∧
      ds.dropWhile (fun d => digitVal d < b) = [] := by
  rw [List.dropWhile_eq_nil_iff, Digits]
  refine ⟨fun ⟨hne, h⟩ => ?_, fun ⟨hne, h⟩ => ⟨?_, by simpa using h⟩⟩
  · have hall : ∀ d ∈ ds, decide (digitVal d < b) = true := by simpa using h
    rw [List.takeWhile_eq_self_iff.mpr hall]
    exact ⟨hne, hall⟩
  · rintro rfl
    exact hne rfl

theorem strtol_iff {b : Nat} (hb : b ≤ 36) {s : Bytes} (hs : s ≠ []) {n : Int} :
    ((strtol s b).erange = false ∧ (strtol s b).endptr = [] ∧ (strtol s b).val = n) ↔
      Number b s n ∧ LONG_MIN ≤ n ∧ n ≤ LONG_MAX := by
  rw [number_iff hb]
  simp only [magnitude_iff, strtol]
  generalize splitSign (s.dropWhile isspace) = p
  obtain ⟨negative, t⟩ := p
  generalize numberBase b t = q
  obtain ⟨b', ds⟩ := q
  simp only
  by_cases hnil : ds.takeWhile (fun d => digitVal d < b') = []
  · rw [if_pos hnil]
    refine iff_of_false (fun h => hs h.2.1) ?_
    rintro ⟨⟨m, ⟨hd, -⟩, -⟩, -⟩
    exact (takeWhile_all.mp hd).1 hnil
  · rw [if_neg hnil]
    have hvalue : Digits b' ds → (ds.takeWhile fun d => digitVal d < b').foldl
        (fun n d => b' * n + digitVal d) 0 = digitsValue b' ds := fun hd => by
      rw [List.takeWhile_eq_self_iff.mpr (by simpa using hd.2), digitsValue]
    constructor
    · rintro ⟨hrange, hend, hval⟩
      have hd := takeWhile_all.mpr ⟨hnil, hend⟩
      rw [hvalue hd] at hrange hval
      simp only [decide_eq_false_iff_not, not_or, not_lt] at hrange
      obtain ⟨hlo, hhi⟩ := hrange
      have hval : (if negative then -(digitsValue b' ds : Int) else digitsValue b' ds) = n := by
        rw [← hval, clampLong, min_eq_right hhi, max_eq_right hlo]
      exact ⟨⟨digitsValue b' ds, ⟨hd, rfl⟩, hval.symm⟩, hval ▸ hlo, hval ▸ hhi⟩
    · rintro ⟨⟨m, ⟨hd, rfl⟩, rfl⟩, hlo, hhi⟩
      rw [hvalue hd]
      refine ⟨by simp [hlo, hhi], (takeWhile_all.mp hd).2, ?_⟩
      rw [clampLong, min_eq_right hhi, max_eq_right hlo]

/-! ## What is accepted -/

theorem base_le (flags : Nat) : base flags ≤ 36 := by
  unfold base
  split_ifs <;> omega

/-- What the flags allow. -/
def Allows (flags : Nat) (n : Int) : Prop :=
  (flags &&& GN_NONNEG ≠ 0 → 0 ≤ n) ∧ (flags &&& GN_GT_0 ≠ 0 → 0 < n)

theorem getNum_eq_ok_iff {fname : Bytes} {arg : Option Bytes} {flags : Nat} {name : Option Bytes}
    {n : Int} :
    getNum fname arg flags name = .ok n ↔
      ∃ s, arg = some s ∧ Number (base flags) s n ∧ LONG_MIN ≤ n ∧ n ≤ LONG_MAX ∧
        Allows flags n := by
  match arg with
  | none => simp [getNum]
  | some [] =>
    refine iff_of_false (fun h => by cases h) ?_
    rintro ⟨s, hs, h, -⟩
    cases hs
    obtain ⟨m, hm, -⟩ := (number_iff (base_le flags)).mp h
    obtain ⟨d, ds, hd, -⟩ := hm.head (base_le flags)
    cases hd
  | some (c :: s) =>
    have hiff := strtol_iff (base_le flags) (List.cons_ne_nil c s) (n := n)
    have hcases : getNum fname (some (c :: s)) flags name = .ok n ↔
        ((strtol (c :: s) (base flags)).erange = false ∧
          (strtol (c :: s) (base flags)).endptr = [] ∧
          (strtol (c :: s) (base flags)).val = n) ∧ Allows flags n := by
      simp only [getNum, ite_error_eq_ok, Except.ok.injEq, Allows, not_and, not_lt, not_le,
        Bool.not_eq_true, ne_eq, not_not]
      refine ⟨fun ⟨h1, h2, h3, h4, h5⟩ => ?_, fun ⟨⟨h1, h2, h3⟩, h4, h5⟩ => ?_⟩
      · subst h5
        exact ⟨⟨h1, h2, rfl⟩, h3, h4⟩
      · subst h3
        exact ⟨h1, h2, h4, h5, rfl⟩
    rw [hcases, hiff]
    simp only [Option.some.injEq, exists_eq_left', and_assoc]

/-- The arguments that `getInt` returns a number for, and that number; for all others it prints a
message and exits. -/
theorem getInt_eq_ok_iff (arg : Option Bytes) (flags : Nat) (name : Option Bytes) (n : Int) :
    getInt arg flags name = .ok n ↔
      ∃ s, arg = some s ∧ Number (base flags) s n ∧ INT_MIN ≤ n ∧ n ≤ INT_MAX ∧ Allows flags n := by
  have hcases : getInt arg flags name = .ok n ↔
      getNum (bytesOf "getInt") arg flags name = .ok n ∧ INT_MIN ≤ n ∧ n ≤ INT_MAX := by
    unfold getInt
    cases getNum (bytesOf "getInt") arg flags name with
    | error e => simp
    | ok res =>
      simp only [ite_error_eq_ok, Except.ok.injEq, not_or, not_lt]
      refine ⟨?_, ?_⟩
      · rintro ⟨⟨h1, h2⟩, rfl⟩
        exact ⟨rfl, h2, h1⟩
      · rintro ⟨rfl, h1, h2⟩
        exact ⟨⟨h2, h1⟩, rfl⟩
  rw [hcases, getNum_eq_ok_iff]
  refine ⟨?_, ?_⟩
  · rintro ⟨⟨s, hs, h, -, -, hf⟩, h1, h2⟩
    exact ⟨s, hs, h, h1, h2, hf⟩
  · rintro ⟨s, hs, h, h1, h2, hf⟩
    simp only [INT_MIN, INT_MAX, LONG_MIN, LONG_MAX] at h1 h2 ⊢
    exact ⟨⟨s, hs, h, by omega, by omega, hf⟩, h1, h2⟩

end Tlpi.GetNum
