import Tlpi.Lib.Fault

/-!
# Strings in C arrays

A pointer into a character array is the part of the array from it on, so that `p + 1` is the
tail and a pointer one past the end is `[]`; reading there is a `Fault`.
`strchr` is described on a prefix without the character and
without a NUL: what comes after the prefix decides the result. The other sections are about the
bytes of a string: the white space around it, a text searched in fields between separators,
decimal numbers and lines.
-/

namespace Tlpi.Lib

/-- `strchr(s, c)`, the pointer to the first `c` before the NUL. -/
def strchr (c : UInt8) : List UInt8 → Except Fault (Option (List UInt8))
  | [] => .error .outOfBounds
  | b :: s => if b = c then .ok (some (b :: s)) else if b = 0 then .ok none else strchr c s

/-- `strlen(s)` -/
def strlen (s : List UInt8) : Nat := (s.takeWhile (· ≠ 0)).length

/-- The bytes of an ASCII literal. -/
def bytesOf (s : String) : List UInt8 := s.toList.map fun c => UInt8.ofNat c.toNat

/-- `strcpy` of a string into an array of `n` bytes. -/
def strcpy (n : Nat) (s : List UInt8) : Except Fault (List UInt8) :=
  if s.length < n then .ok s else .error .outOfBounds

theorem strcpy_eq_ok {n : Nat} {s t : List UInt8} : strcpy n s = .ok t ↔ s.length < n ∧ s = t := by
  rw [strcpy]
  split
  · next h => exact ⟨fun heq => ⟨h, Except.ok.inj heq⟩, fun heq => congrArg _ heq.2⟩
  · next h => exact ⟨nofun, fun heq => absurd heq.1 h⟩

/-- `isspace`, in the C locale. -/
def isspace (b : UInt8) : Bool := b = 32 || (9 ≤ b && b ≤ 13)

/-- `strncmp(s, t, n) == 0`, for strings without their NULs. -/
def strncmpEq : (n : Nat) → (s t : List UInt8) → Bool
  | 0, _, _ => true
  | _ + 1, [], [] => true
  | n + 1, a :: s, b :: t => a = b && strncmpEq n s t
  | _ + 1, _, _ => false

theorem strncmpEq_iff {s t : List UInt8} : strncmpEq t.length s t = true ↔ t <+: s := by
  induction t generalizing s with
  | nil => simp [strncmpEq]
  | cons b t ih =>
    cases s with
    | nil => simp [strncmpEq]
    | cons a s =>
      rw [List.length_cons, strncmpEq, Bool.and_eq_true, decide_eq_true_iff, ih,
        List.cons_prefix_cons, eq_comm]

section Strchr

variable {c : UInt8} {l : List UInt8}

theorem strchr_append (hc : c ∉ l) (h0 : 0 ∉ l) (s : List UInt8) :
    strchr c (l ++ s) = strchr c s := by
  induction l with
  | nil => rfl
  | cons b l ih =>
    rw [List.mem_cons, not_or] at hc h0
    rw [List.cons_append, strchr, if_neg (Ne.symm hc.1), if_neg (Ne.symm h0.1), ih hc.2 h0.2]

theorem strchr_found (hc : c ∉ l) (h0 : 0 ∉ l) (s : List UInt8) :
    strchr c (l ++ c :: s) = .ok (some (c :: s)) := by
  rw [strchr_append hc h0, strchr, if_pos rfl]

theorem strchr_nul (hc : c ∉ l) (h0 : 0 ∉ l) (hc0 : c ≠ 0) (s : List UInt8) :
    strchr c (l ++ 0 :: s) = .ok none := by
  rw [strchr_append hc h0, strchr, if_neg (Ne.symm hc0), if_pos rfl]

theorem strchr_overrun (hc : c ∉ l) (h0 : 0 ∉ l) : strchr c l = .error .outOfBounds := by
  have h := strchr_append hc h0 []
  rwa [List.append_nil] at h

/-- A string is searched from one `c` to the next. -/
@[elab_as_elim] theorem strchr_induction {motive : List UInt8 → Prop} (c : UInt8)
    (absent : ∀ l, c ∉ l → motive l) (found : ∀ l s, c ∉ l → motive s → motive (l ++ c :: s))
    (s : List UInt8) : motive s := by
  by_cases hc : c ∈ s
  · obtain ⟨l, r, rfl, hl⟩ := List.eq_append_cons_of_mem hc
    exact found l r hl (strchr_induction c absent found r)
  · exact absent s hc
termination_by s.length
decreasing_by simp [*]; omega

theorem length_of_strchr {s p : List UInt8} (h : strchr c s = .ok (some p)) :
    0 < p.length ∧ p.length ≤ s.length := by
  induction s with
  | nil => cases h
  | cons b s ih =>
    rw [strchr] at h
    split at h
    · simp only [Except.ok.injEq, Option.some.injEq] at h
      subst h
      exact ⟨by simp, Nat.le_refl _⟩
    · split at h
      · cases h
      · have := ih h
        exact ⟨this.1, by simp only [List.length_cons]; omega⟩

end Strchr

/-! ## Up to a character -/

section Until

variable {c : UInt8} {l : List UInt8}

theorem takeWhile_ne_self (h : c ∉ l) : l.takeWhile (· ≠ c) = l :=
  List.takeWhile_eq_self_iff.mpr fun b hb => decide_eq_true fun hbc : b = c => h (hbc ▸ hb)

theorem takeWhile_ne_append (h : c ∉ l) (m : List UInt8) :
    (l ++ c :: m).takeWhile (· ≠ c) = l := by
  have hl : ∀ b ∈ l, decide (b ≠ c) = true := List.takeWhile_eq_self_iff.mp (takeWhile_ne_self h)
  rw [List.takeWhile_append_of_pos hl, List.takeWhile_cons_of_neg (by simp), List.append_nil]

theorem dropWhile_ne_append (h : c ∉ l) (m : List UInt8) :
    (l ++ c :: m).dropWhile (· ≠ c) = c :: m := by
  have hl : ∀ b ∈ l, decide (b ≠ c) = true := List.takeWhile_eq_self_iff.mp (takeWhile_ne_self h)
  rw [List.dropWhile_append_of_pos hl, List.dropWhile_cons_of_neg (by simp)]

end Until

/-! ## White space -/

/-- A string without the white space around it. -/
def strip (s : List UInt8) : List UInt8 := (s.rdropWhile isspace).dropWhile isspace

section Strip

variable {s : List UInt8} {b : UInt8}

theorem strip_concat_space (s : List UInt8) (h : isspace b = true) :
    strip (s ++ [b]) = strip s := by
  rw [strip, List.rdropWhile_concat_pos _ _ _ h, strip]

theorem mem_dropWhile_isspace (hb : b ∈ s) (h : isspace b = false) : b ∈ s.dropWhile isspace := by
  rw [← List.takeWhile_append_dropWhile (p := isspace) (l := s), List.mem_append] at hb
  rcases hb with hb | hb
  · have := List.mem_takeWhile_imp hb
    rw [h] at this
    cases this
  · exact hb

theorem mem_rdropWhile_isspace (hb : b ∈ s) (h : isspace b = false) :
    b ∈ s.rdropWhile isspace := by
  rw [List.rdropWhile, List.mem_reverse]
  exact mem_dropWhile_isspace (List.mem_reverse.mpr hb) h

theorem exists_rdropWhile_isspace (h : ∃ b ∈ s, isspace b = false) :
    ∃ b ∈ s.rdropWhile isspace, isspace b = false := by
  obtain ⟨b, hb, hspace⟩ := h
  exact ⟨b, mem_rdropWhile_isspace hb hspace, hspace⟩

theorem dropWhile_isspace_append (h : ∃ b ∈ s, isspace b = false) (t : List UInt8) :
    (s ++ t).dropWhile isspace = s.dropWhile isspace ++ t := by
  obtain ⟨b, hb, hspace⟩ := h
  rw [List.dropWhile_append, if_neg]
  rw [List.isEmpty_iff]
  exact List.ne_nil_of_mem (mem_dropWhile_isspace hb hspace)

theorem rdropWhile_isspace_append (h : ∃ b ∈ s, isspace b = false) (t : List UInt8) :
    (t ++ s).rdropWhile isspace = t ++ s.rdropWhile isspace := by
  have hrev : ∃ b ∈ s.reverse, isspace b = false := by simpa using h
  rw [List.rdropWhile, List.reverse_append, dropWhile_isspace_append hrev, List.reverse_append,
    List.reverse_reverse, List.rdropWhile]

theorem mem_strip (hb : b ∈ s) (h : isspace b = false) : b ∈ strip s :=
  mem_dropWhile_isspace (mem_rdropWhile_isspace hb h) h

theorem mem_of_mem_strip (hb : b ∈ strip s) : b ∈ s :=
  (List.rdropWhile_prefix isspace s).subset ((List.dropWhile_suffix isspace).subset hb)

theorem length_strip_le (s : List UInt8) : (strip s).length ≤ s.length :=
  (List.dropWhile_suffix isspace).length_le.trans (List.rdropWhile_prefix isspace s).length_le

theorem dropWhile_of_length_strip (h : s.length ≤ (strip s).length) :
    s.dropWhile isspace = s ∧ strip s = s := by
  have hdrop := List.dropWhile_suffix isspace (l := s.rdropWhile isspace)
  have hr : s.rdropWhile isspace = s :=
    (List.rdropWhile_prefix isspace s).eq_of_length_le (h.trans hdrop.length_le)
  have hstrip : strip s = s.dropWhile isspace := by rw [strip, hr]
  have hs : s.dropWhile isspace = s := by
    refine (List.dropWhile_suffix isspace).eq_of_length_le ?_
    rwa [hstrip] at h
  exact ⟨hs, hstrip.trans hs⟩

theorem strip_append_iff (h : ∃ b ∈ s, isspace b = false) (t : List UInt8) :
    strip (s ++ t) = strip s ↔ ∀ b ∈ t, isspace b = true := by
  constructor
  · intro heq
    by_contra hblank
    have ht : ∃ b ∈ t, isspace b = false := by simpa using hblank
    obtain ⟨b, hb, hspace⟩ := ht
    have hlong : strip (s ++ t) = s.dropWhile isspace ++ t.rdropWhile isspace := by
      rw [strip, rdropWhile_isspace_append ⟨b, hb, hspace⟩, dropWhile_isspace_append h]
    have hshort : s.dropWhile isspace = strip s ++ s.rtakeWhile isspace := by
      rw [strip, ← dropWhile_isspace_append (exists_rdropWhile_isspace h),
        List.rdropWhile_append_rtakeWhile]
    have hpos := List.length_pos_of_mem (mem_rdropWhile_isspace hb hspace)
    have hlen := congrArg List.length heq
    rw [hlong, hshort, List.length_append, List.length_append] at hlen
    omega
  · intro hblank
    induction t using List.reverseRecOn with
    | nil => rw [List.append_nil]
    | append_singleton t b ih =>
      rw [← List.append_assoc, strip_concat_space _ (hblank b (by simp))]
      exact ih fun c hc => hblank c (List.mem_append_left _ hc)

end Strip

/-! ## Searching -/

section Infix

variable {α : Type} {sep : α} {x : List α}

theorem prefix_append_sep_iff (hx : sep ∉ x) (l m : List α) : x <+: l ++ sep :: m ↔ x <+: l := by
  induction l generalizing x with
  | nil =>
    cases x with
    | nil => simp
    | cons a x =>
      rw [List.nil_append, List.cons_prefix_cons]
      refine iff_of_false (fun h => hx (h.1 ▸ List.mem_cons_self)) (by simp)
  | cons b l ih =>
    cases x with
    | nil => simp
    | cons a x =>
      rw [List.cons_append, List.cons_prefix_cons, List.cons_prefix_cons,
        ih fun h => hx (List.mem_cons_of_mem _ h)]

/-- What has no separator in it occurs on one side of a separator. -/
theorem infix_append_sep_iff (hx : sep ∉ x) (l m : List α) :
    x <:+: l ++ sep :: m ↔ x <:+: l ∨ x <:+: m := by
  induction l with
  | nil =>
    rw [List.nil_append, List.infix_cons_iff, List.infix_nil]
    have := prefix_append_sep_iff hx [] m
    rw [List.nil_append, List.prefix_nil] at this
    rw [this]
  | cons b l ih =>
    rw [List.cons_append, List.infix_cons_iff, ih, List.infix_cons_iff, ← List.cons_append,
      prefix_append_sep_iff hx, or_assoc]

theorem infix_intercalate_iff (hx : sep ∉ x) (hne : x ≠ []) (ls : List (List α)) :
    x <:+: [sep].intercalate ls ↔ ∃ l ∈ ls, x <:+: l := by
  induction ls with
  | nil => simp [List.intercalate, hne]
  | cons l ls ih =>
    cases ls with
    | nil => simp [List.intercalate]
    | cons m ls =>
      have hsplit : [sep].intercalate (l :: m :: ls) = l ++ sep :: [sep].intercalate (m :: ls) := by
        simp [List.intercalate]
      rw [hsplit, infix_append_sep_iff hx, ih, List.exists_mem_cons_iff _ l]

end Infix

/-! ## Decimal numbers -/

/-- The digits of a number. -/
def decimal (n : Nat) : List UInt8 := bytesOf (toString n)

theorem mem_decimal {n : Nat} {b : UInt8} (h : b ∈ decimal n) : 48 ≤ b.toNat ∧ b.toNat ≤ 57 := by
  rw [decimal, bytesOf, List.mem_map] at h
  obtain ⟨c, hc, rfl⟩ := h
  have hdigit : c.isDigit := by
    refine Nat.isDigit_of_mem_toDigits (b := 10) (n := n) (by decide) (by decide) ?_
    simpa using hc
  obtain ⟨hlo, hhi⟩ := Char.isDigit_iff_toNat.mp hdigit
  have hmod : c.toNat % 256 = c.toNat := Nat.mod_eq_of_lt (hhi.trans_lt (by decide))
  rw [UInt8.toNat_ofNat', hmod]
  exact ⟨hlo, hhi⟩

/-- The number that digits stand for. -/
def decimalValue (s : List UInt8) : Nat := s.foldl (fun n b => 10 * n + (b.toNat - 48)) 0

theorem decimalValue_decimal (n : Nat) : decimalValue (decimal n) = n := by
  have hdigits : (toString n).toList = Nat.toDigits 10 n := by simp
  have hbyte : ∀ c ∈ Nat.toDigits 10 n, (UInt8.ofNat c.toNat).toNat = c.toNat := by
    intro c hc
    have hdigit := Nat.isDigit_of_mem_toDigits (by decide) (by decide) hc
    obtain ⟨-, hhi⟩ := Char.isDigit_iff_toNat.mp hdigit
    rw [UInt8.toNat_ofNat']
    exact Nat.mod_eq_of_lt (hhi.trans_lt (by decide))
  rw [decimalValue, decimal, bytesOf, hdigits, List.foldl_map]
  calc (Nat.toDigits 10 n).foldl (fun m c => 10 * m + ((UInt8.ofNat c.toNat).toNat - 48)) 0
      = (Nat.toDigits 10 n).foldl (fun m c => 10 * m + (c.toNat - 48)) 0 :=
        List.foldl_ext _ _ _ fun m c hc => by rw [hbyte c hc]
    _ = Nat.ofDigitChars 10 (Nat.toDigits 10 n) 0 := Nat.ofDigitChars_eq_foldl.symm
    _ = n := Nat.ofDigitChars_ten_toDigits

theorem decimalValue_zeros (k : Nat) (s : List UInt8) :
    decimalValue (List.replicate k 48 ++ s) = decimalValue s := by
  induction k with
  | zero => rfl
  | succ k ih =>
    rw [List.replicate_succ, List.cons_append]
    exact ih

theorem decimal_ne_nil (n : Nat) : decimal n ≠ [] := by
  simp [decimal, bytesOf]

theorem bytesOf_toString_neg {x : Int} (hx : x < 0) : 45 ∈ bytesOf (toString x) := by
  obtain ⟨n, rfl⟩ := Int.eq_negSucc_of_lt_zero hx
  have : toString (Int.negSucc n) = "-" ++ toString (n + 1) := rfl
  rw [this, bytesOf]
  simp

theorem bytesOf_toString_nat (n : Nat) : bytesOf (toString (n : Int)) = decimal n := rfl

/-! ## Text files -/

/-- The newline character. -/
def newline : UInt8 := 10

/-- A text of lines, each ended by a newline. -/
def text (ls : List (List UInt8)) : List UInt8 := (ls.map (· ++ [newline])).flatten

/-- The lines of a file, with their newlines; the last one may lack it. -/
def lines : List UInt8 → List (List UInt8)
  | [] => []
  | b :: f =>
    if b = newline then [b] :: lines f
    else match lines f with
      | [] => [[b]]
      | l :: ls => (b :: l) :: ls

@[simp] theorem text_nil : text [] = [] := rfl

@[simp] theorem text_cons (l : List UInt8) (ls : List (List UInt8)) :
    text (l :: ls) = l ++ newline :: text ls := by simp [text]

theorem text_append (ls ms : List (List UInt8)) : text (ls ++ ms) = text ls ++ text ms := by
  simp [text]

theorem lines_line {l : List UInt8} (h : newline ∉ l) (f : List UInt8) :
    lines (l ++ newline :: f) = (l ++ [newline]) :: lines f := by
  induction l with
  | nil => rw [List.nil_append, lines, if_pos rfl]; rfl
  | cons b l ih =>
    rw [List.mem_cons, not_or] at h
    rw [List.cons_append, lines, if_neg (Ne.symm h.1), ih h.2]
    rfl

theorem lines_text {ls : List (List UInt8)} (h : ∀ l ∈ ls, newline ∉ l) :
    lines (text ls) = ls.map (· ++ [newline]) := by
  induction ls with
  | nil => rfl
  | cons l ls ih =>
    rw [text_cons, lines_line (h l List.mem_cons_self), ih fun m hm =>
      h m (List.mem_cons_of_mem _ hm), List.map_cons]

theorem count_newline_text {ls : List (List UInt8)} (h : ∀ l ∈ ls, newline ∉ l) :
    (text ls).count newline = ls.length := by
  induction ls with
  | nil => rfl
  | cons l ls ih =>
    rw [List.forall_mem_cons] at h
    rw [text_cons, List.count_append, List.count_eq_zero.mpr h.1, List.count_cons_self, ih h.2,
      Nat.zero_add, List.length_cons]

theorem mem_text_of_mem {ls : List (List UInt8)} {l : List UInt8} {b : UInt8} (hl : l ∈ ls)
    (hb : b ∈ l) : b ∈ text ls :=
  List.mem_flatten.mpr ⟨l ++ [newline], List.mem_map_of_mem hl, List.mem_append_left _ hb⟩

/-- A file that is empty or ends in a newline is a text of lines without newlines. -/
theorem exists_text {f : List UInt8} (h : f = [] ∨ f.getLast? = some newline) :
    ∃ ls, f = text ls ∧ ∀ l ∈ ls, newline ∉ l := by
  induction f with
  | nil => exact ⟨[], rfl, by simp⟩
  | cons b f ih =>
    have hlast : f = [] ∨ f.getLast? = some newline := by
      rcases h with h | h
      · cases h
      · rw [List.getLast?_cons] at h
        cases hf : f.getLast? with
        | none => exact .inl (List.getLast?_eq_none_iff.mp hf)
        | some a => exact .inr (by simpa [hf] using h)
    obtain ⟨ls, rfl, hls⟩ := ih hlast
    by_cases hb : b = newline
    · exact ⟨[] :: ls, by simp [hb], by simpa using hls⟩
    · cases ls with
      | nil =>
        rcases h with h | h
        · cases h
        · exact absurd (by simpa using h) hb
      | cons l ls =>
        refine ⟨(b :: l) :: ls, by simp, ?_⟩
        rw [List.forall_mem_cons] at hls ⊢
        exact ⟨by simpa [Ne.symm hb] using hls.1, hls.2⟩

end Tlpi.Lib
