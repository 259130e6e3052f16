import Tlpi.Proc.Status

/-!
# Well-formed status files

A status file as the kernel writes it: every line has a key, a colon and a text that begins with
white space. What the loop over its lines sees of a line is the key and the text up to a second
colon (`StatusLine.cut`), which is the whole text only if there is none
(`StatusLine.cut_eq_value_iff`). A line that does not fit the buffer of 256 bytes is read in
pieces; all but the first are passed over, since they have no colon.
-/

namespace Tlpi.Proc

open Tlpi.Lib

/-! ## Lines in the buffer -/

section Fgets

variable {size : Nat} {l : Bytes}

theorem fgets_line (hl : newline ∉ l) (hsize : l.length + 1 < size) (f : Bytes) :
    fgets size (l ++ newline :: f) = some (l ++ [newline], f) := by
  have htake : (l ++ newline :: f).take (size - 1) =
      l ++ newline :: f.take (size - 2 - l.length) := by
    obtain ⟨n, rfl⟩ : ∃ n, size = l.length + 2 + n := ⟨size - (l.length + 2), by omega⟩
    rw [List.take_append, List.take_of_length_le (by omega),
      show l.length + 2 + n - 1 - l.length = n + 1 by omega, List.take_succ_cons,
      show l.length + 2 + n - 2 - l.length = n by omega]
  have hline : ((l ++ newline :: f).take (size - 1)).takeWhile (· ≠ newline) = l := by
    rw [htake, takeWhile_ne_append hl]
  have hlt : l.length < ((l ++ newline :: f).take (size - 1)).length := by
    rw [htake, List.length_append, List.length_cons]
    omega
  unfold fgets
  rw [if_neg (by simp)]
  simp only [hline, hlt, if_true]
  rw [List.append_cons, List.take_left' (by simp), List.drop_left' (by simp)]

theorem fgets_full (hl : newline ∉ l) (hpos : 1 < size) (hsize : size - 1 ≤ l.length) (f : Bytes) :
    fgets size (l ++ f) = some (l.take (size - 1), l.drop (size - 1) ++ f) := by
  have htake : (l ++ f).take (size - 1) = l.take (size - 1) := List.take_append_of_le_length hsize
  have hlen : (l.take (size - 1)).length = size - 1 := List.length_take_of_le hsize
  have hline : (l.take (size - 1)).takeWhile (· ≠ newline) = l.take (size - 1) :=
    takeWhile_ne_self fun hmem => hl (List.mem_of_mem_take hmem)
  have hne : l ++ f ≠ [] := by
    rw [← List.length_pos_iff, List.length_append]
    omega
  unfold fgets
  rw [if_neg hne]
  simp only [htake, hline, hlen, Nat.lt_irrefl, if_false]
  rw [List.drop_append_of_le_length hsize]

end Fgets

/-! ## Keys and values -/

/-- The bytes that end neither the string nor a token. -/
def inToken (b : UInt8) : Bool := b ≠ 0 && b ≠ colon

theorem inToken_of_imp {p : UInt8 → Bool} (h0 : p 0 = false) (hcolon : p colon = false) (b : UInt8)
    (hb : p b = true) : inToken b = true := by
  rw [inToken, Bool.and_eq_true, decide_eq_true_eq, decide_eq_true_eq]
  refine ⟨fun h => ?_, fun h => ?_⟩
  · rw [h, h0] at hb
    cases hb
  · rw [h, hcolon] at hb
    cases hb

theorem takeWhile_inToken (s : Bytes) :
    (s.takeWhile (· ≠ 0)).takeWhile (· ≠ colon) = s.takeWhile inToken := by
  rw [List.takeWhile_takeWhile]
  refine congrArg (List.takeWhile · s) (funext fun b => ?_)
  simp [inToken, Bool.and_comm]

theorem strtok_fst {before s : Bytes} {b : UInt8} (hb : b ≠ colon) :
    (strtok before (b :: s)).1 = some { before, str := (b :: s).takeWhile (· ≠ colon) } := by
  have hskip : (b :: s).dropWhile (· = colon) = b :: s :=
    List.dropWhile_cons_of_neg (by simpa using hb)
  have hnone : (b :: s).takeWhile (· = colon) = [] :=
    List.takeWhile_cons_of_neg (by simpa using hb)
  unfold strtok
  rw [hskip, hnone]
  dsimp only
  split <;> rfl

theorem strtok_colon {before s rest : Bytes} (hs : colon ∉ s) (hne : s ≠ []) :
    strtok before (s ++ colon :: rest) =
      (some { before, str := s }, 0 :: (s.reverse ++ before), rest) := by
  obtain ⟨b, s, rfl⟩ := List.exists_cons_of_ne_nil hne
  have hb : b ≠ colon := fun h => hs (h ▸ List.mem_cons_self)
  have hskip : (b :: (s ++ colon :: rest)).dropWhile (· = colon) = b :: (s ++ colon :: rest) :=
    List.dropWhile_cons_of_neg (by simpa using hb)
  have hnone : (b :: (s ++ colon :: rest)).takeWhile (· = colon) = [] :=
    List.takeWhile_cons_of_neg (by simpa using hb)
  have htake : (b :: s ++ colon :: rest).takeWhile (· ≠ colon) = b :: s :=
    takeWhile_ne_append hs rest
  have hdrop : (b :: s ++ colon :: rest).dropWhile (· ≠ colon) = colon :: rest :=
    dropWhile_ne_append hs rest
  rw [List.cons_append] at htake hdrop ⊢
  unfold strtok
  rw [hskip, hnone]
  dsimp only
  rw [htake, hdrop]
  rfl

theorem strtok_none {before s : Bytes} (h : colon ∉ s) : (strtok before s).2.2 = [] := by
  unfold strtok
  dsimp only
  split
  · rfl
  · next s' hs' =>
    have hdrop : (s.dropWhile (· = colon)).dropWhile (· ≠ colon) = [] := by
      refine List.dropWhile_eq_nil_iff.mpr fun b hb => decide_eq_true fun hcolon => ?_
      exact h (hcolon ▸ (List.dropWhile_suffix _).subset hb)
    rw [hdrop]

theorem keyValue_none {line : Bytes} (h : colon ∉ line) : keyValue line = .ok none := by
  have hrest : (strtok [] (line.takeWhile (· ≠ 0))).2.2 = [] :=
    strtok_none fun hmem => h (List.takeWhile_subset _ hmem)
  unfold keyValue
  generalize strtok [] (line.takeWhile (· ≠ 0)) = r at hrest
  obtain ⟨key, before, rest⟩ := r
  obtain rfl : rest = [] := hrest
  cases key <;> rfl

theorem trim_of_mem {t : Token} (h : ∃ b ∈ t.str, isspace b = false) :
    trim t = .ok (strip t.str) := by
  have hdrop : (t.str.reverse ++ t.before).dropWhile isspace =
      t.str.reverse.dropWhile isspace ++ t.before :=
    dropWhile_isspace_append (by simpa using h) t.before
  obtain ⟨b, hb, hspace⟩ := h
  have hmem : b ∈ t.str.reverse.dropWhile isspace :=
    mem_dropWhile_isspace (List.mem_reverse.mpr hb) hspace
  unfold trim
  split
  · next hnil =>
    rw [hdrop, List.append_eq_nil_iff] at hnil
    rw [hnil.1] at hmem
    cases hmem
  · rw [hdrop, List.length_append, if_neg (by omega)]
    rfl

/-- `trim` ends well when it stops right before the string. -/
theorem trim_of_before {t : Token} {b : UInt8} {before : Bytes} (h : t.before = b :: before)
    (hspace : isspace b = false) : trim t = .ok (strip t.str) := by
  by_cases hmem : ∃ b ∈ t.str, isspace b = false
  · exact trim_of_mem hmem
  · have hall : ∀ b ∈ t.str.reverse, isspace b = true := by
      intro b hb
      by_contra hne
      exact hmem ⟨b, List.mem_reverse.mp hb, Bool.eq_false_iff.mpr hne⟩
    have hdrop : (t.str.reverse ++ t.before).dropWhile isspace = t.before := by
      rw [List.dropWhile_append_of_pos hall, h, List.dropWhile_cons_of_neg (by simp [hspace])]
    unfold trim
    split
    · next hnil =>
      rw [hdrop, h] at hnil
      cases hnil
    · rw [hdrop, if_neg (by omega)]
      rfl

theorem keyValue_some {key value : Bytes} {b : UInt8} (hkey : ∀ b ∈ key, inToken b = true)
    (hblank : ∃ b ∈ key, isspace b = false) (hb : isspace b = true) :
    keyValue (key ++ colon :: b :: value) =
      .ok (some (strip key, strip ((b :: value).takeWhile inToken))) := by
  have hb0 : b ≠ 0 := fun h => absurd (h ▸ hb) (by decide)
  have hbcolon : b ≠ colon := fun h => absurd (h ▸ hb) (by decide)
  have hcolon : colon ∉ key := fun hmem => absurd (hkey _ hmem) (by decide)
  have hne : key ≠ [] := fun hnil => by
    obtain ⟨c, hc, -⟩ := hblank
    rw [hnil] at hc
    cases hc
  have hcons : (b :: value).takeWhile (· ≠ 0) = b :: value.takeWhile (· ≠ 0) :=
    List.takeWhile_cons_of_pos (by simpa using hb0)
  have hstr : (key ++ colon :: b :: value).takeWhile (· ≠ 0) =
      key ++ colon :: b :: value.takeWhile (· ≠ 0) := by
    rw [List.takeWhile_append_of_pos, List.takeWhile_cons_of_pos (by decide), hcons]
    intro c hc
    have := hkey c hc
    simp only [inToken, Bool.and_eq_true] at this
    exact this.1
  have hcut : (b :: value.takeWhile (· ≠ 0)).takeWhile (· ≠ colon) =
      (b :: value).takeWhile inToken := by
    rw [← hcons, takeWhile_inToken]
  have hkeyTrim : trim { before := [], str := key } = .ok (strip key) := trim_of_mem hblank
  have hvalueTrim : ∀ str, trim { before := 0 :: (key.reverse ++ []), str } = .ok (strip str) :=
    fun str => trim_of_before rfl (by decide)
  unfold keyValue
  rw [hstr, strtok_colon hcolon hne]
  dsimp only
  rw [strtok_fst hbcolon, hcut]
  dsimp only
  rw [hkeyTrim, hvalueTrim]
  rfl

/-! ## Files -/

/-- The keys that the programs look for. -/
def fieldNames : List Bytes := [bytesOf "Name", bytesOf "Uid", bytesOf "Pid", bytesOf "PPid"]

/-- A line `key:rest` of a status file. The lines that may be longer than the buffer are lists of
numbers. -/
structure StatusLine where
  key : Bytes
  rest : Bytes
  key_bytes : ∀ b ∈ key, inToken b = true ∧ b ≠ newline
  key_length : key.length < 254
  not_blank : ∃ b ∈ key, isspace b = false
  one_line : newline ∉ rest
  space : ∀ b ∈ rest.head?, isspace b = true
  long : 256 ≤ key.length + rest.length + 2 → colon ∉ rest ∧ strip key ∉ fieldNames

namespace StatusLine

variable (l : StatusLine)

def line : Bytes := l.key ++ colon :: l.rest

def name : Bytes := strip l.key

/-- The value: all that follows the first colon, without the white space around it. -/
def value : Bytes := strip l.rest

/-- What the programs read of the value. -/
def cut : Bytes := strip (l.rest.takeWhile inToken)

end StatusLine

/-- A line as the kernel writes it, with a tab after the colon. -/
def StatusLine.tabbed (key value : Bytes)
    (hkey : ∀ b ∈ key, (inToken b = true ∧ b ≠ newline) ∧ isspace b = false) (hne : key ≠ [])
    (hvalue : newline ∉ value) (hlen : key.length + value.length < 253) : StatusLine where
  key := key
  rest := 9 :: value
  key_bytes := fun b hb => (hkey b hb).1
  key_length := by omega
  not_blank := by
    obtain ⟨b, hb⟩ := List.exists_mem_of_ne_nil key hne
    exact ⟨b, hb, (hkey b hb).2⟩
  one_line := by
    rw [List.mem_cons, not_or]
    exact ⟨by decide, hvalue⟩
  space := fun b hb => by
    cases hb
    rfl
  long := fun h => by
    rw [List.length_cons] at h
    omega

/-- The content of a file. -/
def statusText (ls : List StatusLine) : Bytes := text (ls.map StatusLine.line)

namespace StatusLine

variable {l : StatusLine}

theorem newline_notMem_line : newline ∉ l.line := by
  rw [line, List.mem_append, List.mem_cons, not_or, not_or]
  exact ⟨fun h => (l.key_bytes _ h).2 rfl, by decide, l.one_line⟩

theorem strip_takeWhile_newline (l : StatusLine) :
    strip ((l.rest ++ [newline]).takeWhile inToken) = l.cut := by
  rw [List.takeWhile_append]
  split
  · next hall =>
    have hself : l.rest.takeWhile inToken = l.rest := (List.takeWhile_prefix _).eq_of_length hall
    rw [cut, hself]
    exact strip_concat_space _ (by decide)
  · rfl

/-- The whole value is read exactly when it has no second colon and no NUL. -/
theorem cut_eq_value_iff : l.cut = l.value ↔ colon ∉ l.rest ∧ 0 ∉ l.rest := by
  constructor
  · intro h
    have hmem : ∀ b ∈ l.rest, inToken b = false → isspace b = true := by
      intro b hb htoken
      by_contra hspace
      have hvalue : b ∈ l.value := mem_strip hb (Bool.eq_false_iff.mpr hspace)
      rw [← h] at hvalue
      have := List.mem_takeWhile_imp (mem_of_mem_strip hvalue)
      rw [htoken] at this
      cases this
    exact ⟨fun hb => absurd (hmem _ hb (by decide)) (by decide),
      fun hb => absurd (hmem _ hb (by decide)) (by decide)⟩
  · rintro ⟨hcolon, hnul⟩
    have hall : ∀ b ∈ l.rest, inToken b = true := by
      intro b hb
      rw [inToken, Bool.and_eq_true, decide_eq_true_eq, decide_eq_true_eq]
      exact ⟨fun h => hnul (h ▸ hb), fun h => hcolon (h ▸ hb)⟩
    rw [cut, List.takeWhile_eq_self_iff.mpr hall, value]

theorem key_inToken : ∀ b ∈ l.key, inToken b = true := fun b hb => (l.key_bytes b hb).1

theorem keyValue_line (l : StatusLine) :
    keyValue (l.line ++ [newline]) = .ok (some (l.name, l.cut)) := by
  obtain ⟨b, value, hb, hvalue⟩ : ∃ b value, isspace b = true ∧
      l.rest ++ [newline] = b :: value := by
    cases hrest : l.rest with
    | nil => exact ⟨newline, [], by decide, rfl⟩
    | cons b value => exact ⟨b, value ++ [newline], l.space b (by rw [hrest]; rfl), rfl⟩
  rw [line, List.append_assoc, List.cons_append, hvalue, keyValue_some key_inToken l.not_blank hb,
    ← hvalue, strip_takeWhile_newline, name]

/-- The first piece of a long line has its key. -/
theorem keyValue_piece (hlong : 255 ≤ l.line.length) :
    ∃ value, keyValue (l.line.take 255) = .ok (some (l.name, value)) := by
  have hkey := l.key_length
  rw [line, List.length_append, List.length_cons] at hlong
  cases hrest : l.rest with
  | nil =>
    rw [hrest, List.length_nil] at hlong
    omega
  | cons b value =>
    have htake : l.line.take 255 = l.key ++ colon :: b :: value.take (253 - l.key.length) := by
      obtain ⟨n, hn⟩ : ∃ n, 255 = l.key.length + (n + 2) := ⟨253 - l.key.length, by omega⟩
      rw [line, hrest, hn, List.take_length_add_append, List.take_succ_cons, List.take_succ_cons,
        show 253 - l.key.length = n by omega]
    rw [htake]
    exact ⟨_, keyValue_some key_inToken l.not_blank (l.space b (by rw [hrest]; rfl))⟩

end StatusLine

/-! ## Numbers -/

/-- The bytes of a number. -/
def numeric (b : UInt8) : Bool := b = 45 || b = 43 || (48 ≤ b && b ≤ 57)

/-- The part of a string that `atoi` looks at. -/
def number (s : Bytes) : Bytes := (s.dropWhile isspace).takeWhile numeric

/-- Whether a number has a minus sign, and what follows the sign. -/
def sign (s : Bytes) : Bool × Bytes :=
  match s with
  | 45 :: s => (true, s)
  | 43 :: s => (false, s)
  | s => (false, s)

theorem sign_other {b : UInt8} (hminus : b ≠ 45) (hplus : b ≠ 43) (s : Bytes) :
    sign (b :: s) = (false, b :: s) := by
  unfold sign
  split
  · next heq => exact absurd (List.cons.inj heq).1 hminus
  · next heq => exact absurd (List.cons.inj heq).1 hplus
  · rfl

theorem sign_takeWhile (s : Bytes) :
    sign (s.takeWhile numeric) = ((sign s).1, (sign s).2.takeWhile numeric) := by
  cases s with
  | nil => rfl
  | cons b s =>
    by_cases hminus : b = 45
    · subst hminus
      rfl
    · by_cases hplus : b = 43
      · subst hplus
        rfl
      · rw [sign_other hminus hplus]
        by_cases hb : numeric b = true
        · rw [List.takeWhile_cons_of_pos hb, sign_other hminus hplus]
        · rw [List.takeWhile_cons_of_neg hb]
          rfl

theorem takeWhile_digits (s : Bytes) :
    (s.takeWhile numeric).takeWhile (fun b => 48 ≤ b ∧ b ≤ 57) =
      s.takeWhile fun b => 48 ≤ b ∧ b ≤ 57 := by
  rw [List.takeWhile_takeWhile]
  refine congrArg (List.takeWhile · s) (funext fun b => ?_)
  simp only [numeric]
  grind

theorem not_isspace_of_numeric {b : UInt8} (h : numeric b = true) : isspace b = false := by
  simp only [numeric, isspace] at *
  grind

theorem dropWhile_number (s : Bytes) : (number s).dropWhile isspace = number s := by
  cases hs : number s with
  | nil => rfl
  | cons b t =>
    have hb : numeric b = true := by
      refine List.mem_takeWhile_imp (l := s.dropWhile isspace) ?_
      rw [← number, hs]
      exact List.mem_cons_self
    exact List.dropWhile_cons_of_neg (by simp [not_isspace_of_numeric hb])

theorem atoi_number (s : Bytes) : atoi (number s) = atoi s := by
  have hsign : ∀ t, atoi t =
      let n : Int := ((sign (t.dropWhile isspace)).2.takeWhile fun b => 48 ≤ b ∧ b ≤ 57).foldl
        (fun n b => 10 * n + (b.toNat - 48 : Int)) 0
      toInt32 (max (-2 ^ 63)
        (min (2 ^ 63 - 1) (if (sign (t.dropWhile isspace)).1 then -n else n))) :=
    fun t => rfl
  rw [hsign, hsign s, dropWhile_number, number, sign_takeWhile]
  dsimp only
  rw [takeWhile_digits]

theorem number_takeWhile {p : UInt8 → Bool} (hspace : ∀ b, isspace b = true → p b = true)
    (hnumeric : ∀ b, numeric b = true → p b = true) (s : Bytes) :
    number (s.takeWhile p) = number s := by
  have hdrop : (s.takeWhile p).dropWhile isspace = (s.dropWhile isspace).takeWhile p := by
    induction s with
    | nil => rfl
    | cons b s ih =>
      by_cases hb : isspace b = true
      · rw [List.takeWhile_cons_of_pos (hspace b hb), List.dropWhile_cons_of_pos hb,
          List.dropWhile_cons_of_pos hb, ih]
      · rw [List.dropWhile_cons_of_neg hb]
        by_cases hp : p b = true
        · rw [List.takeWhile_cons_of_pos hp, List.dropWhile_cons_of_neg hb]
        · rw [List.takeWhile_cons_of_neg hp]
          rfl
  rw [number, hdrop, List.takeWhile_takeWhile, number]
  refine congrArg (List.takeWhile · _) (funext fun b => ?_)
  by_cases hb : numeric b = true
  · simp [hb, hnumeric b hb]
  · simp [hb]

theorem number_concat_space {b : UInt8} (hb : isspace b = true) (s : Bytes) :
    number (s ++ [b]) = number s := by
  have hnumeric : numeric b ≠ true := fun h => by
    rw [not_isspace_of_numeric h] at hb
    cases hb
  rw [number, List.dropWhile_append, List.dropWhile_cons_of_pos hb, number]
  split
  · next hempty => rw [List.isEmpty_iff.mp hempty, List.dropWhile_nil]
  · rw [List.takeWhile_append, List.takeWhile_cons_of_neg hnumeric, List.append_nil]
    split
    · next hall => exact ((List.takeWhile_prefix _).eq_of_length hall).symm
    · rfl

theorem number_strip (s : Bytes) : number (strip s) = number s := by
  rw [number, strip, List.dropWhile_idempotent, ← number]
  induction s using List.reverseRecOn with
  | nil => rfl
  | append_singleton s b ih =>
    by_cases hb : isspace b = true
    · rw [List.rdropWhile_concat_pos _ _ _ hb, ih, number_concat_space hb]
    · rw [List.rdropWhile_concat_neg _ _ _ hb]

/-- A number ends before a second colon. -/
theorem StatusLine.atoi_cut (l : StatusLine) : atoi l.cut = atoi l.value := by
  have hspace : ∀ b, isspace b = true → inToken b = true := inToken_of_imp rfl rfl
  have hnumeric : ∀ b, numeric b = true → inToken b = true := inToken_of_imp rfl rfl
  rw [← atoi_number l.cut, ← atoi_number l.value, cut, value, number_strip, number_strip,
    number_takeWhile hspace hnumeric]

/-! ## The loop over the lines -/

section Loop

variable {σ : Type} {assign : σ → Bytes → Bytes → Except Fault σ}

theorem readStatus_nil (s : σ) : readStatus assign [] s = .ok s := by
  rw [readStatus]
  split
  · rfl
  · next h => cases h

theorem readStatus_pass {file line rest : Bytes} (h : fgets 256 file = some (line, rest))
    (hline : keyValue line = .ok none) (s : σ) :
    readStatus assign file s = readStatus assign rest s := by
  rw [readStatus]
  split
  · next hnone =>
    rw [hnone] at h
    cases h
  · next hsome =>
    rw [hsome] at h
    cases h
    rw [hline]

theorem readStatus_assign {file line rest key value : Bytes}
    (h : fgets 256 file = some (line, rest)) (hline : keyValue line = .ok (some (key, value)))
    (s : σ) : readStatus assign file s = assign s key value >>= readStatus assign rest := by
  rw [readStatus]
  split
  · next hnone =>
    rw [hnone] at h
    cases h
  · next hsome =>
    rw [hsome] at h
    cases h
    rw [hline]
    dsimp only
    cases assign s key value <;> rfl

/-- The pieces of a line without a colon are passed over. -/
theorem readStatus_skip {l : Bytes} (hcolon : colon ∉ l) (hl : newline ∉ l) (f : Bytes) (s : σ) :
    readStatus assign (l ++ newline :: f) s = readStatus assign f s := by
  induction h : l.length using Nat.strong_induction_on generalizing l with
  | _ n ih =>
    by_cases hfits : l.length + 1 < 256
    · refine readStatus_pass (fgets_line hl hfits f) (keyValue_none fun hmem => ?_) s
      rw [List.mem_append, List.mem_singleton] at hmem
      exact hmem.elim hcolon (by decide)
    · have hfull := fgets_full hl (by decide : 1 < 256) (by omega) (newline :: f)
      rw [readStatus_pass hfull (keyValue_none fun hmem => hcolon (List.mem_of_mem_take hmem)) s]
      exact ih (l.length - 255) (by omega) (fun hmem => hcolon (List.mem_of_mem_drop hmem))
        (fun hmem => hl (List.mem_of_mem_drop hmem)) List.length_drop

variable (hother : ∀ s key value, key ∉ fieldNames → assign s key value = .ok s)

include hother

theorem readStatus_line (l : StatusLine) (f : Bytes) (s : σ) :
    readStatus assign (l.line ++ newline :: f) s =
      assign s l.name l.cut >>= readStatus assign f := by
  by_cases hfits : l.line.length + 1 < 256
  · exact readStatus_assign (fgets_line l.newline_notMem_line hfits f) l.keyValue_line s
  · obtain ⟨value, hvalue⟩ := l.keyValue_piece (by omega)
    have hlong : 256 ≤ l.key.length + l.rest.length + 2 := by
      rw [StatusLine.line, List.length_append, List.length_cons] at hfits
      omega
    obtain ⟨hcolon, hname⟩ := l.long hlong
    have hfull := fgets_full l.newline_notMem_line (by decide : 1 < 256) (by omega) (newline :: f)
    have hdrop : l.line.drop 255 = l.rest.drop (254 - l.key.length) := by
      have := l.key_length
      obtain ⟨n, hn⟩ : ∃ n, 255 = l.key.length + (n + 1) := ⟨254 - l.key.length, by omega⟩
      rw [StatusLine.line, hn, List.drop_length_add_append, List.drop_succ_cons,
        show 254 - l.key.length = n by omega]
    have hpass : assign s l.name = fun _ => .ok s := funext fun value => hother s l.name value hname
    rw [readStatus_assign hfull hvalue, hpass, hdrop]
    exact readStatus_skip (fun hmem => hcolon (List.mem_of_mem_drop hmem))
      (fun hmem => l.one_line (List.mem_of_mem_drop hmem)) f s

/-- **What the loop makes of a status file**: one assignment for each line, of what it reads of the
line's value. -/
theorem readStatus_statusText (ls : List StatusLine) (s : σ) :
    readStatus assign (statusText ls) s = ls.foldlM (fun s l => assign s l.name l.cut) s := by
  induction ls generalizing s with
  | nil => exact readStatus_nil s
  | cons l ls ih =>
    rw [statusText, List.map_cons, text_cons, readStatus_line hother, List.foldlM_cons]
    exact congrArg _ (funext ih)

end Loop

end Tlpi.Proc
