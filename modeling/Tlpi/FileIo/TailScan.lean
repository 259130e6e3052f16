import Tlpi.FileIo.Tail

/-!
# The search of `tail`'s buffer

What the scanning loop of `13-file-io-buffering/tail.c` has to keep after every turn, and how its
two search functions are meant to agree. The loop searches the buffer as a string without writing a
NUL after the bytes that it has read. The buffer starts as zeros, so the first read is followed by
one unless it fills the buffer; a file of `BUFFER_SIZE` bytes does (`accounts_iff`).

The results of the search functions are `int`s: `strOccurrences` counts in `Nat`, and what is
returned is its value as an `int`.
-/

namespace Tlpi.Tail

open Tlpi.Lib

/-! ## What the search reads -/

/-- How many characters `strchr(s, c)` reads. -/
def strchrReads (c : UInt8) : Bytes → Nat
  | [] => 0
  | b :: s => if b = c then 1 else if b = 0 then 1 else strchrReads c s + 1

/-- How many characters `str_occurrences(buf, c)` reads, all from the start of `buf` on. -/
def examined (c : UInt8) (buf : Bytes) : Nat :=
  match _h : strchr c buf with
  | .ok (some pch) => strchrReads c buf + examined c pch.tail
  | _ => strchrReads c buf
termination_by buf.length
decreasing_by
  have := length_of_strchr _h
  rw [List.length_tail]
  omega

section Reads

variable {c : UInt8} {l s : Bytes}

theorem strchrReads_append (hc : c ∉ l) (h0 : 0 ∉ l) (s : Bytes) :
    strchrReads c (l ++ s) = l.length + strchrReads c s := by
  induction l with
  | nil => rw [List.nil_append, List.length_nil, Nat.zero_add]
  | cons b l ih =>
    rw [List.mem_cons, not_or] at hc h0
    rw [List.cons_append, strchrReads, if_neg (Ne.symm hc.1), if_neg (Ne.symm h0.1), ih hc.2 h0.2,
      List.length_cons]
    omega

theorem examined_none (h : strchr c s = .ok none) : examined c s = strchrReads c s := by
  rw [examined]
  split
  · next heq => rw [h] at heq; cases heq
  · rfl

theorem examined_some {pch : Bytes} (h : strchr c s = .ok (some pch)) :
    examined c s = strchrReads c s + examined c pch.tail := by
  rw [examined]
  split
  · next heq => rw [h] at heq; cases heq; rfl
  · next hne => exact absurd h (hne pch)

theorem examined_string (hc0 : c ≠ 0) (h0 : 0 ∉ s) (z : Bytes) :
    examined c (s ++ 0 :: z) = s.length + 1 := by
  induction s using strchr_induction c with
  | absent l hl =>
    rw [examined_none (strchr_nul hl h0 hc0 z), strchrReads_append hl h0, strchrReads,
      if_neg (Ne.symm hc0), if_pos rfl]
  | found l s hl ih =>
    rw [List.mem_append, List.mem_cons, not_or, not_or] at h0
    rw [List.append_assoc, List.cons_append, examined_some (strchr_found hl h0.1 _), List.tail_cons,
      ih h0.2.2, strchrReads_append hl h0.1, strchrReads, if_pos rfl, List.length_append,
      List.length_cons]
    omega

end Reads

/-! ## The scanning loop -/

/-- The variables at the start of a turn. -/
inductive Turns (numberLines : Int) (file : Bytes) : Scan → Prop where
  | start : Turns numberLines file .start
  | again {s t : Scan} : Turns numberLines file s → turn numberLines file s = .ok (t, true) →
      Turns numberLines file t

/-- What holds after a turn that leads from `s` to `t`. -/
structure Accounts (file : Bytes) (s t : Scan) : Prop where
  curline : t.curline = (file.take t.fd.offset).count newline
  offset : t.offset = -t.fd.offset
  /-- The search has seen the bytes just read and a NUL in the buffer after them, or less. -/
  examined : examined newline t.buf ≤ t.fd.offset - s.fd.offset ∨
    examined newline t.buf = t.fd.offset - s.fd.offset + 1 ∧
      t.buf[t.fd.offset - s.fd.offset]? = some 0

/-- Every turn ends, and the accounts are right after it. -/
def AlwaysAccounts (numberLines : Int) (file : Bytes) : Prop :=
  ∀ s, Turns numberLines file s →
    ∃ t more, turn numberLines file s = .ok (t, more) ∧ Accounts file s t

section Accounts

variable {file : Bytes} (h0 : 0 ∉ file) (numberLines : Int)

include h0

theorem turns_eq_start (hlen : file.length < BUFFER_SIZE) {s : Scan}
    (hs : Turns numberLines file s) : s = .start := by
  induction hs with
  | start => rfl
  | again _ hturn ih =>
    rw [ih, turn_short h0 numberLines hlen] at hturn
    cases hturn

theorem accounts_short (hlen : file.length < BUFFER_SIZE) : AlwaysAccounts numberLines file := by
  intro s hs
  rw [turns_eq_start h0 numberLines hlen hs]
  refine ⟨_, _, turn_short h0 numberLines hlen, ?_, rfl, ?_⟩
  · rw [List.take_length]
  · obtain ⟨n, hn⟩ : ∃ n, BUFFER_SIZE - file.length = n + 1 :=
      ⟨BUFFER_SIZE - file.length - 1, by omega⟩
    right
    simp only [Scan.start, Nat.sub_zero, hn, List.replicate_succ]
    exact ⟨examined_string newline_ne_zero h0 _, by simp⟩

/-- **When the scan of a file keeps its accounts**: when the file leaves room for a NUL in the
buffer. -/
theorem accounts_iff : AlwaysAccounts numberLines file ↔ file.length < BUFFER_SIZE := by
  constructor
  · intro h
    by_contra hlen
    obtain ⟨t, more, hturn, -⟩ := h .start .start
    rw [turn_overrun h0 numberLines (Nat.not_lt.mp hlen)] at hturn
    cases hturn
  · exact accounts_short h0 numberLines

end Accounts

theorem accounts_one_line : AlwaysAccounts 1 [97, 10] :=
  (accounts_iff (by decide) 1).mpr (by decide)

/-- A file that fills the buffer. -/
theorem not_accounts_full : ¬ AlwaysAccounts 1 (List.replicate BUFFER_SIZE 97) := by
  intro h
  obtain ⟨t, more, hturn, -⟩ := h .start .start
  have h0 : (0 : UInt8) ∉ List.replicate BUFFER_SIZE 97 := by simp
  rw [turn_overrun h0 1 (by rw [List.length_replicate])] at hturn
  cases hturn

/-! ## The two search functions -/

/-- The `int` that `str_occurrences(buf, c)` returns. -/
def strOccurrencesInt (c : UInt8) (buf : Bytes) : Except Fault Int := do
  let count ← strOccurrences c buf
  return toInt32 count

/-- The search functions agree on the string `s`: `str_occurrence_offset` returns NULL when there
are fewer than `k` characters `c`, else the pointer past the `k`th, with `k` fewer after it. -/
def Agree (c : UInt8) (s z : Bytes) (k : Nat) : Prop :=
  ∃ count p, strOccurrencesInt c (s ++ 0 :: z) = .ok count ∧
    strOccurrenceOffset c k none (s ++ 0 :: z) = .ok p ∧ (p = none ↔ count < k) ∧
    ∀ q, p = some q → ∃ before after, s = before ++ after ∧ q = after ++ 0 :: z ∧
      before.count c = k ∧ (before = [] ∨ before.getLast? = some c) ∧
      strOccurrencesInt c q = .ok (count - k)

section Agree

variable {c : UInt8} {s : Bytes} {k : Nat}

theorem strOccurrencesInt_string (hc0 : c ≠ 0) (h0 : 0 ∉ s) (z : Bytes) :
    strOccurrencesInt c (s ++ 0 :: z) = .ok (toInt32 (s.count c)) := by
  unfold strOccurrencesInt
  rw [strOccurrences_string hc0 h0]
  rfl

theorem strOccurrenceOffset_found (h0 : 0 ∉ s) (hk : k < s.count c) (pch : Option Bytes)
    (z : Bytes) :
    ∃ before after, s = before ++ after ∧ before.count c = k + 1 ∧ before.getLast? = some c ∧
      strOccurrenceOffset c (k + 1) pch (s ++ 0 :: z) = .ok (some (after ++ 0 :: z)) := by
  have hc : c ∈ s := List.count_pos_iff.mp (Nat.zero_lt_of_lt hk)
  induction k generalizing s pch with
  | zero =>
    obtain ⟨l, r, rfl, hl⟩ := List.eq_append_cons_of_mem hc
    rw [List.mem_append, List.mem_cons, not_or, not_or] at h0
    refine ⟨l ++ [c], r, by simp, by simp [List.count_eq_zero.mpr hl], by simp, ?_⟩
    rw [List.append_assoc, List.cons_append, strOccurrenceOffset, strchr_found hl h0.1]
    rfl
  | succ k ih =>
    obtain ⟨l, r, rfl, hl⟩ := List.eq_append_cons_of_mem hc
    rw [List.mem_append, List.mem_cons, not_or, not_or] at h0
    rw [List.count_append, List.count_eq_zero.mpr hl, List.count_cons_self] at hk
    have hr : k < r.count c := by omega
    obtain ⟨before, after, rfl, hcount, hlast, hptr⟩ :=
      ih h0.2.2 hr (some (c :: (r ++ 0 :: z))) (List.count_pos_iff.mp (Nat.zero_lt_of_lt hr))
    refine ⟨l ++ c :: before, after, by simp, ?_, ?_, ?_⟩
    · rw [List.count_append, List.count_eq_zero.mpr hl, List.count_cons_self, hcount]
      omega
    · rw [List.getLast?_append, List.getLast?_cons, hlast]
      rfl
    · rw [List.append_assoc, List.cons_append, strOccurrenceOffset, strchr_found hl h0.1]
      exact hptr

theorem strOccurrenceOffset_null (hc0 : c ≠ 0) (h0 : 0 ∉ s) (hk : s.count c < k)
    (pch : Option Bytes) (z : Bytes) :
    strOccurrenceOffset c k pch (s ++ 0 :: z) = .ok none := by
  obtain ⟨k, rfl⟩ := Nat.exists_eq_add_one_of_ne_zero (Nat.ne_zero_of_lt hk)
  induction s using strchr_induction c generalizing k pch with
  | absent l hl =>
    rw [strOccurrenceOffset, strchr_nul hl h0 hc0]
    rfl
  | found l s hl ih =>
    rw [List.mem_append, List.mem_cons, not_or, not_or] at h0
    rw [List.count_append, List.count_eq_zero.mpr hl, List.count_cons_self] at hk
    obtain ⟨k, rfl⟩ := Nat.exists_eq_add_one_of_ne_zero (n := k) (by omega)
    rw [List.append_assoc, List.cons_append, strOccurrenceOffset, strchr_found hl h0.1]
    exact ih h0.2.2 (some (c :: (s ++ 0 :: z))) k (by omega)

theorem agree_of_fewer (hc0 : c ≠ 0) (h0 : 0 ∉ s) (z : Bytes) (hk : (k : Int) ≤ INT_MAX)
    (hlt : s.count c < k) : Agree c s z k := by
  unfold INT_MAX at hk
  have hcount := strOccurrencesInt_string hc0 h0 z
  have hint : toInt32 (s.count c) = s.count c := toInt32_of_range (by omega) (by omega)
  rw [hint] at hcount
  exact ⟨_, _, hcount, strOccurrenceOffset_null hc0 h0 hlt none z, iff_of_true rfl (by omega),
    fun _ h => nomatch h⟩

theorem agree_of_enough (hc0 : c ≠ 0) (h0 : 0 ∉ s) (z : Bytes) (hk : k < s.count c) :
    Agree c s z (k + 1) ↔ ((k + 1 : Nat) : Int) ≤ toInt32 (s.count c) := by
  obtain ⟨before, after, hs, hbefore, hlast, hoffset⟩ := strOccurrenceOffset_found h0 hk none z
  have hcount := strOccurrencesInt_string hc0 h0 z
  have hafter : strOccurrencesInt c (after ++ 0 :: z) = .ok (toInt32 (after.count c)) := by
    refine strOccurrencesInt_string hc0 (fun h => h0 ?_) z
    rw [hs]
    exact List.mem_append_right _ h
  have hsum : s.count c = k + 1 + after.count c := by rw [hs, List.count_append, hbefore]
  constructor
  · rintro ⟨count, p, hn, hp, hnull, -⟩
    have hcount' : toInt32 (s.count c) = count := Except.ok.inj (hcount.symm.trans hn)
    have hp' : some (after ++ 0 :: z) = p := Except.ok.inj (hoffset.symm.trans hp)
    rw [hcount']
    refine Int.not_lt.mp fun h => ?_
    rw [hnull.mpr h] at hp'
    cases hp'
  · intro hle
    refine ⟨_, _, hcount, hoffset, iff_of_false nofun (Int.not_lt.mpr hle), ?_⟩
    rintro _ ⟨⟩
    refine ⟨before, after, hs, rfl, hbefore, .inr hlast, hafter.trans (congrArg _ ?_)⟩
    -- the `int` of the rest of the count
    have hrest : (after.count c : Int) = s.count c - (k + 1 : Nat) := by omega
    have hmax := toInt32_le (s.count c)
    unfold INT_MAX at hmax
    rw [hrest, ← toInt32_sub]
    exact toInt32_of_range (by omega) (by omega)

/-- **When the search functions agree**: at least one occurrence is asked for, and the count as an
`int` is on the same side of `k` as the count itself. -/
theorem agree_iff (hc0 : c ≠ 0) (h0 : 0 ∉ s) (z : Bytes) (hk : (k : Int) ≤ INT_MAX) :
    Agree c s z k ↔ 1 ≤ k ∧ ((k : Int) ≤ toInt32 (s.count c) ∨ s.count c < k) := by
  cases k with
  | zero =>
    refine iff_of_false ?_ fun h => absurd h.1 (by decide)
    rintro ⟨_, _, -, hoffset, -⟩
    cases hoffset
  | succ k =>
    have hpos : 1 ≤ k + 1 := Nat.succ_pos k
    rcases Nat.lt_or_ge (s.count c) (k + 1) with hlt | hge
    · exact iff_of_true (agree_of_fewer hc0 h0 z hk hlt) ⟨hpos, .inr hlt⟩
    · rw [agree_of_enough hc0 h0 z hge]
      exact ⟨fun h => ⟨hpos, .inl h⟩, fun h => h.2.resolve_right (Nat.not_lt.mpr hge)⟩

theorem agree_second : Agree newline [97, 10, 98, 10] [] 2 :=
  (agree_iff (by decide) (by decide) [] (by decide)).mpr (by decide)

/-- The pointer past no occurrence is one that was never assigned. -/
theorem not_agree_zero : ¬ Agree newline [97, 10] [] 0 := by
  rintro ⟨_, _, -, hoffset, -⟩
  cases hoffset

end Agree

end Tlpi.Tail
