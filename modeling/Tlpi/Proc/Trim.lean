import Tlpi.Lib.CInt
import Tlpi.Lib.CString
import Tlpi.Lib.File
import Tlpi.Proc.StatusFile

/-!
# `trim`

`trim` of `12-system-and-process-information/proclib.c`, on the bytes of a string and its NUL alone.
Its first loop looks for the last byte that is not white space with no bound below, so it reads the
byte before a string that has none. `l` is an `int`: of a string whose length is not one, the loop
looks at the part of that many bytes (`seen`) as if the string ended there.
-/

namespace Tlpi.Trim

open Tlpi.Lib

/-- `while(isspace(p[l - 1])) p[--l] = 0;`, where an `l` that is not positive is given as 0. -/
def trimEnd : Nat → Bytes → Except Fault (Bytes × Nat)
  | 0, _ => .error .outOfBounds
  | l + 1, s => do
    let b ← fetch s l
    if isspace b then do
      let s ← store s l 0
      trimEnd l s
    else return (s, l + 1)

/-- `while(* p && isspace(* p)) ++p, --l;` -/
def trimStart : Bytes → Int → Except Fault (Bytes × Int)
  | [], _ => .error .outOfBounds
  | b :: p, l => if b ≠ 0 ∧ isspace b = true then trimStart p (l - 1) else .ok (b :: p, l)

/-- `memmove(s, p, n)`, where `p` points into the array `s`. -/
def memmove (s p : Bytes) (n : Nat) : Except Fault Bytes :=
  if n ≤ p.length then .ok (p.take n ++ s.drop n) else .error .outOfBounds

/-- `trim(s)`: the array after it. -/
def trim (s : Bytes) : Except Fault Bytes := do
  let l := toInt32 (strlen s)
  let (s, l) ← trimEnd l.toNat s
  let (p, l) ← trimStart s l
  if l = INT_MAX then throw .overflow
  else memmove s p (toUInt64 (l + 1))

/-! ## The loops -/

section Loops

variable {t e : Bytes} {b : UInt8}

theorem trimEnd_space (hb : isspace b = true) (t r : Bytes) :
    trimEnd (t ++ [b]).length (t ++ b :: r) = trimEnd t.length (t ++ 0 :: r) := by
  have hlt : t.length < (t ++ b :: r).length := by simp
  rw [List.length_append, List.length_singleton, trimEnd, fetch_eq_ok hlt]
  simp [bind, Except.bind, hb, store_eq_ok]

theorem trimEnd_stop (hb : isspace b = false) (t r : Bytes) :
    trimEnd (t ++ [b]).length (t ++ b :: r) = .ok (t ++ b :: r, t.length + 1) := by
  have hlt : t.length < (t ++ b :: r).length := by simp
  rw [List.length_append, List.length_singleton, trimEnd, fetch_eq_ok hlt]
  simp [bind, Except.bind, hb, pure, Except.pure]

/-- The loop runs below the start of a blank string. -/
theorem trimEnd_blank (h : ∀ b ∈ t, isspace b = true) (r : Bytes) :
    trimEnd t.length (t ++ r) = .error .outOfBounds := by
  induction t using List.reverseRecOn generalizing r with
  | nil => rfl
  | append_singleton t b ih =>
    rw [List.append_assoc, List.singleton_append, trimEnd_space (h b (by simp))]
    exact ih (fun c hc => h c (List.mem_append_left _ hc)) _

theorem trimEnd_eq (h : ∃ b ∈ t, isspace b = false) (r : Bytes) :
    trimEnd t.length (t ++ r) =
      .ok (t.rdropWhile isspace ++ (List.replicate (t.rtakeWhile isspace).length 0 ++ r),
        (t.rdropWhile isspace).length) := by
  induction t using List.reverseRecOn generalizing r with
  | nil => simp at h
  | append_singleton t b ih =>
    rw [List.append_assoc, List.singleton_append, List.rdropWhile_concat, List.rtakeWhile_concat]
    cases hb : isspace b with
    | false =>
      rw [trimEnd_stop hb]
      simp
    | true =>
      have ht : ∃ c ∈ t, isspace c = false := by
        obtain ⟨c, hc, hspace⟩ := h
        rcases List.mem_append.mp hc with hc | hc
        · exact ⟨c, hc, hspace⟩
        · rw [List.mem_singleton.mp hc, hb] at hspace
          cases hspace
      rw [trimEnd_space hb, ih ht, if_pos rfl, if_pos rfl, List.length_append,
        List.length_singleton, List.replicate_succ', List.append_assoc, List.singleton_append]

theorem trimStart_eq (h : ∃ b ∈ e, isspace b = false) (r : Bytes) (l : Int) :
    trimStart (e ++ r) l = .ok (e.dropWhile isspace ++ r, l - (e.takeWhile isspace).length) := by
  induction e generalizing l with
  | nil => simp at h
  | cons b e ih =>
    rw [List.cons_append, trimStart]
    cases hb : isspace b with
    | false => simp [hb]
    | true =>
      have hb0 : b ≠ 0 := fun h => absurd (h ▸ hb) (by decide)
      have he : ∃ c ∈ e, isspace c = false := by
        obtain ⟨c, hc, hspace⟩ := h
        rcases List.mem_cons.mp hc with rfl | hc
        · rw [hb] at hspace
          cases hspace
        · exact ⟨c, hc, hspace⟩
      rw [if_pos ⟨hb0, rfl⟩, ih he, List.dropWhile_cons_of_pos hb, List.takeWhile_cons_of_pos hb,
        List.length_cons]
      congr 2
      push_cast
      ring

end Loops

/-! ## What is left -/

/-- The part of the string that `l` counts at first. -/
def seen (s : Bytes) : Bytes := s.take (toInt32 s.length).toNat

def EndsBlank (t : Bytes) : Prop := ∃ b, t.getLast? = some b ∧ isspace b = true

/-- `trim` stays in the array of the string and leaves the string without white space around it. -/
def Trims (s : Bytes) : Prop := ∃ z, trim (s ++ [0]) = .ok (strip s ++ 0 :: z)

section Trims

variable {s t : Bytes}

theorem toInt32_length_le (s : Bytes) : (toInt32 s.length).toNat ≤ s.length := by
  have h := toInt32_le s.length
  unfold INT_MAX at h
  by_cases hlen : (s.length : Int) < 2 ^ 31
  · rw [toInt32_of_range (by omega) hlen]
    omega
  · omega

theorem length_seen (s : Bytes) : (seen s).length = (toInt32 s.length).toNat := by
  unfold seen
  rw [List.length_take, Nat.min_eq_left (toInt32_length_le s)]

theorem length_strip_seen_le (s : Bytes) : ((strip (seen s)).length : Int) ≤ INT_MAX := by
  have hle := length_strip_le (seen s)
  have hint := toInt32_le s.length
  rw [length_seen] at hle
  unfold INT_MAX at *
  omega

theorem seen_append_drop (s : Bytes) : seen s ++ s.drop (seen s).length = s := by
  rw [length_seen]
  exact List.take_append_drop _ s

theorem strlen_string (h0 : 0 ∉ s) : strlen (s ++ [0]) = s.length := by
  unfold strlen
  rw [takeWhile_ne_append h0]

theorem endsBlank_iff : EndsBlank t ↔ t.rtakeWhile isspace ≠ [] := by
  unfold EndsBlank
  rw [ne_eq, List.rtakeWhile_eq_nil_iff]
  constructor
  · rintro ⟨b, hlast, hb⟩ h
    have hne : t ≠ [] := fun hnil => by rw [hnil] at hlast; cases hlast
    rw [List.getLast?_eq_some_getLast hne, Option.some.injEq] at hlast
    exact h hne (hlast ▸ hb)
  · intro h
    obtain ⟨hne, hb⟩ := not_forall.mp h
    rw [not_not] at hb
    exact ⟨_, List.getLast?_eq_some_getLast hne, hb⟩

theorem trim_of_loops {s' p : Bytes} {l' : Nat} {l : Int}
    (hend : trimEnd (toInt32 (strlen s)).toNat s = .ok (s', l'))
    (hstart : trimStart s' l' = .ok (p, l)) :
    trim s = if l = INT_MAX then .error .overflow else memmove s' p (toUInt64 (l + 1)) := by
  rw [trim, hend]
  show (trimStart s' l' >>= _) = _
  rw [hstart]
  rfl

section Seen

variable (h : ∃ b ∈ seen s, isspace b = false) {r : Bytes}
  (hr : r = List.replicate ((seen s).rtakeWhile isspace).length 0 ++
    (s.drop (seen s).length ++ [0]))

include h hr

theorem trimEnd_seen : trimEnd (toInt32 s.length).toNat (s ++ [0]) =
    .ok ((seen s).rdropWhile isspace ++ r, ((seen s).rdropWhile isspace).length) := by
  rw [← length_seen, hr, ← trimEnd_eq h, ← List.append_assoc, seen_append_drop]

omit hr in
theorem trimStart_seen (r : Bytes) :
    trimStart ((seen s).rdropWhile isspace ++ r) ((seen s).rdropWhile isspace).length =
      .ok (strip (seen s) ++ r, (strip (seen s)).length) := by
  have hsplit := congrArg List.length (List.takeWhile_append_dropWhile (p := isspace)
    (l := (seen s).rdropWhile isspace))
  rw [List.length_append] at hsplit
  have hl : (((seen s).rdropWhile isspace).length : Int) -
      (((seen s).rdropWhile isspace).takeWhile isspace).length = (strip (seen s)).length := by
    unfold strip
    omega
  rw [trimStart_eq (exists_rdropWhile_isspace h), hl, strip]

theorem trim_seen (h0 : 0 ∉ s) : trim (s ++ [0]) =
    if ((strip (seen s)).length : Int) = INT_MAX then .error .overflow
    else memmove ((seen s).rdropWhile isspace ++ r) (strip (seen s) ++ r)
      (toUInt64 ((strip (seen s)).length + 1)) := by
  have hend := trimEnd_seen h hr
  rw [← strlen_string h0] at hend
  exact trim_of_loops hend (trimStart_seen h r)

/-- **The array after `trim`**. -/
theorem trim_seen_ok (h0 : 0 ∉ s) (hmax : ((strip (seen s)).length : Int) < INT_MAX) :
    trim (s ++ [0]) = .ok (strip (seen s) ++ (r.take 1 ++
      ((seen s).rdropWhile isspace ++ r).drop ((strip (seen s)).length + 1))) := by
  have hsize : toUInt64 ((strip (seen s)).length + 1) = (strip (seen s)).length + 1 := by
    unfold INT_MAX at hmax
    rw [← Nat.cast_succ]
    exact toUInt64_natCast (by omega)
  have hfits : (strip (seen s)).length + 1 ≤ (strip (seen s) ++ r).length := by
    rw [hr]
    simp only [List.length_append, List.length_singleton]
    omega
  rw [trim_seen h hr h0, if_neg (Int.ne_of_lt hmax), hsize, memmove, if_pos hfits,
    List.take_length_add_append, List.append_assoc]

end Seen

theorem trims_iff_of_ok {kept z : Bytes} (h0 : 0 ∉ s) (hkept : 0 ∉ kept)
    (hok : trim (s ++ [0]) = .ok (kept ++ 0 :: z)) : Trims s ↔ kept = strip s := by
  have hs : 0 ∉ strip s := fun hmem => h0 (mem_of_mem_strip hmem)
  unfold Trims
  rw [hok]
  refine ⟨?_, fun heq => ⟨z, by rw [heq]⟩⟩
  rintro ⟨w, hw⟩
  have heq := congrArg (List.takeWhile (· ≠ 0)) (Except.ok.inj hw)
  rwa [takeWhile_ne_append hkept, takeWhile_ne_append hs] at heq

/-- The white space that was looked at, or the NUL, ends the string. -/
theorem trims_iff_of_cut (h0 : 0 ∉ s) (h : ∃ b ∈ seen s, isspace b = false)
    (hmax : ((strip (seen s)).length : Int) < INT_MAX) (hcut : seen s = s ∨ EndsBlank (seen s)) :
    Trims s ↔ strip (seen s) = strip s := by
  obtain ⟨r, hr⟩ : ∃ r, List.replicate ((seen s).rtakeWhile isspace).length 0 ++
      (s.drop (seen s).length ++ [0]) = 0 :: r := by
    rcases hcut with hs | hblank
    · rw [hs, List.drop_length, List.nil_append, ← List.replicate_succ']
      exact ⟨_, rfl⟩
    · obtain ⟨n, hn⟩ := Nat.exists_eq_add_one_of_ne_zero
        (mt List.length_eq_zero_iff.mp (endsBlank_iff.mp hblank))
      rw [hn, List.replicate_succ]
      exact ⟨_, rfl⟩
  have hok := trim_seen_ok h hr.symm h0 hmax
  rw [List.take_succ_cons, List.cons_append] at hok
  exact trims_iff_of_ok h0 (fun hmem => h0 (List.mem_of_mem_take (mem_of_mem_strip hmem))) hok

section NotCut

variable {b : UInt8} {d : Bytes} (hsplit : t ++ b :: d = s) (hend : t.rdropWhile isspace = t)

include hsplit hend

theorem trim_not_cut (ht : seen s = t) (h0 : 0 ∉ s) (h : ∃ b ∈ t, isspace b = false)
    (hmax : ((strip t).length : Int) < INT_MAX) :
    trim (s ++ [0]) = .ok (strip t ++ b :: s.drop ((strip t).length + 1) ++ [0]) := by
  have hlen : (strip t).length + 1 ≤ s.length := by
    have hle := length_strip_le t
    rw [← hsplit, List.length_append, List.length_cons]
    omega
  have hd : s.drop t.length = b :: d := by rw [← hsplit, List.drop_left]
  have hblank : t.rtakeWhile isspace = [] := by
    have := List.rdropWhile_append_rtakeWhile (p := isspace) (l := t)
    rwa [hend, List.append_right_eq_self] at this
  subst ht
  have hok := trim_seen_ok h rfl h0 hmax
  rwa [hblank, hend, List.length_nil, List.replicate_zero, List.nil_append,
    ← List.append_assoc (seen s), seen_append_drop, hd, List.drop_append_of_le_length hlen,
    List.cons_append, List.take_succ_cons, List.take_zero, List.singleton_append,
    ← List.cons_append, ← List.append_assoc] at hok

theorem kept_eq_strip_iff (h : ∃ b ∈ t, isspace b = false) :
    strip t ++ b :: s.drop ((strip t).length + 1) = strip s ↔ strip s = s := by
  have hle := length_strip_le t
  have hsum := congrArg List.length hsplit
  rw [List.length_append, List.length_cons] at hsum
  constructor
  · intro heq
    have hlong := congrArg List.length heq
    rw [List.length_append, List.length_cons, List.length_drop] at hlong
    exact (dropWhile_of_length_strip (by omega)).2
  · intro hs
    obtain ⟨hdrop, -⟩ := dropWhile_of_length_strip (s := s) (by rw [hs])
    have hkeep : strip t = t := by
      rw [← hsplit, dropWhile_isspace_append h] at hdrop
      rw [strip, hend]
      exact List.append_cancel_right hdrop
    rw [hkeep, hs, ← hsplit, List.drop_length_add_append]
    rfl

end NotCut

theorem trims_iff_of_not_cut (h0 : 0 ∉ s) (h : ∃ b ∈ seen s, isspace b = false)
    (hmax : ((strip (seen s)).length : Int) < INT_MAX) (hseen : seen s ≠ s)
    (hblank : ¬ EndsBlank (seen s)) : Trims s ↔ strip s = s := by
  obtain ⟨t, ht⟩ : ∃ t, seen s = t := ⟨_, rfl⟩
  have hsplit := seen_append_drop s
  rw [ht] at h hmax hseen hblank hsplit
  rw [endsBlank_iff, not_not] at hblank
  have hend : t.rdropWhile isspace = t := by
    have := List.rdropWhile_append_rtakeWhile (p := isspace) (l := t)
    rwa [hblank, List.append_nil] at this
  cases hd : s.drop t.length with
  | nil =>
    rw [hd, List.append_nil] at hsplit
    exact absurd hsplit hseen
  | cons b d =>
    rw [hd] at hsplit
    have hkept : 0 ∉ strip t ++ b :: s.drop ((strip t).length + 1) := by
      rw [List.mem_append, List.mem_cons]
      rintro (hmem | rfl | hmem)
      · exact h0 (hsplit ▸ List.mem_append_left _ (mem_of_mem_strip hmem))
      · exact h0 (hsplit ▸ List.mem_append_right _ List.mem_cons_self)
      · exact h0 (List.mem_of_mem_drop hmem)
    rw [trims_iff_of_ok h0 hkept (trim_not_cut hsplit hend ht h0 h hmax)]
    exact kept_eq_strip_iff hsplit hend h

theorem trim_blank (h0 : 0 ∉ s) (h : ∀ b ∈ seen s, isspace b = true) :
    trim (s ++ [0]) = .error .outOfBounds := by
  have hend := trimEnd_blank h (s.drop (seen s).length ++ [0])
  rw [← List.append_assoc, seen_append_drop, length_seen, ← strlen_string h0] at hend
  rw [trim, hend]
  rfl

/-- **When `trim` is right**: a byte that is not white space is looked at, the size of what is moved
is an `int`, and the string is looked at as a whole, or ends in white space from the place looked at
on, or has nothing to be removed. -/
theorem trims_iff (h0 : 0 ∉ s) : Trims s ↔
    (∃ b ∈ seen s, isspace b = false) ∧ ((strip (seen s)).length : Int) < INT_MAX ∧
      (seen s = s ∨
        EndsBlank (seen s) ∧ (∀ b ∈ s.drop (seen s).length, isspace b = true) ∨
        ¬ EndsBlank (seen s) ∧ strip s = s) := by
  by_cases h : ∃ b ∈ seen s, isspace b = false
  · rcases (length_strip_seen_le s).lt_or_eq with hmax | hmax
    · simp only [h, hmax, true_and]
      by_cases hseen : seen s = s
      · rw [trims_iff_of_cut h0 h hmax (.inl hseen), hseen]
        simp
      · simp only [hseen, false_or]
        by_cases hblank : EndsBlank (seen s)
        · simp only [hblank, not_true_eq_false, false_and, or_false, true_and]
          rw [trims_iff_of_cut h0 h hmax (.inr hblank), ← strip_append_iff h,
            seen_append_drop, eq_comm]
        · simp only [hblank, not_false_eq_true, false_and, false_or, true_and]
          exact trims_iff_of_not_cut h0 h hmax hseen hblank
    · refine iff_of_false ?_ fun hright => Int.ne_of_lt hright.2.1 hmax
      rintro ⟨z, hz⟩
      rw [trim_seen h rfl h0, if_pos hmax] at hz
      cases hz
  · refine iff_of_false ?_ fun hright => h hright.1
    rintro ⟨z, hz⟩
    rw [trim_blank h0 (by simpa using h)] at hz
    cases hz

theorem trims_word : Trims [32, 97, 32] :=
  (trims_iff (by decide)).mpr ⟨⟨97, by decide, by decide⟩, by decide, .inl (by decide)⟩

/-- A string of one blank: the byte before it is read. -/
theorem not_trims_blank : ¬ Trims [32] := by
  rintro ⟨z, hz⟩
  have hblank : ∀ b ∈ seen [32], isspace b = true := by
    intro b hb
    rw [List.mem_singleton.mp (List.mem_of_mem_take hb)]
    decide
  rw [trim_blank (by decide) hblank] at hz
  cases hz

theorem trims_iff_of_lt (h0 : 0 ∉ s) (hlen : (s.length : Int) < INT_MAX) :
    Trims s ↔ ∃ b ∈ s, isspace b = false := by
  have hseen : seen s = s := by
    unfold INT_MAX at hlen
    rw [seen, toInt32_of_range (by omega) (by omega), Int.toNat_natCast, List.take_length]
  by_cases h : ∃ b ∈ s, isspace b = false
  · refine iff_of_true ?_ h
    have hmax : ((strip (seen s)).length : Int) < INT_MAX := by
      rw [hseen]
      exact Int.lt_of_le_of_lt (Int.ofNat_le.mpr (length_strip_le s)) hlen
    rw [trims_iff_of_cut h0 (by rwa [hseen]) hmax (.inl hseen), hseen]
  · refine iff_of_false ?_ h
    rintro ⟨z, hz⟩
    rw [trim_blank h0 (by rw [hseen]; simpa using h)] at hz
    cases hz

/-- The programs' `trim` of a string with nothing before it is this one. -/
theorem trims_iff_trim (h0 : 0 ∉ s) (hlen : (s.length : Int) < INT_MAX) :
    Trims s ↔ Proc.trim { before := [], str := s } = .ok (strip s) := by
  rw [trims_iff_of_lt h0 hlen]
  by_cases h : ∃ b ∈ s, isspace b = false
  · exact iff_of_true h (Proc.trim_of_mem h)
  · refine iff_of_false h fun htrim => ?_
    have hnil : (s.reverse ++ []).dropWhile isspace = [] := by
      rw [List.append_nil, List.dropWhile_eq_nil_iff]
      simpa using h
    unfold Proc.trim at htrim
    rw [hnil] at htrim
    cases htrim

end Trims

end Tlpi.Trim
