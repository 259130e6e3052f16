import Tlpi.Proc.Fields

/-!
# Which processes are selected

`sherlock` looks for the processes that have a file open. It compares the pathname with what
`readlink` leaves in a buffer of 1024 bytes, of which it fills at most 1023 without saying that
there was more. A longer pathname is never found, and one of exactly 1023 bytes is found in every
link whose target begins with it (`checkProcess_exact_iff`).

`proclist` looks for the processes of a user. It searches the line of user ids for the digits of
the uid, wherever they stand in a longer number, and prints the uid as an `int`, so that one from
2 ^ 31 on has a minus sign (`checkDir_selects_iff`).
-/

namespace Tlpi.Proc

open Tlpi.Lib

/-! ## Links -/

/-- The targets of the links of an `fd` directory. -/
def targets (links : List FdEntry) : List Bytes :=
  links.filterMap fun e => if e.dType = .lnk then e.target else none

theorem mem_targets {links : List FdEntry} {target : Bytes} :
    target ∈ targets links ↔ ∃ e ∈ links, e.dType = .lnk ∧ e.target = some target := by
  simp only [targets, List.mem_filterMap, Option.ite_none_right_eq_some]

/-- The buffer holds the first 1023 bytes of a target. -/
theorem linkMatches_iff {pathname : Bytes} {e : FdEntry}
    (h : ∀ target, e.dType = .lnk ∧ e.target = some target → 0 ∉ target) :
    linkMatches pathname e = true ↔
      ∃ target, (e.dType = .lnk ∧ e.target = some target) ∧ target ≠ [] ∧
        target.take 1023 = pathname := by
  unfold linkMatches
  split
  · next _ _ target hlnk htarget =>
    have hnul : (target.take 1023).takeWhile (· ≠ 0) = target.take 1023 :=
      takeWhile_ne_self fun hmem => h target ⟨hlnk, htarget⟩ (List.mem_of_mem_take hmem)
    have hpos : 0 < (target.take 1023).length ↔ target ≠ [] := by
      rw [List.length_take, ← List.length_pos_iff]
      omega
    simp only [Nat.reduceSub, hnul, gt_iff_lt, hpos, Bool.and_eq_true, decide_eq_true_eq, hlnk,
      htarget, true_and, Option.some.injEq, exists_eq_left']
  · next hother =>
    refine iff_of_false Bool.false_ne_true ?_
    rintro ⟨target, ⟨hlnk, htarget⟩, -⟩
    exact hother target hlnk htarget

theorem checkProcess_eq_zero_iff {pathname : Bytes} {links : List FdEntry} {s : State}
    (hroom : s.table.opened < s.table.limit) (h : ∀ target ∈ targets links, 0 ∉ target) :
    (checkProcess pathname (some links) s).1 = 0 ↔
      ∃ target ∈ targets links, target ≠ [] ∧ target.take 1023 = pathname := by
  have hopen : s.table.opendir (some links) =
      (some links, { s.table with opened := s.table.opened + 1 }) := if_pos hroom
  have hret : (checkProcess pathname (some links) s).1 =
      if links.any (linkMatches pathname) then 0 else 1 := by rw [checkProcess, hopen]
  have hany : links.any (linkMatches pathname) = true ↔
      ∃ target ∈ targets links, target ≠ [] ∧ target.take 1023 = pathname := by
    simp only [List.any_eq_true, mem_targets]
    constructor
    · rintro ⟨e, he, hmatch⟩
      have hnul : ∀ target, e.dType = .lnk ∧ e.target = some target → 0 ∉ target :=
        fun target ht => h target (mem_targets.mpr ⟨e, he, ht⟩)
      obtain ⟨target, ht, hrest⟩ := (linkMatches_iff hnul).mp hmatch
      exact ⟨target, ⟨e, he, ht⟩, hrest⟩
    · rintro ⟨target, ⟨e, he, ht⟩, hrest⟩
      have hnul : ∀ target, e.dType = .lnk ∧ e.target = some target → 0 ∉ target :=
        fun target ht => h target (mem_targets.mpr ⟨e, he, ht⟩)
      exact ⟨e, he, (linkMatches_iff hnul).mpr ⟨target, ht, hrest⟩⟩
  rw [hret, ← hany]
  split <;> simp [*]

theorem take_eq_iff_of_lt {t l : Bytes} {n : Nat} (h : l.length < n) : t.take n = l ↔ t = l := by
  constructor
  · rintro rfl
    rw [List.length_take] at h
    exact (List.take_of_length_le (by omega)).symm
  · rintro rfl
    exact List.take_of_length_le h.le

/-- **When `sherlock` matches exactly**: exactly when the pathname is neither empty nor longer than
1023 bytes, or is no link's target; and a pathname of 1023 bytes is the target of a link or no
link's target begins with it. -/
theorem checkProcess_exact_iff (pathname : Bytes) (links : List FdEntry) (s : State)
    (hroom : s.table.opened < s.table.limit) (h : ∀ target ∈ targets links, 0 ∉ target) :
    ((checkProcess pathname (some links) s).1 = 0 ↔ pathname ∈ targets links) ↔
      (pathname = [] ∨ 1023 < pathname.length → pathname ∉ targets links) ∧
      (pathname.length = 1023 → (∃ target ∈ targets links, pathname <+: target) →
        pathname ∈ targets links) := by
  rw [checkProcess_eq_zero_iff hroom h]
  rcases Nat.lt_trichotomy pathname.length 1023 with hshort | hfull | hlong
  · simp only [take_eq_iff_of_lt hshort, hshort.ne, Nat.not_lt_of_gt hshort, or_false,
      false_implies, and_true]
    rcases eq_or_ne pathname [] with rfl | hne
    · simp
    · simp [hne]
  · have hstarts : ∀ target : Bytes, target ≠ [] ∧ target.take 1023 = pathname ↔
        pathname <+: target := by
      intro target
      rw [List.prefix_iff_eq_take, hfull, eq_comm (b := pathname)]
      refine and_iff_right_of_imp fun htake htarget => ?_
      rw [htake, htarget] at hfull
      simp at hfull
    have hne : pathname ≠ [] := List.length_pos_iff.mp (by omega)
    simp only [hstarts, hfull, hne, Nat.lt_irrefl, or_self, false_implies, true_and, true_implies]
    exact ⟨Iff.mp, fun hlong => ⟨hlong, fun hmem => ⟨pathname, hmem, List.prefix_rfl⟩⟩⟩
  · have hnone : ¬ ∃ target ∈ targets links, target ≠ [] ∧ target.take 1023 = pathname := by
      rintro ⟨target, -, -, rfl⟩
      rw [List.length_take] at hlong
      omega
    simp only [hnone, false_iff, hlong, hlong.ne', or_true, true_implies, false_implies, and_true]

/-- A link to a short pathname is found. -/
theorem checkProcess_short_path :
    (checkProcess [47] (some [⟨.dir, none⟩, ⟨.lnk, some [47]⟩]) ⟨.empty, [], ⟨4, 1024, 0⟩⟩).1 = 0 ↔
      [47] ∈ targets [⟨.dir, none⟩, ⟨.lnk, some [47]⟩] :=
  (checkProcess_exact_iff [47] [⟨.dir, none⟩, ⟨.lnk, some [47]⟩] ⟨.empty, [], ⟨4, 1024, 0⟩⟩
    (by decide) (by decide)).mpr (by decide)

/-- A pathname of six directories with names of 200 bytes. -/
def deepPath : Bytes := (List.replicate 6 (47 :: List.replicate 200 97)).flatten

theorem deepPath_length : deepPath.length = 1206 := by
  rw [deepPath, List.length_flatten, List.map_replicate, List.sum_replicate, List.length_cons,
    List.length_replicate]
  rfl

theorem nul_notMem_deepPath : 0 ∉ deepPath := by
  rw [deepPath, List.mem_flatten]
  rintro ⟨name, hname, hnul⟩
  rw [List.eq_of_mem_replicate hname, List.mem_cons] at hnul
  rcases hnul with hnul | hnul
  · exact absurd hnul (by decide)
  · exact absurd (List.eq_of_mem_replicate hnul) (by decide)

/-- A pathname of 1206 bytes is not found in a link to it. -/
theorem checkProcess_misses_deep_path : ¬ ∀ (pathname : Bytes) (links : List FdEntry) (s : State),
    s.table.opened < s.table.limit → pathname.length ≤ 4096 → 0 ∉ pathname →
    (∀ target ∈ targets links, 0 ∉ target) →
    ((checkProcess pathname (some links) s).1 = 0 ↔ pathname ∈ targets links) := by
  intro h
  have htargets : targets [⟨.lnk, some deepPath⟩] = [deepPath] := rfl
  have hnul' : ∀ target ∈ targets [⟨.lnk, some deepPath⟩], 0 ∉ target := by
    rw [htargets]
    exact List.forall_mem_singleton.mpr nul_notMem_deepPath
  have hmatch := h deepPath [⟨.lnk, some deepPath⟩] ⟨.empty, [], ⟨4, 1024, 0⟩⟩ (by decide)
    (by rw [deepPath_length]; decide) nul_notMem_deepPath hnul'
  rw [checkProcess_eq_zero_iff (by decide) hnul', htargets] at hmatch
  obtain ⟨target, -, -, htake⟩ := hmatch.mpr (List.mem_singleton.mpr rfl)
  have hlen := congrArg List.length htake
  rw [List.length_take, deepPath_length] at hlen
  omega

/-! ## User ids -/

/-- Numbers separated by tabs. -/
def tabs (ns : List Nat) : Bytes := [9].intercalate (ns.map decimal)

section Uid

variable {uid : Nat} {ns : List Nat}

theorem infix_tabs_iff {x : Bytes} (hx : 9 ∉ x) (hne : x ≠ []) :
    x <:+: tabs ns ↔ ∃ n ∈ ns, x <:+: decimal n := by
  rw [tabs, infix_intercalate_iff hx hne]
  simp only [List.mem_map, exists_exists_and_eq_and]

theorem mem_tabs {b : UInt8} (hb : b ∈ tabs ns) (hne : b ≠ 9) : 48 ≤ b.toNat ∧ b.toNat ≤ 57 := by
  have hinfix : [b] <:+: tabs ns := (List.singleton_infix_iff b _).mpr hb
  rw [infix_tabs_iff (by simpa using Ne.symm hne) (List.cons_ne_nil b [])] at hinfix
  obtain ⟨n, -, hn⟩ := hinfix
  exact mem_decimal ((List.singleton_infix_iff b _).mp hn)

theorem uidstr_of_lt (h : uid < 2 ^ 31) : uidstr uid = decimal uid := by
  rw [uidstr, toInt32_of_range (by omega) (by omega), bytesOf_toString_nat]

theorem minus_mem_uidstr (h : 2 ^ 31 ≤ uid) (huid : uid < 2 ^ 32) : 45 ∈ uidstr uid := by
  refine bytesOf_toString_neg ?_
  unfold toInt32 Int.bmod
  dsimp only
  split <;> omega

/-- When a line of user ids makes `check_dir` print the process. -/
theorem infix_uidstr_iff (huid : uid < 2 ^ 32) :
    uidstr uid <:+: tabs ns ↔ uid < 2 ^ 31 ∧ ∃ n ∈ ns, decimal uid <:+: decimal n := by
  by_cases h : uid < 2 ^ 31
  · have htab : 9 ∉ decimal uid := fun hmem => absurd (mem_decimal hmem).1 (by decide)
    rw [uidstr_of_lt h, infix_tabs_iff htab (decimal_ne_nil uid), and_iff_right h]
  · refine iff_of_false (fun hinfix => ?_) fun hlt => h hlt.1
    have hminus := hinfix.subset (minus_mem_uidstr (Nat.le_of_not_lt h) huid)
    exact absurd (mem_tabs hminus (by decide)).1 (by decide)

theorem cut_of_value_tabs {u : StatusLine} (hu : u.value = tabs ns) : u.cut = tabs ns := by
  have hother : ∀ b : UInt8, b ≠ 9 → b.toNat < 48 ∨ 57 < b.toNat → isspace b = false →
      b ∉ u.rest := by
    intro b hne hrange hspace hb
    have hmem := mem_strip hb hspace
    rw [← StatusLine.value, hu] at hmem
    have := mem_tabs hmem hne
    omega
  rw [← hu, StatusLine.cut_eq_value_iff]
  exact ⟨hother colon (by decide) (by decide) rfl, hother 0 (by decide) (by decide) rfl⟩

theorem exists_keeps_iff {ls : List StatusLine} {u : StatusLine} (huid : uid < 2 ^ 32)
    (hu : ls.filter (fun l => l.name = bytesOf "Uid") = [u]) (hvalue : u.value = tabs ns) :
    (∃ l ∈ ls, Keeps (uidstr uid) l) ↔
      uid < 2 ^ 31 ∧ ∃ n ∈ ns, decimal uid <:+: decimal n := by
  have hmem : ∀ l, l ∈ ls ∧ l.name = bytesOf "Uid" ↔ l = u := by
    intro l
    have hsingle : l ∈ [u] ↔ l = u := List.mem_singleton
    rw [← hsingle, ← hu, List.mem_filter, decide_eq_true_eq]
  rw [← infix_uidstr_iff huid, ← cut_of_value_tabs hvalue]
  constructor
  · rintro ⟨l, hl, hname, hinfix⟩
    rwa [← (hmem l).mp ⟨hl, hname⟩]
  · intro hinfix
    obtain ⟨hl, hname⟩ := (hmem u).mpr rfl
    exact ⟨u, hl, hname, hinfix⟩

end Uid

/-- What decides whether `check_dir` prints the process exactly when `q` holds. -/
theorem checkDir_prints_iff {ls : List StatusLine} {uid : Nat} {s : State} {q : Prop}
    (hroom : s.table.opened < s.table.limit) :
    (∃ s', checkDir uid (some (statusText ls)) s = .ok s' ∧ (s'.out ≠ s.out ↔ q)) ↔
      (∀ l ∈ ls, Fits ["Pid"] l) ∧
      if ∃ l ∈ ls, Keeps (uidstr uid) l then q ∧ latest "Pid" ls ≠ none ∧ latest "Name" ls ≠ none
      else ¬ q := by
  simp only [checkDir_ok uid hroom]
  by_cases hkeep : ∃ l ∈ ls, Keeps (uidstr uid) l
  · simp only [if_pos hkeep]
    constructor
    · rintro ⟨_, ⟨hfits, p, n, hp, hn, rfl⟩, hout⟩
      refine ⟨hfits, hout.mp (by simp [bytesOf]), ?_, ?_⟩
      · rw [hp]
        exact Option.some_ne_none p
      · rw [hn]
        exact Option.some_ne_none n
    · rintro ⟨hfits, hq, hpid, hname⟩
      obtain ⟨p, hp⟩ := Option.ne_none_iff_exists'.mp hpid
      obtain ⟨n, hn⟩ := Option.ne_none_iff_exists'.mp hname
      exact ⟨_, ⟨hfits, p, n, hp, hn, rfl⟩, iff_of_true (by simp [bytesOf]) hq⟩
  · simp only [if_neg hkeep]
    constructor
    · rintro ⟨_, ⟨hfits, rfl⟩, hout⟩
      exact ⟨hfits, fun hq => hout.mpr hq rfl⟩
    · rintro ⟨hfits, hq⟩
      exact ⟨_, ⟨hfits, rfl⟩, iff_of_false (fun hne => hne rfl) hq⟩

/-- **When `proclist` selects by user id**: exactly when the uid is below 2 ^ 31 if it is on the
line, and its digits occur in no number of the line if it is not; and the variables that are printed
have been filled. -/
theorem checkDir_selects_iff (ls : List StatusLine) (u : StatusLine) (ns : List Nat) (uid : Nat)
    (s : State) (hroom : s.table.opened < s.table.limit) (huid : uid < 2 ^ 32)
    (hu : ls.filter (fun l => l.name = bytesOf "Uid") = [u]) (hvalue : u.value = tabs ns) :
    (∃ s', checkDir uid (some (statusText ls)) s = .ok s' ∧ (s'.out ≠ s.out ↔ uid ∈ ns)) ↔
      (uid ∈ ns → uid < 2 ^ 31 ∧ latest "Pid" ls ≠ none ∧ latest "Name" ls ≠ none) ∧
      (uid < 2 ^ 31 → uid ∉ ns → ∀ n ∈ ns, ¬ decimal uid <:+: decimal n) ∧
      ∀ l ∈ ls, Fits ["Pid"] l := by
  have hkeep := exists_keeps_iff huid hu hvalue
  rw [checkDir_prints_iff hroom]
  simp only [hkeep]
  by_cases hfound : uid < 2 ^ 31 ∧ ∃ n ∈ ns, decimal uid <:+: decimal n
  · rw [if_pos hfound]
    obtain ⟨hlt, n, hn, hinfix⟩ := hfound
    constructor
    · rintro ⟨hfits, hmem, hlines⟩
      exact ⟨fun _ => ⟨hlt, hlines⟩, fun _ hnot => absurd hmem hnot, hfits⟩
    · rintro ⟨hlines, hnone, hfits⟩
      have hmem : uid ∈ ns := by
        by_contra hnot
        exact hnone hlt hnot n hn hinfix
      exact ⟨hfits, hmem, (hlines hmem).2⟩
  · rw [if_neg hfound]
    constructor
    · rintro ⟨hfits, hnot⟩
      exact ⟨fun hmem => absurd hmem hnot,
        fun hlt _ n hn hinfix => hfound ⟨hlt, n, hn, hinfix⟩, hfits⟩
    · rintro ⟨hlines, -, hfits⟩
      exact ⟨hfits, fun hmem => hfound ⟨(hlines hmem).1, uid, hmem, List.infix_rfl⟩⟩

/-- The line of a process of user 1000. -/
def uidLine : StatusLine := .tabbed (bytesOf "Uid") (tabs [1000, 1000, 1000, 1000])
  (by decide +kernel) (by decide) (by decide) (by decide)

theorem checkDir_user_1000 :
    ∃ s', checkDir 1000 (some (statusText [shLine, pidLine, uidLine])) ⟨.empty, [], ⟨4, 1024, 0⟩⟩ =
      .ok s' ∧ (s'.out ≠ [] ↔ 1000 ∈ [1000, 1000, 1000, 1000]) :=
  (checkDir_selects_iff [shLine, pidLine, uidLine] uidLine [1000, 1000, 1000, 1000] 1000
    ⟨.empty, [], ⟨4, 1024, 0⟩⟩ (by decide) (by decide) rfl (by decide)).mpr (by decide)

/-- A process of user 1000 is taken for one of user 10. -/
theorem checkDir_takes_1000_for_10 : ¬ ∀ (ls : List StatusLine) (u : StatusLine) (ns : List Nat)
    (uid : Nat) (s : State), s.table.opened < s.table.limit → uid < 2 ^ 32 →
    ls.filter (fun l => l.name = bytesOf "Uid") = [u] → u.value = tabs ns → ns.length = 4 →
    ∃ s', checkDir uid (some (statusText ls)) s = .ok s' ∧ (s'.out ≠ s.out ↔ uid ∈ ns) := by
  intro h
  have hprints := h [shLine, pidLine, uidLine] uidLine [1000, 1000, 1000, 1000] 10
    ⟨.empty, [], ⟨4, 1024, 0⟩⟩ (by decide) (by decide) rfl (by decide) rfl
  have hkeep : ∃ l ∈ [shLine, pidLine, uidLine], Keeps (uidstr 10) l := by decide
  rw [checkDir_prints_iff (by decide), if_pos hkeep] at hprints
  exact absurd hprints.2.1 (by decide)

end Tlpi.Proc
