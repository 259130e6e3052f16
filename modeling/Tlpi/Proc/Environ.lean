import Tlpi.Lib.CString
import Tlpi.Lib.Fault
import Tlpi.Lib.File

/-!
# The environment

`setenv` and `unsetenv` of `06-processes/myenviron.c`, with the names `nvname` and `enval` read as
the parameters that they are meant for. `environ` is an array of strings with a NULL after the last;
a pointer into it is the part of the array from it on.

Both functions look for an entry with a loop whose test for the `=` is `*ppEnvEntry[strlen(name)]`.
That is the first character of the string so many entries further on, so the loop stops at a *hit*,
an entry that starts with the name while that other string starts with `=`, and it runs off the
array or follows the NULL when there is no such string (`search_eq_ok`).

After the loop both only assign to their own pointer variables: `ppEnvEntry = pNewEnvEntry` and not
`*ppEnvEntry`. `(++ppEnvEntry) = NULL`, which is no C, is taken as an assignment to the variable
like the others. The array is never written. When its loop has come to the NULL, `unsetenv` reads
the element after it.
-/

namespace Tlpi.Environ

open Tlpi.Lib

/-- `environ`, as an array. -/
def cells (environ : List Bytes) : List (Option Bytes) := environ.map some ++ [none]

def EINVAL : Nat := 22

/-- `'='` -/
def equals : UInt8 := 61

structure Result where
  ret : Int
  /-- What is assigned to `errno`. -/
  errno : Option Nat
  environ : List (Option Bytes)

/-- `*s` -/
def firstChar : Option Bytes → Except Fault UInt8
  | none => .error .nullPointer
  | some s => .ok (s.headD 0)

/-- The search loop of both functions: the pointer where it stops. -/
def search (name : Bytes) : List (Option Bytes) → Except Fault (List (Option Bytes))
  | [] => .error .outOfBounds
  | none :: cells => .ok (none :: cells)
  | some entry :: cells =>
    if strncmpEq name.length entry name then do
      -- `*ppEnvEntry[strlen(name)]`
      let other ← fetch (some entry :: cells) name.length
      let c ← firstChar other
      if c = equals then return some entry :: cells else search name cells
    else search name cells

/-- `setenv(envname, envval, overwrite)`, where `malloc` says which sizes are granted. -/
def setenv (malloc : Nat → Bool) (envname : Option Bytes) (envval : Bytes) (overwrite : Int)
    (environ : List (Option Bytes)) : Except Fault Result :=
  match envname with
  | none => .ok { ret := -1, errno := some EINVAL, environ }
  | some [] => .ok { ret := -1, errno := some EINVAL, environ }
  | some envname =>
    if equals ∈ envname then .ok { ret := -1, errno := some EINVAL, environ }
    else do
      let ppEnvEntry ← search envname environ
      if ppEnvEntry.head? ≠ some none ∧ overwrite = 0 then
        return { ret := 0, errno := none, environ }
      else if malloc (envname.length + envval.length + 2) then
        -- the new string is made, and `ppEnvEntry` alone is assigned to
        return { ret := 0, errno := none, environ }
      else throw .nullPointer

/-- The loop `while (*(++ppEntryToMove + 1) != NULL)` -/
def lastEntry : List (Option Bytes) → Except Fault (List (Option Bytes))
  | [] => .error .outOfBounds
  | _ :: ppEntryToMove => do
    match ← fetch ppEntryToMove 1 with
    | none => return ppEntryToMove
    | some _ => lastEntry ppEntryToMove

/-- `unsetenv` after its search loop. `ppTargetLocation` is not NULL itself. -/
def removal (ppTargetLocation : List (Option Bytes)) : Except Fault Unit := do
  match ← fetch ppTargetLocation 1 with
  | none => return ()
  | some _ => do
    let _ ← lastEntry ppTargetLocation
    return ()

/-- `unsetenv(name)` -/
def unsetenv (name : Option Bytes) (environ : List (Option Bytes)) : Except Fault Result :=
  match name with
  | none => .ok { ret := -1, errno := some EINVAL, environ }
  | some [] => .ok { ret := -1, errno := some EINVAL, environ }
  | some name =>
    if equals ∈ name then .ok { ret := -1, errno := some EINVAL, environ }
    else do
      let ppTargetLocation ← search name environ
      removal ppTargetLocation
      return { ret := 0, errno := none, environ }

/-! ## The search -/

/-- An entry at which the loop stops: it starts with the name, and the string as many entries
further on as the name has characters starts with `=`. -/
def Hit (name : Bytes) (entries : List Bytes) : Prop :=
  (∃ entry, entries.head? = some entry ∧ name <+: entry) ∧
    ∃ other, entries[name.length]? = some other ∧ other.head? = some equals

/-- The loop stops at entry `i`, the NULL if there are only `i` entries. -/
structure Stops (name : Bytes) (environ : List Bytes) (i : Nat) : Prop where
  le : i ≤ environ.length
  hit : i < environ.length → Hit name (environ.drop i)
  not_hit : ∀ j < i, ¬ Hit name (environ.drop j)
  /-- The test for the `=` finds a string. -/
  inside : ∀ j < i, ∀ entry, environ[j]? = some entry → name <+: entry →
    j + name.length < environ.length

section Search

variable {name entry : Bytes} {entries environ : List Bytes} {i : Nat}

theorem cells_cons (entry : Bytes) (entries : List Bytes) :
    cells (entry :: entries) = some entry :: cells entries := rfl

theorem fetch_cells_lt {n : Nat} {other : Bytes} (h : entries[n]? = some other) :
    fetch (cells entries) n = .ok (some other) := by
  unfold fetch cells
  obtain ⟨hn, rfl⟩ := List.getElem?_eq_some_iff.mp h
  rw [List.getElem?_append_left (by simpa using hn), List.getElem?_map, h]
  rfl

theorem hit_cons : Hit name (entry :: entries) ↔
    name <+: entry ∧
      ∃ other, (entry :: entries)[name.length]? = some other ∧ other.head? = some equals := by
  unfold Hit
  simp

theorem lt_of_hit (h : Hit name (environ.drop i)) : i + name.length < environ.length := by
  obtain ⟨-, other, hother, -⟩ := h
  rw [List.getElem?_drop] at hother
  exact (List.getElem?_eq_some_iff.mp hother).1

theorem search_nil : search name (cells []) = .ok (cells []) := rfl

theorem search_other (h : ¬ name <+: entry) :
    search name (cells (entry :: entries)) = search name (cells entries) := by
  rw [cells_cons, search, if_neg (mt strncmpEq_iff.mp h)]

theorem search_named {other : Bytes} (h : name <+: entry)
    (hother : (entry :: entries)[name.length]? = some other) :
    search name (cells (entry :: entries)) =
      if other.head? = some equals then .ok (cells (entry :: entries))
      else search name (cells entries) := by
  have htest : other.headD 0 = equals ↔ other.head? = some equals := by
    cases other with
    | nil => decide
    | cons a other => simp
  rw [cells_cons, search, if_pos (strncmpEq_iff.mpr h), ← cells_cons, fetch_cells_lt hother]
  show (if other.headD 0 = equals then .ok (cells (entry :: entries))
    else search name (cells entries)) = _
  simp only [htest]

/-- The array ends before the string that is tested. -/
theorem search_named_overrun (h : name <+: entry) (hlen : (entry :: entries).length ≤ name.length)
    (p : List (Option Bytes)) : search name (cells (entry :: entries)) ≠ .ok p := by
  intro hok
  rw [cells_cons, search, if_pos (strncmpEq_iff.mpr h), ← cells_cons, bind_eq_ok] at hok
  obtain ⟨other, hfetch, hok⟩ := hok
  have hother : other = none := by
    unfold fetch cells at hfetch
    rw [List.getElem?_append_right (by simpa using hlen)] at hfetch
    cases hn : ([none] : List (Option Bytes))[name.length -
      ((entry :: entries).map some).length]? with
    | none => rw [hn] at hfetch; cases hfetch
    | some o =>
      rw [hn] at hfetch
      cases hfetch
      simpa using List.mem_of_getElem? hn
  rw [hother] at hok
  cases hok

theorem stops_nil : Stops name [] i ↔ i = 0 := by
  refine ⟨fun h => Nat.le_zero.mp h.le, ?_⟩
  rintro rfl
  exact ⟨Nat.le_refl _, fun h => absurd h (Nat.lt_irrefl 0),
    fun j hj => absurd hj (Nat.not_lt_zero j), fun j hj => absurd hj (Nat.not_lt_zero j)⟩

theorem stops_cons_zero : Stops name (entry :: entries) 0 ↔ Hit name (entry :: entries) := by
  refine ⟨fun h => h.hit (Nat.succ_pos _), fun h => ?_⟩
  exact ⟨Nat.zero_le _, fun _ => h, fun j hj => absurd hj (Nat.not_lt_zero j),
    fun j hj => absurd hj (Nat.not_lt_zero j)⟩

theorem stops_cons_succ : Stops name (entry :: entries) (i + 1) ↔
    ¬ Hit name (entry :: entries) ∧ (name <+: entry → name.length < (entry :: entries).length) ∧
      Stops name entries i := by
  constructor
  · intro h
    refine ⟨h.not_hit 0 (Nat.succ_pos i), fun hn => ?_, ?_⟩
    · have := h.inside 0 (Nat.succ_pos i) entry rfl hn
      omega
    · refine ⟨Nat.le_of_succ_le_succ h.le, fun hi => h.hit (Nat.succ_lt_succ hi),
        fun j hj => h.not_hit (j + 1) (Nat.succ_lt_succ hj), fun j hj e he hn => ?_⟩
      have := h.inside (j + 1) (Nat.succ_lt_succ hj) e he hn
      rw [List.length_cons] at this
      omega
  · rintro ⟨hne, hlen, h⟩
    refine ⟨Nat.succ_le_succ h.le, fun hi => h.hit (Nat.lt_of_succ_lt_succ hi), ?_, ?_⟩
    · rintro (_ | j) hj
      · exact hne
      · exact h.not_hit j (Nat.lt_of_succ_lt_succ hj)
    · rintro (_ | j) hj e he hn
      · cases he
        have := hlen hn
        omega
      · have := h.inside j (Nat.lt_of_succ_lt_succ hj) e he hn
        rw [List.length_cons]
        omega

section First

variable {p : List (Option Bytes)}

theorem exists_stops_hit (h : Hit name (entry :: entries)) :
    (∃ i, Stops name (entry :: entries) i ∧ p = cells ((entry :: entries).drop i)) ↔
      p = cells (entry :: entries) := by
  refine ⟨?_, fun hp => ⟨0, stops_cons_zero.mpr h, hp⟩⟩
  rintro ⟨_ | i, hi, hp⟩
  · exact hp
  · exact absurd h (stops_cons_succ.mp hi).1

theorem exists_stops_skip (h : ¬ Hit name (entry :: entries))
    (hlen : name <+: entry → name.length < (entry :: entries).length) :
    (∃ i, Stops name (entry :: entries) i ∧ p = cells ((entry :: entries).drop i)) ↔
      ∃ i, Stops name entries i ∧ p = cells (entries.drop i) := by
  refine ⟨?_, fun ⟨i, hi, hp⟩ => ⟨i + 1, stops_cons_succ.mpr ⟨h, hlen, hi⟩, hp⟩⟩
  rintro ⟨_ | i, hi, hp⟩
  · exact absurd (stops_cons_zero.mp hi) h
  · exact ⟨i, (stops_cons_succ.mp hi).2.2, hp⟩

theorem not_stops_overrun (hn : name <+: entry) (hlen : (entry :: entries).length ≤ name.length) :
    ¬ Stops name (entry :: entries) i := by
  intro h
  cases i with
  | zero =>
    have hlt := lt_of_hit (i := 0) (stops_cons_zero.mp h)
    omega
  | succ i => exact absurd ((stops_cons_succ.mp h).2.1 hn) (Nat.not_lt.mpr hlen)

end First

/-- What the loop does, at every array: one case for each outcome of the tests at its entry. -/
theorem search_eq_ok {p : List (Option Bytes)} :
    search name (cells environ) = .ok p ↔
      ∃ i, Stops name environ i ∧ p = cells (environ.drop i) := by
  induction environ generalizing p with
  | nil =>
    rw [search_nil]
    simp only [stops_nil, exists_eq_left, List.drop_zero, Except.ok.injEq, eq_comm]
  | cons entry entries ih =>
    by_cases hn : name <+: entry
    · cases hother : (entry :: entries)[name.length]? with
      | none =>
        have hlen := List.getElem?_eq_none_iff.mp hother
        exact iff_of_false (search_named_overrun hn hlen p) fun ⟨_, hi, _⟩ =>
          not_stops_overrun hn hlen hi
      | some other =>
        rw [search_named hn hother]
        split
        · next heq =>
          rw [exists_stops_hit (hit_cons.mpr ⟨hn, other, hother, heq⟩), Except.ok.injEq, eq_comm]
        · next heq =>
          have hne : ¬ Hit name (entry :: entries) := by
            rw [hit_cons]
            rintro ⟨-, o, ho, hoeq⟩
            rw [hother] at ho
            cases ho
            exact heq hoeq
          rw [exists_stops_skip hne fun _ => (List.getElem?_eq_some_iff.mp hother).1]
          exact ih
    · have hne : ¬ Hit name (entry :: entries) := fun hhit => hn (hit_cons.mp hhit).1
      rw [search_other hn, exists_stops_skip hne fun h => absurd h hn]
      exact ih

/-- There is a hit, or every entry that starts with the name has as many entries after it as the
name has characters. -/
def SearchEnds (name : Bytes) (environ : List Bytes) : Prop :=
  (∃ i, Hit name (environ.drop i)) ∨
    ∀ i entry, environ[i]? = some entry → name <+: entry → i + name.length < environ.length

theorem exists_stops_lt_iff :
    (∃ i < environ.length, Stops name environ i) ↔ ∃ i, Hit name (environ.drop i) := by
  classical
  constructor
  · rintro ⟨i, hi, hstops⟩
    exact ⟨i, hstops.hit hi⟩
  · intro h
    -- the first of the hits
    have hhit := Nat.find_spec h
    have hlt := lt_of_hit hhit
    refine ⟨Nat.find h, by omega, by omega, fun _ => hhit, fun j hj => Nat.find_min h hj,
      fun j hj _ _ _ => by omega⟩

theorem exists_stops_iff : (∃ i, Stops name environ i) ↔ SearchEnds name environ := by
  constructor
  · rintro ⟨i, hi⟩
    rcases hi.le.lt_or_eq with hlt | rfl
    · exact .inl ⟨i, hi.hit hlt⟩
    · refine .inr fun j entry hj hn => hi.inside j ?_ entry hj hn
      exact (List.getElem?_eq_some_iff.mp hj).1
  · intro h
    by_cases hhit : ∃ i, Hit name (environ.drop i)
    · obtain ⟨i, -, hi⟩ := exists_stops_lt_iff.mpr hhit
      exact ⟨i, hi⟩
    · rcases h with h | h
      · exact absurd h hhit
      · exact ⟨environ.length, Nat.le_refl _, fun h => absurd h (Nat.lt_irrefl _),
          fun j _ hj => hhit ⟨j, hj⟩, fun j _ => h j⟩

end Search

/-! ## `setenv` and `unsetenv` -/

section Calls

variable {name : Bytes} {environ : List Bytes} {r : Result}

theorem lastEntry_eq_ok (entry next : Bytes) (entries : List Bytes) :
    ∃ p, lastEntry (cells (entry :: next :: entries)) = .ok p := by
  induction entries generalizing entry next with
  | nil => exact ⟨_, rfl⟩
  | cons e entries ih =>
    obtain ⟨p, hp⟩ := ih next e
    exact ⟨p, hp⟩

/-- The removal reads the element after the one where the loop stopped. -/
theorem removal_eq_ok {entries : List Bytes} : removal (cells entries) = .ok () ↔ entries ≠ [] := by
  cases entries with
  | nil => exact iff_of_false nofun fun h => h rfl
  | cons entry entries =>
    refine iff_of_true ?_ (List.cons_ne_nil _ _)
    cases entries with
    | nil => rfl
    | cons next entries =>
      obtain ⟨p, hp⟩ := lastEntry_eq_ok entry next entries
      show (lastEntry (cells (entry :: next :: entries)) >>= fun _ => .ok ()) = .ok ()
      rw [hp]
      rfl

/-- `unsetenv` comes to an end when there is a hit, and has written nothing. -/
theorem unsetenv_eq_ok (hname : name ≠ []) (heq : equals ∉ name) :
    unsetenv (some name) (cells environ) = .ok r ↔
      (∃ i, Hit name (environ.drop i)) ∧
        r = { ret := 0, errno := none, environ := cells environ } := by
  rw [unsetenv, if_neg heq, bind_eq_ok, ← exists_stops_lt_iff]
  on_goal 2 => exact hname
  simp only [search_eq_ok, bind_eq_ok]
  constructor
  · rintro ⟨_, ⟨i, hi, rfl⟩, _, hremoval, hr⟩
    refine ⟨⟨i, ?_, hi⟩, (Except.ok.inj hr).symm⟩
    rw [removal_eq_ok, ne_eq, List.drop_eq_nil_iff] at hremoval
    omega
  · rintro ⟨⟨i, hlt, hi⟩, rfl⟩
    refine ⟨_, ⟨i, hi, rfl⟩, (), removal_eq_ok.mpr ?_, rfl⟩
    rw [ne_eq, List.drop_eq_nil_iff]
    omega

/-- `setenv` comes to an end when its loop does, and has written nothing. -/
theorem setenv_eq_ok (hname : name ≠ []) (heq : equals ∉ name) {malloc : Nat → Bool}
    (hmalloc : ∀ n, malloc n = true) (envval : Bytes) (overwrite : Int) :
    setenv malloc (some name) envval overwrite (cells environ) = .ok r ↔
      SearchEnds name environ ∧ r = { ret := 0, errno := none, environ := cells environ } := by
  rw [setenv, if_neg heq, bind_eq_ok, ← exists_stops_iff]
  on_goal 2 => exact hname
  simp only [search_eq_ok, hmalloc, if_true, ite_self]
  constructor
  · rintro ⟨_, ⟨i, hi, rfl⟩, hr⟩
    exact ⟨⟨i, hi⟩, (Except.ok.inj hr).symm⟩
  · rintro ⟨⟨i, hi⟩, rfl⟩
    exact ⟨_, ⟨i, hi, rfl⟩, rfl⟩

end Calls

/-! ## What they are for -/

/-- An entry for the name, `name=value`. -/
def defines (name entry : Bytes) : Bool := (name ++ [equals]).isPrefixOf entry

/-- The loops stop at the first entry for the name, the NULL if there is none, and neither they nor
the code after that of `unsetenv` read past the NULL. -/
def Searches (name : Bytes) (environ : List Bytes) : Prop :=
  search name (cells environ) = .ok (cells (environ.drop (environ.findIdx (defines name)))) ∧
    ∃ r, unsetenv (some name) (cells environ) = .ok r

/-- `unsetenv` removes the entries for the name and nothing else. -/
def Unsets (name : Bytes) (environ : List Bytes) : Prop :=
  ∃ r after, unsetenv (some name) (cells environ) = .ok r ∧ r.ret = 0 ∧ r.environ = cells after ∧
    (∀ entry ∈ after, defines name entry = false) ∧
    ∀ entry, defines name entry = false → after.count entry = environ.count entry

/-- `setenv` sets the variable of that name and no other. -/
def Sets (malloc : Nat → Bool) (envname envval : Bytes) (overwrite : Int)
    (environ : List Bytes) : Prop :=
  ∃ r, setenv malloc (some envname) envval overwrite (cells environ) = .ok r ∧ r.ret = 0 ∧
    if (∃ entry ∈ environ, defines envname entry = true) ∧ overwrite = 0 then
      r.environ = cells environ
    else ∃ after, r.environ = cells after ∧
      after.find? (defines envname) = some (envname ++ equals :: envval) ∧
      (environ.filter fun entry => !defines envname entry).Sublist after

section Purpose

variable {name : Bytes} {environ : List Bytes}

theorem cells_injective : Function.Injective cells := by
  intro xs ys h
  unfold cells at h
  rw [List.append_cancel_right_eq] at h
  exact List.map_injective_iff.mpr (Option.some_injective _) h

/-- The search is right when the first entry for the name is the first hit. -/
theorem searches_iff (hname : name ≠ []) (heq : equals ∉ name) :
    Searches name environ ↔
      Hit name (environ.drop (environ.findIdx (defines name))) ∧
        ∀ j < environ.findIdx (defines name), ¬ Hit name (environ.drop j) := by
  unfold Searches
  simp only [search_eq_ok, unsetenv_eq_ok hname heq]
  constructor
  · rintro ⟨⟨i, hi, hcells⟩, _, ⟨j, hj⟩, -⟩
    have hle : environ.findIdx (defines name) ≤ environ.length := List.findIdx_le_length
    have hlen := congrArg List.length (cells_injective hcells)
    rw [List.length_drop, List.length_drop] at hlen
    have heqi : environ.findIdx (defines name) = i := by have := hi.le; omega
    rw [heqi]
    refine ⟨hi.hit (hi.le.lt_of_ne fun hend => ?_), hi.not_hit⟩
    -- at the NULL there would be no hit before it
    have := lt_of_hit hj
    exact hi.not_hit j (by omega) hj
  · rintro ⟨hhit, hnot⟩
    have hlt := lt_of_hit hhit
    refine ⟨⟨_, ⟨by omega, fun _ => hhit, hnot, fun j hj _ _ _ => by omega⟩, rfl⟩, _,
      ⟨_, hhit⟩, rfl⟩

theorem searches_two : Searches (bytesOf "A") [bytesOf "A=1", bytesOf "=B"] :=
  (searches_iff (by decide) (by decide)).mpr
    ⟨⟨⟨_, rfl, by decide⟩, _, rfl, rfl⟩, fun _ hj => absurd hj (Nat.not_lt_zero _)⟩

/-- The only entry is the right one, and the test for the `=` follows the NULL after it. -/
theorem not_searches_last : ¬ Searches (bytesOf "A") [bytesOf "A=1"] := by
  rintro ⟨h, -⟩
  cases h

/-- Nothing is ever removed. -/
theorem unsets_iff (hname : name ≠ []) (heq : equals ∉ name) :
    Unsets name environ ↔
      (∀ entry ∈ environ, defines name entry = false) ∧ ∃ i, Hit name (environ.drop i) := by
  unfold Unsets
  simp only [unsetenv_eq_ok hname heq]
  constructor
  · rintro ⟨_, after, ⟨hhit, rfl⟩, -, hafter, hnone, -⟩
    cases cells_injective hafter
    exact ⟨hnone, hhit⟩
  · rintro ⟨hnone, hhit⟩
    exact ⟨_, environ, ⟨hhit, rfl⟩, rfl, rfl, hnone, fun _ _ => rfl⟩

theorem unsets_none : Unsets (bytesOf "A") [bytesOf "AB=1", bytesOf "=C"] :=
  (unsets_iff (by decide) (by decide)).mpr ⟨by decide, 0, ⟨_, rfl, by decide⟩, _, rfl, rfl⟩

theorem not_unsets_first : ¬ Unsets (bytesOf "A") [bytesOf "A=1", bytesOf "B=2"] := by
  rintro ⟨_, _, h, -⟩
  cases h

/-- No variable is ever set to a new value. -/
theorem sets_iff {malloc : Nat → Bool} (hmalloc : ∀ n, malloc n = true) (hname : name ≠ [])
    (heq : equals ∉ name) (envval : Bytes) (overwrite : Int) :
    Sets malloc name envval overwrite environ ↔
      SearchEnds name environ ∧
        ((∃ entry ∈ environ, defines name entry = true) ∧ overwrite = 0 ∨
          environ.find? (defines name) = some (name ++ equals :: envval)) := by
  unfold Sets
  simp only [setenv_eq_ok hname heq hmalloc]
  constructor
  · rintro ⟨_, ⟨hends, rfl⟩, -, h⟩
    refine ⟨hends, ?_⟩
    split at h
    · next hkeep => exact .inl hkeep
    · obtain ⟨after, hafter, hfind, -⟩ := h
      cases cells_injective hafter
      exact .inr hfind
  · rintro ⟨hends, h⟩
    refine ⟨_, ⟨hends, rfl⟩, rfl, ?_⟩
    split
    · rfl
    · next hkeep =>
      exact ⟨environ, rfl, h.resolve_left hkeep, List.filter_sublist⟩

theorem sets_same : Sets (fun _ => true) (bytesOf "A") (bytesOf "1") 1
    [bytesOf "A=1", bytesOf "=B"] :=
  (sets_iff (fun _ => rfl) (by decide) (by decide) _ _).mpr
    ⟨.inl ⟨0, ⟨_, rfl, by decide⟩, _, rfl, rfl⟩, .inr (by decide)⟩

theorem not_sets_first :
    ¬ Sets (fun _ => true) (bytesOf "A") (bytesOf "3") 1 [bytesOf "A=1", bytesOf "B=2"] := by
  rintro ⟨_, h, -, hset⟩
  cases h
  rw [if_neg (by decide)] at hset
  obtain ⟨after, hafter, hfind, -⟩ := hset
  cases cells_injective hafter
  revert hfind
  decide

end Purpose

end Tlpi.Environ
