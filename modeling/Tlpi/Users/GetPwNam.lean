import Tlpi.Lib.File

/-!
# Looking up users

`po_getpwnam` of `08-users-and-groups/getpwnam.c` reads the password database with `getpwent`
until it meets the name. The position of `getpwent` belongs to the process and the function never
resets it, so a call continues where the one before it stopped. An entry is named by its position
in the database; `first` is the position of the first entry with a name, the length when there is
none.
-/

namespace Tlpi.Users

open Tlpi.Lib

/-- The part of `struct passwd` that `po_getpwnam` reads. -/
structure Passwd where
  pwName : Bytes

/-- `getpwent()`: the entry at the cursor, NULL at the end. -/
def getpwent (db : List Passwd) (cursor : Nat) : Option (Nat × Passwd) × Nat :=
  match db[cursor]? with
  | some pwd => (some (cursor, pwd), cursor + 1)
  | none => (none, cursor)

theorem getpwent_some {db : List Passwd} {cursor i cursor' : Nat} {pwd : Passwd}
    (h : getpwent db cursor = (some (i, pwd), cursor')) :
    i = cursor ∧ cursor' = cursor + 1 ∧ db[cursor]? = some pwd := by
  unfold getpwent at h
  split at h
  · next heq => cases h; exact ⟨rfl, rfl, heq⟩
  · cases h

theorem getpwent_none {db : List Passwd} {cursor cursor' : Nat}
    (h : getpwent db cursor = (none, cursor')) : cursor' = cursor ∧ db.length ≤ cursor := by
  unfold getpwent at h
  split at h
  · cases h
  · next heq => cases h; exact ⟨rfl, List.getElem?_eq_none_iff.mp heq⟩

/-- `po_getpwnam(name)`: the position of the entry, and the cursor. -/
def poGetpwnam (db : List Passwd) (name : Bytes) (cursor : Nat) : Option Nat × Nat :=
  match _h : getpwent db cursor with
  | (none, cursor) => (none, cursor)
  | (some (i, pwd), cursor) =>
    if name = pwd.pwName then (some i, cursor) else poGetpwnam db name cursor
termination_by db.length - cursor
decreasing_by
  obtain ⟨-, rfl, hget⟩ := getpwent_some _h
  have := (List.getElem?_eq_some_iff.mp hget).1
  omega

/-- The results of successive calls in one process. -/
def lookups (db : List Passwd) : Nat → List Bytes → List (Option Nat)
  | _, [] => []
  | cursor, name :: names =>
    let (pwd, cursor) := poGetpwnam db name cursor
    pwd :: lookups db cursor names

/-! ## One call -/

def first (db : List Passwd) (name : Bytes) : Nat := db.findIdx fun pwd => name = pwd.pwName

/-- What a lookup should return. -/
def getpwnam (db : List Passwd) (name : Bytes) : Option Nat :=
  db.findIdx? fun pwd => name = pwd.pwName

section Call

variable {db : List Passwd} {name : Bytes} {cursor : Nat}

theorem getpwnam_eq :
    getpwnam db name = if first db name < db.length then some (first db name) else none := by
  simp [getpwnam, List.findIdx?_eq_guard_findIdx_lt, first, Option.guard]

theorem first_le {i : Nat} {pwd : Passwd} (hget : db[i]? = some pwd) (hname : name = pwd.pwName) :
    first db name ≤ i := by
  obtain ⟨hi, rfl⟩ := List.getElem?_eq_some_iff.mp hget
  by_contra hlt
  have := List.not_of_lt_findIdx (Nat.lt_of_not_le hlt)
  simp [hname] at this

theorem name_of_first {pwd : Passwd} (hget : db[first db name]? = some pwd) :
    name = pwd.pwName := by
  simpa using List.findIdx_of_getElem?_eq_some hget

theorem poGetpwnam_of_le (h : cursor ≤ first db name) :
    poGetpwnam db name cursor = (getpwnam db name, min (first db name + 1) db.length) := by
  have hlen : first db name ≤ db.length := List.findIdx_le_length
  rw [getpwnam_eq]
  fun_induction poGetpwnam db name cursor with
  | case1 cursor cursor' heq =>
    obtain ⟨rfl, hend⟩ := getpwent_none heq
    rw [if_neg (by omega), Prod.mk.injEq]
    exact ⟨rfl, by omega⟩
  | case2 cursor i pwd cursor' heq hname =>
    obtain ⟨rfl, rfl, hget⟩ := getpwent_some heq
    have hfirst : first db name = i := Nat.le_antisymm (first_le hget hname) h
    have hlt := (List.getElem?_eq_some_iff.mp hget).1
    rw [hfirst, if_pos hlt, Nat.min_eq_left hlt]
  | case3 cursor i pwd cursor' heq hne ih =>
    obtain ⟨rfl, rfl, hget⟩ := getpwent_some heq
    refine ih (Nat.lt_of_le_of_ne h fun hfirst => hne ?_)
    rw [hfirst] at hget
    exact name_of_first hget

theorem le_of_poGetpwnam {i : Nat} (h : (poGetpwnam db name cursor).1 = some i) : cursor ≤ i := by
  fun_induction poGetpwnam db name cursor with
  | case1 cursor cursor' heq => cases h
  | case2 cursor j pwd cursor' heq hname =>
    obtain ⟨rfl, rfl, -⟩ := getpwent_some heq
    cases h
    exact Nat.le_refl _
  | case3 cursor j pwd cursor' heq hne ih =>
    obtain ⟨rfl, rfl, -⟩ := getpwent_some heq
    have := ih h
    omega

/-- **One call** is right exactly when it does not start past the entry it should return. -/
theorem poGetpwnam_eq_iff (hcursor : cursor ≤ db.length) :
    (poGetpwnam db name cursor).1 = getpwnam db name ↔
      (first db name < db.length → cursor ≤ first db name) := by
  constructor
  · intro h hlt
    rw [getpwnam_eq, if_pos hlt] at h
    exact le_of_poGetpwnam h
  · intro h
    have hle : cursor ≤ first db name := by
      by_cases hlt : first db name < db.length
      · exact h hlt
      · omega
    rw [poGetpwnam_of_le hle]

end Call

/-! ## Sequences of calls -/

/-- Calls from a cursor: the names in the database lie at or after it, each after all the names
looked up before. -/
theorem lookups_eq_iff {db : List Passwd} {cursor : Nat} (hcursor : cursor ≤ db.length)
    (names : List Bytes) :
    lookups db cursor names = names.map (getpwnam db) ↔
      (∀ n ∈ names, first db n < db.length → cursor ≤ first db n) ∧
        names.Pairwise fun m n => first db n < db.length → first db m < first db n := by
  induction names generalizing cursor with
  | nil => simp [lookups]
  | cons name names ih =>
    rw [lookups, List.map_cons, List.cons.injEq, poGetpwnam_eq_iff hcursor, List.forall_mem_cons,
      List.pairwise_cons]
    by_cases hok : first db name < db.length → cursor ≤ first db name
    · have hle : cursor ≤ first db name := by
        by_cases hlt : first db name < db.length
        · exact hok hlt
        · omega
      rw [poGetpwnam_of_le hle, ih (Nat.min_le_right _ _)]
      constructor
      · rintro ⟨-, hafter, hpair⟩
        refine ⟨⟨hok, fun n hn hlt => ?_⟩, fun n hn hlt => ?_, hpair⟩
        · have := hafter n hn hlt
          omega
        · have := hafter n hn hlt
          omega
      · rintro ⟨-, hafter, hpair⟩
        refine ⟨hok, fun n hn hlt => ?_, hpair⟩
        have := hafter n hn hlt
        omega
    · exact ⟨fun h => absurd h.1 hok, fun h => absurd h.1.1 hok⟩

/-- **When lookups are independent of each other**: all calls of a process return the first entry
with their name, or NULL when there is none, exactly when every name that the database has stands
in it after all the names looked up before. -/
theorem lookups_eq_getpwnam_iff (db : List Passwd) (names : List Bytes) :
    lookups db 0 names = names.map (getpwnam db) ↔
      names.Pairwise fun m n => first db n < db.length → first db m < first db n := by
  rw [lookups_eq_iff (Nat.zero_le _)]
  simp

/-- The second of two lookups of one user fails. -/
theorem lookups_same_name_twice : ¬ ∀ (db : List Passwd) (names : List Bytes),
    lookups db 0 names = names.map (getpwnam db) := by
  intro h
  have hpair := ((lookups_eq_iff (Nat.zero_le _) _).mp (h [⟨[97]⟩] [[97], [97]])).2
  exact absurd hpair (by decide)

end Tlpi.Users
