import Tlpi.Lib.Fault
import Tlpi.Lib.File

/-!
# The groups of a user

`po_initgroups` of `09-process-credentials/initgroups.c` collects the groups of a user in an array
of 1024 and hands it to `setgroups`. Like the lookup of a user it reads a database through a
cursor of the process (`getgrent`) and never resets it: a call leaves the cursor at the end, and
the calls after it read nothing. `fill` is the array after a list of gids has been stored; nothing
keeps the list from being longer than the array.
-/

namespace Tlpi.Users

open Tlpi.Lib

/-- The part of `struct group` that `po_initgroups` reads. -/
structure Group where
  grGid : UInt32
  grMem : List Bytes

/-- `getgrent()`: the entry at the cursor, NULL at the end. -/
def getgrent (db : List Group) (cursor : Nat) : Option Group × Nat :=
  match db[cursor]? with
  | some grp => (some grp, cursor + 1)
  | none => (none, cursor)

theorem getgrent_some {db : List Group} {cursor cursor' : Nat} {grp : Group}
    (h : getgrent db cursor = (some grp, cursor')) :
    cursor' = cursor + 1 ∧ db[cursor]? = some grp := by
  unfold getgrent at h
  split at h
  · next heq => cases h; exact ⟨rfl, heq⟩
  · cases h

theorem getgrent_none {db : List Group} {cursor cursor' : Nat}
    (h : getgrent db cursor = (none, cursor')) : cursor' = cursor ∧ db.length ≤ cursor := by
  unfold getgrent at h
  split at h
  · cases h
  · next heq => cases h; exact ⟨rfl, List.getElem?_eq_none_iff.mp heq⟩

/-- The length of the array `groups`. -/
def groupsMax : Nat := 1024

/-- `groups[groups_idx++] = gid`; the list is the array up to `groups_idx`. -/
def pushGroup (groups : List UInt32) (gid : UInt32) : Except Fault (List UInt32) :=
  if groups.length < groupsMax then .ok (groups ++ [gid]) else .error .outOfBounds

/-- The loop over `gr_mem`. -/
def addMembers (user : Bytes) (gid : UInt32) :
    List Bytes → List UInt32 → Except Fault (List UInt32)
  | [], groups => .ok groups
  | username :: mem, groups =>
    if username = user then do
      let groups ← pushGroup groups gid
      addMembers user gid mem groups
    else addMembers user gid mem groups

/-- The loop over `getgrent`. -/
def addGroups (db : List Group) (user : Bytes) (groups : List UInt32) (cursor : Nat) :
    Except Fault (List UInt32 × Nat) :=
  match _h : getgrent db cursor with
  | (none, cursor) => .ok (groups, cursor)
  | (some grp, cursor) => do
    let groups ← addMembers user grp.grGid grp.grMem groups
    addGroups db user groups cursor
termination_by db.length - cursor
decreasing_by
  obtain ⟨rfl, hget⟩ := getgrent_some _h
  have := (List.getElem?_eq_some_iff.mp hget).1
  omega

/-- `po_initgroups(user, group)`: the list handed to `setgroups`, and the cursor. -/
def poInitgroups (db : List Group) (user : Bytes) (group : UInt32) (cursor : Nat) :
    Except Fault (List UInt32 × Nat) := do
  let groups ← pushGroup [] group
  addGroups db user groups cursor

/-- The arguments of a call. -/
structure InitCall where
  user : Bytes
  group : UInt32

/-- What successive calls in one process hand to `setgroups`. -/
def initAll (db : List Group) : Nat → List InitCall → Except Fault (List (List UInt32))
  | _, [] => .ok []
  | cursor, c :: calls => do
    let (groups, cursor) ← poInitgroups db c.user c.group cursor
    let rest ← initAll db cursor calls
    return groups :: rest

/-! ## One call -/

/-- The gids of `l` stored one after the other. -/
def fill (groups l : List UInt32) : Except Fault (List UInt32) := l.foldlM pushGroup groups

/-- The gids a call appends for the groups of `db`: one for each time the user is listed. -/
def entries (db : List Group) (user : Bytes) : List UInt32 :=
  db.flatMap fun grp => List.replicate (grp.grMem.count user) grp.grGid

/-- What a call should append: one gid for each group that lists the user. -/
def memberships (db : List Group) (user : Bytes) : List UInt32 :=
  (db.filter fun grp => user ∈ grp.grMem).map Group.grGid

theorem fill_of_le {groups l : List UInt32} (h : groups.length + l.length ≤ groupsMax) :
    fill groups l = .ok (groups ++ l) := by
  induction l generalizing groups with
  | nil => rw [List.append_nil]; rfl
  | cons gid l ih =>
    rw [List.length_cons] at h
    have hpush : pushGroup groups gid = .ok (groups ++ [gid]) := if_pos (by omega)
    rw [fill, List.foldlM_cons, hpush]
    show fill (groups ++ [gid]) l = _
    rw [ih (by rw [List.length_append, List.length_singleton]; omega), List.append_assoc]
    rfl

theorem addMembers_eq (user : Bytes) (gid : UInt32) (mem : List Bytes) (groups : List UInt32) :
    addMembers user gid mem groups = fill groups (List.replicate (mem.count user) gid) := by
  induction mem generalizing groups with
  | nil => rfl
  | cons username mem ih =>
    rw [addMembers, List.count_cons]
    by_cases hname : username = user
    · rw [if_pos hname, if_pos (beq_iff_eq.mpr hname), List.replicate_succ, fill, List.foldlM_cons]
      exact bind_congr fun groups => ih groups
    · rw [if_neg hname, if_neg (mt beq_iff_eq.mp hname)]
      exact ih groups

/-- **One call** stores the entries of the groups from the cursor on and reads to the end. -/
theorem addGroups_eq (db : List Group) (user : Bytes) (groups : List UInt32) {cursor : Nat}
    (h : cursor ≤ db.length) :
    addGroups db user groups cursor = do
      let groups ← fill groups (entries (db.drop cursor) user)
      return (groups, db.length) := by
  fun_induction addGroups db user groups cursor with
  | case1 groups cursor cursor' heq =>
    obtain ⟨rfl, hend⟩ := getgrent_none heq
    rw [List.drop_of_length_le hend, Nat.le_antisymm h hend]
    rfl
  | case2 groups cursor grp cursor' heq ih =>
    obtain ⟨rfl, hget⟩ := getgrent_some heq
    obtain ⟨hlt, rfl⟩ := List.getElem?_eq_some_iff.mp hget
    rw [List.drop_eq_getElem_cons hlt, entries, List.flatMap_cons, fill, List.foldlM_append,
      addMembers_eq, bind_assoc]
    exact bind_congr fun groups => ih groups hlt

theorem poInitgroups_eq {db : List Group} {user : Bytes} {cursor : Nat} (group : UInt32)
    (hcursor : cursor ≤ db.length) (h : (entries (db.drop cursor) user).length < groupsMax) :
    poInitgroups db user group cursor =
      .ok (group :: entries (db.drop cursor) user, db.length) := by
  show addGroups db user [group] cursor = _
  rw [addGroups_eq db user [group] hcursor,
    fill_of_le (by rw [List.length_singleton]; omega)]
  rfl

/-! ## The array -/

theorem fill_of_lt {groups l : List UInt32} (hgroups : groups.length ≤ groupsMax)
    (h : groupsMax < groups.length + l.length) : fill groups l = .error .outOfBounds := by
  induction l generalizing groups with
  | nil =>
    rw [List.length_nil] at h
    omega
  | cons gid l ih =>
    rw [List.length_cons] at h
    rw [fill, List.foldlM_cons, pushGroup]
    split
    · next hlt =>
      show fill (groups ++ [gid]) l = _
      have hlen : (groups ++ [gid]).length = groups.length + 1 := List.length_append
      exact ih (by omega) (by omega)
    · rfl

/-- **When `po_initgroups` stays inside its array**: exactly when the groups that are still to be
read list the user at most 1023 times. -/
theorem poInitgroups_inside_iff (db : List Group) (user : Bytes) (group : UInt32) (cursor : Nat)
    (hcursor : cursor ≤ db.length) :
    (∃ r, poInitgroups db user group cursor = .ok r) ↔
      (entries (db.drop cursor) user).length ≤ 1023 := by
  by_cases h : (entries (db.drop cursor) user).length < groupsMax
  · exact iff_of_true ⟨_, poInitgroups_eq group hcursor h⟩ (Nat.le_of_lt_succ h)
  · have hfull : fill [group] (entries (db.drop cursor) user) = .error .outOfBounds := by
      have hone : [group].length = 1 := rfl
      have hmax : groupsMax = 1024 := rfl
      exact fill_of_lt (by omega) (by omega)
    refine iff_of_false ?_ fun hle => h (Nat.lt_succ_of_le hle)
    rintro ⟨r, hr⟩
    have hcall : addGroups db user [group] cursor = .ok r := hr
    rw [addGroups_eq db user [group] hcursor, hfull] at hcall
    cases hcall

/-- A user who is in one group. -/
theorem poInitgroups_inside_one : ∃ r, poInitgroups [⟨7, [[97]]⟩] [97] 1 0 = .ok r :=
  (poInitgroups_inside_iff [⟨7, [[97]]⟩] [97] 1 0 (Nat.zero_le _)).mpr (by decide)

/-- A group that lists a user 1024 times. -/
theorem poInitgroups_overruns : ¬ ∀ (db : List Group) (user : Bytes) (group : UInt32)
    (cursor : Nat), cursor ≤ db.length → ∃ r, poInitgroups db user group cursor = .ok r := by
  intro h
  obtain ⟨r, hr⟩ := h [⟨7, List.replicate 1024 [97]⟩] [97] 1 0 (Nat.zero_le _)
  have hlen : (entries [⟨7, List.replicate 1024 [97]⟩] [97]).length = 1024 := by
    simp only [entries, List.flatMap_cons, List.flatMap_nil, List.append_nil, List.length_replicate,
      List.count_replicate_self]
  have hcall : addGroups [⟨7, List.replicate 1024 [97]⟩] [97] [1] 0 = .ok r := hr
  have hfull : fill [1] (entries [⟨7, List.replicate 1024 [97]⟩] [97]) = .error .outOfBounds :=
    fill_of_lt (by decide) (by rw [hlen]; decide)
  rw [addGroups_eq _ _ _ (Nat.zero_le _), List.drop_zero, hfull] at hcall
  cases hcall

/-! ## Sequences of calls -/

/-- What a call should hand to `setgroups`. -/
def initgroups (db : List Group) (c : InitCall) : List UInt32 := c.group :: memberships db c.user

theorem memberships_cons (grp : Group) (db : List Group) (user : Bytes) :
    memberships (grp :: db) user =
      (if user ∈ grp.grMem then [grp.grGid] else []) ++ memberships db user := by
  unfold memberships
  by_cases h : user ∈ grp.grMem
  · rw [if_pos h, List.filter_cons_of_pos (by simpa using h)]
    rfl
  · rw [if_neg h, List.filter_cons_of_neg (by simpa using h)]
    rfl

theorem memberships_length_le (db : List Group) (user : Bytes) :
    (memberships db user).length ≤ (entries db user).length := by
  induction db with
  | nil => exact Nat.le_refl _
  | cons grp db ih =>
    rw [memberships_cons, entries, List.flatMap_cons, List.length_append, List.length_append,
      List.length_replicate]
    refine Nat.add_le_add ?_ ih
    split
    · next h => exact List.count_pos_iff.mpr h
    · exact Nat.zero_le _

theorem replicate_count {user : Bytes} {mem : List Bytes} (gid : UInt32)
    (h : mem.count user ≤ 1) :
    List.replicate (mem.count user) gid = if user ∈ mem then [gid] else [] := by
  split
  · next hmem =>
    have hpos := List.count_pos_iff.mpr hmem
    rw [show mem.count user = 1 by omega]
    rfl
  · next hmem =>
    rw [List.count_eq_zero.mpr hmem]
    rfl

/-- The entries are one for each group exactly when no group lists the user twice. -/
theorem entries_eq_iff (db : List Group) (user : Bytes) :
    entries db user = memberships db user ↔ ∀ grp ∈ db, grp.grMem.count user ≤ 1 := by
  induction db with
  | nil => simp [entries, memberships]
  | cons grp db ih =>
    rw [List.forall_mem_cons, ← ih, memberships_cons]
    show List.replicate (grp.grMem.count user) grp.grGid ++ entries db user = _ ↔ _
    constructor
    · intro h
      have hone : (if user ∈ grp.grMem then [grp.grGid] else []).length ≤ 1 := by
        split <;> simp
      have hcount : grp.grMem.count user ≤ 1 := by
        have hlen := congrArg List.length h
        have hle := memberships_length_le db user
        rw [List.length_append, List.length_append, List.length_replicate] at hlen
        omega
      rw [replicate_count _ hcount] at h
      exact ⟨hcount, List.append_cancel_left h⟩
    · rintro ⟨hcount, h⟩
      rw [replicate_count _ hcount, h]

theorem memberships_eq_nil_iff (db : List Group) (user : Bytes) :
    memberships db user = [] ↔ ∀ grp ∈ db, user ∉ grp.grMem := by
  simp [memberships]

theorem initAll_end (db : List Group) (calls : List InitCall) :
    initAll db db.length calls = .ok (calls.map fun c => [c.group]) := by
  induction calls with
  | nil => rfl
  | cons c calls ih =>
    have hnone : entries (db.drop db.length) c.user = [] := by
      rw [List.drop_length]
      rfl
    rw [initAll, poInitgroups_eq c.group (Nat.le_refl _) (by rw [hnone]; decide), hnone]
    show (initAll db db.length calls >>= _) = _
    rw [ih]
    rfl

theorem initAll_cons {db : List Group} {c : InitCall}
    (h : (entries db c.user).length < groupsMax) (calls : List InitCall) :
    initAll db 0 (c :: calls) =
      .ok ((c.group :: entries db c.user) :: calls.map fun c => [c.group]) := by
  have hcall : poInitgroups db c.user c.group 0 = .ok (c.group :: entries db c.user, db.length) :=
    poInitgroups_eq c.group (Nat.zero_le _) h
  rw [initAll, hcall]
  show (initAll db db.length calls >>= _) = _
  rw [initAll_end]
  rfl

theorem map_initgroups_eq_iff (db : List Group) (calls : List InitCall) :
    (calls.map fun c => [c.group]) = calls.map (initgroups db) ↔
      ∀ c ∈ calls, ∀ grp ∈ db, c.user ∉ grp.grMem := by
  rw [List.map_inj_left]
  refine forall₂_congr fun c _ => ?_
  rw [initgroups, List.cons.injEq, eq_comm (a := []), memberships_eq_nil_iff]
  exact and_iff_right rfl

/-- **When every call installs the groups of its user**: exactly when no group lists the user of
the first call twice and none lists the user of a later call. -/
theorem initAll_eq_iff (db : List Group) (calls : List InitCall)
    (hmax : ∀ c ∈ calls, (entries db c.user).length ≤ 1023) :
    initAll db 0 calls = .ok (calls.map (initgroups db)) ↔
      (∀ c ∈ calls.head?, ∀ grp ∈ db, grp.grMem.count c.user ≤ 1) ∧
        ∀ c ∈ calls.tail, ∀ grp ∈ db, c.user ∉ grp.grMem := by
  cases calls with
  | nil => simp [initAll]
  | cons c calls =>
    have hentries : (entries db c.user).length < groupsMax :=
      Nat.lt_succ_of_le (hmax c List.mem_cons_self)
    rw [initAll_cons hentries, Except.ok.injEq, List.map_cons, List.cons.injEq,
      map_initgroups_eq_iff, initgroups, List.cons.injEq, entries_eq_iff]
    simp

/-- One call for a user whom a group lists once. -/
theorem initAll_one_call :
    initAll [⟨7, [[97]]⟩] 0 [⟨[97], 1⟩] = .ok ([⟨[97], 1⟩].map (initgroups [⟨7, [[97]]⟩])) :=
  (initAll_eq_iff [⟨7, [[97]]⟩] [⟨[97], 1⟩] (by decide)).mpr (by decide)

/-- The second of two calls for one user drops its group. -/
theorem initAll_same_user_twice : ¬ ∀ (db : List Group) (calls : List InitCall),
    (∀ c ∈ calls, (entries db c.user).length ≤ 1023) →
      initAll db 0 calls = .ok (calls.map (initgroups db)) := by
  intro h
  have hall := h [⟨7, [[97]]⟩] [⟨[97], 1⟩, ⟨[97], 1⟩] (by decide)
  rw [initAll_cons (by decide)] at hall
  exact absurd (Except.ok.inj hall) (by decide)

end Tlpi.Users
