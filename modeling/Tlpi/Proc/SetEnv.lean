import Tlpi.Proc.Environ

/-!
# The environment as a map

`setenv` and `unsetenv` of `tlpi-dist/proc/setenv.c`, the functions that `Tlpi.Proc.Environ` has in
another version, with `getenv` and `putenv` of the C library. Here the array is written: an entry is
removed by shifting those after it, so that the array ends in one more NULL.

`run_refines`: to a program that only calls these functions, `environ` is a map from names to
values, however often a name is in the array at the start. A `setenv` that runs out of memory has
already removed the variable.
-/

namespace Tlpi.SetEnv

open Tlpi.Lib
open Environ (Result EINVAL equals defines)

/-- An array of strings, from some element on. -/
abbrev Cells := List (Option Bytes)

def ENOMEM : Nat := 12

/-- `strncmp(entry, name, len) == 0 && entry[len] == '='` -/
def isEntry (name entry : Bytes) : Bool :=
  strncmpEq name.length entry name && entry.getD name.length 0 = equals

/-- `for (sp = ep; *sp != NULL; sp++) *sp = *(sp + 1);` -/
def shift : Cells → Except Fault Cells
  | [] => .error .outOfBounds
  | none :: rest => .ok (none :: rest)
  | some _ :: rest => do
    let next ← fetch rest 0
    return next :: (← shift rest)

/-- Before its first NULL. -/
def strings (cells : Cells) : Nat := (cells.takeWhile Option.isSome).length

theorem strings_shift {cells shifted : Cells} (h : shift cells = .ok shifted) :
    strings shifted = strings cells - 1 := by
  induction cells generalizing shifted with
  | nil => cases h
  | cons cell rest ih =>
    cases cell with
    | none =>
      cases h
      rfl
    | some entry =>
      obtain ⟨next, hnext, h⟩ := bind_eq_ok.mp h
      obtain ⟨rest', hrest, h⟩ := bind_eq_ok.mp h
      cases h
      have hs : strings (some entry :: rest) = strings rest + 1 := rfl
      rw [hs, Nat.add_sub_cancel]
      cases rest with
      | nil => cases hrest
      | cons cell rest =>
        cases hnext
        cases next with
        | none => rfl
        | some e =>
          have h1 : strings (some e :: rest) = strings rest + 1 := rfl
          have h2 : strings (some e :: rest') = strings rest' + 1 := rfl
          rw [h2, ih hrest, h1, Nat.add_sub_cancel]

/-- The loop of `unsetenv`. -/
def unsetLoop (name : Bytes) : Cells → Except Fault Cells
  | [] => .error .outOfBounds
  | none :: rest => .ok (none :: rest)
  | some entry :: rest =>
    if isEntry name entry then
      match _h : shift (some entry :: rest) with
      | .error e => .error e
      | .ok shifted => unsetLoop name shifted
    else do
      return some entry :: (← unsetLoop name rest)
termination_by cells => strings cells
decreasing_by
  · rw [strings_shift _h]
    exact Nat.lt_succ_self _
  · exact Nat.lt_succ_self _

def unsetenv (name : Option Bytes) (environ : Cells) : Except Fault Result :=
  match name with
  | none => .ok { ret := -1, errno := some EINVAL, environ }
  | some name =>
    if name = [] ∨ equals ∈ name then .ok { ret := -1, errno := some EINVAL, environ }
    else do
      return { ret := 0, errno := none, environ := ← unsetLoop name environ }

/-- `getenv(name)` -/
def getenv (name : Bytes) : Cells → Except Fault (Option Bytes)
  | [] => .error .outOfBounds
  | none :: _ => .ok none
  | some entry :: rest =>
    if isEntry name entry then .ok (some (entry.drop (name.length + 1))) else getenv name rest

/-- `putenv(es)`: in place of the first entry for the same name, or in an array with one more. -/
def putenv (es : Bytes) : Cells → Except Fault Cells
  | [] => .error .outOfBounds
  | none :: _ => .ok [some es, none]
  | some entry :: rest =>
    if isEntry (es.takeWhile (· ≠ equals)) entry then .ok (some es :: rest)
    else do
      return some entry :: (← putenv es rest)

/-- Which sizes `malloc` grants, and whether `putenv` finds room for its array. -/
structure Memory where
  malloc : Nat → Bool
  putenv : Bool

def setenv (mem : Memory) (name value : Option Bytes) (overwrite : Int) (environ : Cells) :
    Except Fault Result :=
  match name, value with
  | some name, some value =>
    if name = [] ∨ equals ∈ name then .ok { ret := -1, errno := some EINVAL, environ }
    else do
      let old ← getenv name environ
      if old ≠ none ∧ overwrite = 0 then return { ret := 0, errno := none, environ }
      else
        let removed ← unsetenv (some name) environ
        if mem.malloc (name.length + value.length + 2) && mem.putenv then
          let environ ← putenv (name ++ equals :: value) removed.environ
          return { ret := 0, errno := none, environ }
        else return { ret := -1, errno := some ENOMEM, environ := removed.environ }
  | _, _ => .ok { ret := -1, errno := some EINVAL, environ }

inductive Call where
  | setenv (mem : Memory) (name value : Option Bytes) (overwrite : Int)
  | unsetenv (name : Option Bytes)

def Call.exec : Call → Cells → Except Fault Result
  | .setenv mem name value overwrite, environ => SetEnv.setenv mem name value overwrite environ
  | .unsetenv name, environ => SetEnv.unsetenv name environ

/-- Calls one after another: what they return, and the array after them. -/
def run : List Call → Cells → Except Fault (List Int × Cells)
  | [], environ => .ok ([], environ)
  | c :: calls, environ => do
    let r ← c.exec environ
    let (rets, environ) ← run calls r.environ
    return (r.ret :: rets, environ)

/-! ## What they are for -/

/-- A name that a variable can have. -/
def IsName (name : Bytes) : Prop := name ≠ [] ∧ equals ∉ name

instance (name : Bytes) : Decidable (IsName name) := inferInstanceAs (Decidable (_ ∧ _))

/-- The variables. -/
abbrev Vars := Bytes → Option Bytes

/-- What a call returns and does to the variables. -/
def Call.spec : Call → Vars → Int × Vars
  | .setenv mem (some name) (some value) overwrite, vars =>
    if ¬ IsName name then (-1, vars)
    else if vars name ≠ none ∧ overwrite = 0 then (0, vars)
    else if mem.malloc (name.length + value.length + 2) && mem.putenv then
      (0, Function.update vars name (some value))
    else (-1, Function.update vars name none)
  | .setenv _ _ _ _, vars => (-1, vars)
  | .unsetenv (some name), vars =>
    if ¬ IsName name then (-1, vars) else (0, Function.update vars name none)
  | .unsetenv none, vars => (-1, vars)

def spec : List Call → Vars → List Int × Vars
  | [], vars => ([], vars)
  | c :: calls, vars =>
    let (ret, vars) := c.spec vars
    let (rets, vars) := spec calls vars
    (ret :: rets, vars)

/-- The name that a call is given. -/
def Call.name : Call → Option Bytes
  | .setenv _ name _ _ => name
  | .unsetenv name => name

/-! ## One entry -/

/-- An array that holds these strings, with whatever is after its NULL. -/
def array (entries : List Bytes) (slack : Cells) : Cells := entries.map some ++ none :: slack

/-- The value of a variable. -/
def lookup (entries : List Bytes) : Vars := fun name =>
  (entries.find? (defines name)).map (·.drop (name.length + 1))

section Entries

variable {name name' value entry : Bytes} {entries : List Bytes} {slack : Cells}

theorem defines_iff : defines name entry = true ↔ ∃ value, entry = name ++ equals :: value := by
  rw [defines, List.isPrefixOf_iff_prefix]
  refine ⟨?_, ?_⟩
  · rintro ⟨value, rfl⟩
    exact ⟨value, by simp⟩
  · rintro ⟨value, rfl⟩
    exact ⟨value, by simp⟩

theorem isEntry_eq : isEntry name entry = defines name entry := by
  rw [Bool.eq_iff_iff, defines_iff, isEntry, Bool.and_eq_true, strncmpEq_iff, decide_eq_true_iff]
  refine ⟨?_, ?_⟩
  · rintro ⟨⟨rest, rfl⟩, h⟩
    cases rest with
    | nil => simp [equals] at h
    | cons b rest =>
      obtain rfl : b = equals := by simpa using h
      exact ⟨rest, rfl⟩
  · rintro ⟨value, rfl⟩
    exact ⟨List.prefix_append _ _, by simp⟩

theorem defines_unique (h : IsName name) (h' : IsName name') (hd : defines name entry = true)
    (hd' : defines name' entry = true) : name = name' := by
  have hname : ∀ {n : Bytes}, IsName n → ∀ {e : Bytes}, defines n e = true →
      e.takeWhile (· ≠ equals) = n := by
    intro n hn e he
    obtain ⟨value, rfl⟩ := defines_iff.mp he
    rw [List.takeWhile_append_of_pos fun b hb => by simpa using ne_of_mem_of_not_mem hb hn.2]
    simp
  rw [← hname h hd, hname h' hd']

variable (name entries slack) in
theorem getenv_array : getenv name (array entries slack) = .ok (lookup entries name) := by
  induction entries with
  | nil => rfl
  | cons entry entries ih =>
    show (if isEntry name entry then _ else getenv name (array entries slack)) = _
    rw [isEntry_eq, lookup, List.find?_cons]
    by_cases h : defines name entry = true
    · simp only [h, if_true, Option.map_some]
    · rw [Bool.not_eq_true] at h
      simp only [h, Bool.false_eq_true, if_false, ih, lookup]

theorem shift_array (entry : Bytes) (entries : List Bytes) (slack : Cells) :
    shift (array (entry :: entries) slack) = .ok (array entries (none :: slack)) := by
  induction entries generalizing entry with
  | nil => rfl
  | cons e entries ih =>
    show (do return some e :: (← shift (array (e :: entries) slack))) = _
    rw [ih]
    rfl

variable (name entries slack) in
/-- The loop removes every entry for the name. -/
theorem unsetLoop_array : ∃ slack', unsetLoop name (array entries slack) =
    .ok (array (entries.filter fun entry => !defines name entry) slack') := by
  induction entries generalizing slack with
  | nil => exact ⟨slack, by simp [array, unsetLoop]⟩
  | cons entry entries ih =>
    have hcons : array (entry :: entries) slack = some entry :: array entries slack := rfl
    by_cases h : defines name entry = true
    · obtain ⟨slack', ih⟩ := ih (none :: slack)
      refine ⟨slack', ?_⟩
      rw [hcons, unsetLoop, isEntry_eq, if_pos h, List.filter_cons_of_neg (by simp [h]), ← ih]
      split
      · next e he => cases (shift_array entry entries slack).symm.trans he
      · next shifted he =>
        cases (shift_array entry entries slack).symm.trans he
        rfl
    · obtain ⟨slack', ih⟩ := ih slack
      refine ⟨slack', ?_⟩
      rw [hcons, unsetLoop, isEntry_eq, if_neg h, List.filter_cons_of_pos (by simp [h]), ih]
      rfl

theorem putenv_array (hname : equals ∉ name) (h : ∀ entry ∈ entries, defines name entry = false) :
    putenv (name ++ equals :: value) (array entries slack) =
      .ok (array (entries ++ [name ++ equals :: value]) []) := by
  have htake : (name ++ equals :: value).takeWhile (· ≠ equals) = name := by
    rw [List.takeWhile_append_of_pos fun b hb => by simpa using ne_of_mem_of_not_mem hb hname]
    simp
  induction entries with
  | nil => rfl
  | cons entry entries ih =>
    obtain ⟨h1, h2⟩ := List.forall_mem_cons.mp h
    have hcons : array (entry :: entries) slack = some entry :: array entries slack := rfl
    rw [hcons, putenv, htake, isEntry_eq, if_neg (by simp [h1]), ih h2]
    rfl

variable (entries) in
theorem lookup_filter (h : IsName name) (h' : IsName name') :
    lookup (entries.filter fun entry => !defines name entry) name' =
      Function.update (lookup entries) name none name' := by
  by_cases heq : name' = name
  · subst heq
    rw [Function.update_self, lookup, Option.map_eq_none_iff, List.find?_eq_none]
    intro entry hentry
    simpa using (List.mem_filter.mp hentry).2
  · rw [Function.update_of_ne heq, lookup, lookup, List.find?_filter]
    congr 2
    funext entry
    by_cases hd : defines name' entry = true
    · have : defines name entry ≠ true := fun hd' => heq (defines_unique h' h hd hd')
      simp [hd, this]
    · simp [hd]

theorem lookup_append (h : IsName name) (h' : IsName name')
    (hnone : ∀ entry ∈ entries, defines name entry = false) :
    lookup (entries ++ [name ++ equals :: value]) name' =
      Function.update (lookup entries) name (some value) name' := by
  have hself : defines name (name ++ equals :: value) = true := defines_iff.mpr ⟨value, rfl⟩
  by_cases heq : name' = name
  · subst heq
    have hfind : entries.find? (defines name') = none :=
      List.find?_eq_none.mpr fun entry hentry => by simp [hnone entry hentry]
    rw [Function.update_self, lookup, List.find?_append, hfind, Option.none_or,
      List.find?_cons, hself]
    simp
  · have hother : defines name' (name ++ equals :: value) = false := by
      rw [Bool.eq_false_iff]
      exact fun hd => heq (defines_unique h' h hd hself)
    rw [Function.update_of_ne heq, lookup, lookup, List.find?_append, List.find?_cons, hother]
    simp

end Entries

/-! ## One call -/

/-- What a call leaves of the entries: those that are not for a name in the list, in their order,
and no name with more entries than it had, or one. -/
structure Keeps (names : List Bytes) (entries entries' : List Bytes) : Prop where
  others : entries'.filter (fun entry => names.all fun name => !defines name entry) =
    entries.filter fun entry => names.all fun name => !defines name entry
  single : ∀ name, IsName name → (entries.filter (defines name)).length ≤ 1 →
    (entries'.filter (defines name)).length ≤ 1

theorem Keeps.refl (names entries : List Bytes) : Keeps names entries entries :=
  ⟨rfl, fun _ _ h => h⟩

theorem Keeps.trans {names names' entries entries' entries'' : List Bytes}
    (h : Keeps names entries entries') (h' : Keeps names' entries' entries'') :
    Keeps (names ++ names') entries entries'' where
  others := by
    simp only [List.all_append, ← List.filter_filter]
    rw [h'.others, List.filter_comm, h.others, List.filter_comm]
  single name hname hle := h'.single name hname (h.single name hname hle)

/-- The entries hold these variables. -/
def Agrees (entries : List Bytes) (vars : Vars) : Prop :=
  ∀ name, IsName name → lookup entries name = vars name

section Call

variable {name value : Bytes} {entries : List Bytes} {vars : Vars}

theorem Agrees.update {entries' : List Bytes} {o : Option Bytes} (h : Agrees entries vars)
    (hu : ∀ name', IsName name' →
      lookup entries' name' = Function.update (lookup entries) name o name') :
    Agrees entries' (Function.update vars name o) := by
  intro name' hname'
  rw [hu name' hname', Function.update_apply, Function.update_apply, h name' hname']

variable (entries) in
theorem keeps_filter (name : Bytes) :
    Keeps [name] entries (entries.filter fun entry => !defines name entry) where
  others := by simp [List.filter_filter]
  single name' _ h := (List.Sublist.length_le (List.filter_sublist.filter _)).trans h

variable (entries) in
theorem keeps_append (hname : IsName name) (value : Bytes) :
    Keeps [name] entries
      ((entries.filter fun entry => !defines name entry) ++ [name ++ equals :: value]) where
  others := by
    have hself : defines name (name ++ equals :: value) = true := defines_iff.mpr ⟨value, rfl⟩
    simp [List.filter_filter, hself]
  single name' hname' h := by
    rw [List.filter_append, List.length_append]
    by_cases heq : name' = name
    · subst heq
      have hnil :
          (entries.filter fun entry => !defines name' entry).filter (defines name') = [] := by
        simp [List.filter_filter]
      rw [hnil, List.length_nil, Nat.zero_add]
      exact List.length_filter_le _ _
    · have hother : defines name' (name ++ equals :: value) = false := by
        rw [Bool.eq_false_iff]
        exact fun hd => heq (defines_unique hname' hname hd (defines_iff.mpr ⟨value, rfl⟩))
      rw [List.filter_singleton, hother]
      exact (keeps_filter entries name).single name' hname' h

theorem isName_iff : ¬ IsName name ↔ name = [] ∨ equals ∈ name := by
  rw [IsName, not_and_or, not_not, not_not]

theorem unsetenv_array (hname : IsName name) (slack : Cells) :
    ∃ slack', SetEnv.unsetenv (some name) (array entries slack) =
      .ok ⟨0, none, array (entries.filter fun entry => !defines name entry) slack'⟩ := by
  obtain ⟨slack', hloop⟩ := unsetLoop_array name entries slack
  refine ⟨slack', ?_⟩
  simp only [SetEnv.unsetenv, if_neg (isName_iff.not.mp (not_not.mpr hname)), hloop]
  rfl

theorem Call.exec_array (c : Call) (h : Agrees entries vars) (slack : Cells) :
    ∃ r entries' slack', c.exec (array entries slack) = .ok r ∧ r.environ = array entries' slack' ∧
      r.ret = (c.spec vars).1 ∧ Agrees entries' (c.spec vars).2 ∧
      Keeps c.name.toList entries entries' := by
  have hsame : ∀ {c : Call} {r : Result}, c.exec (array entries slack) = .ok r →
      r.environ = array entries slack → c.spec vars = (r.ret, vars) →
      ∃ r entries' slack', c.exec (array entries slack) = .ok r ∧
        r.environ = array entries' slack' ∧
        r.ret = (c.spec vars).1 ∧ Agrees entries' (c.spec vars).2 ∧
        Keeps c.name.toList entries entries' :=
    fun hexec henv hspec => ⟨_, entries, slack, hexec, henv, by rw [hspec], by rwa [hspec],
      .refl _ _⟩
  cases c with
  | unsetenv name =>
    cases name with
    | none => exact hsame rfl rfl rfl
    | some name =>
      by_cases hname : IsName name
      · obtain ⟨slack', hunset⟩ := unsetenv_array hname slack
        have hspec : (Call.unsetenv (some name)).spec vars =
            (0, Function.update vars name none) := if_neg (not_not.mpr hname)
        refine ⟨_, _, slack', hunset, rfl, by rw [hspec], ?_, keeps_filter entries name⟩
        rw [hspec]
        exact h.update fun name' hname' => lookup_filter entries hname hname'
      · exact hsame (if_pos (isName_iff.mp hname)) rfl (if_pos hname)
  | setenv mem name value overwrite =>
    obtain _ | name := name
    · exact hsame rfl rfl rfl
    obtain _ | value := value
    · exact hsame rfl rfl rfl
    by_cases hname : IsName name
    on_goal 2 => exact hsame (if_pos (isName_iff.mp hname)) rfl (if_pos hname)
    have hexec :
        (Call.setenv mem (some name) (some value) overwrite).exec (array entries slack) = _ :=
      if_neg (isName_iff.not.mp (not_not.mpr hname))
    have hspec : (Call.setenv mem (some name) (some value) overwrite).spec vars = _ :=
      if_neg (not_not.mpr hname)
    rw [getenv_array, h name hname] at hexec
    replace hexec := hexec.trans (ok_bind _ _)
    by_cases hold : vars name ≠ none ∧ overwrite = 0
    · rw [if_pos hold] at hexec hspec
      exact hsame hexec rfl hspec
    · rw [if_neg hold] at hexec hspec
      obtain ⟨slack', hunset⟩ := unsetenv_array hname slack
      rw [hunset] at hexec
      replace hexec := hexec.trans (ok_bind _ _)
      by_cases hmem : (mem.malloc (name.length + value.length + 2) && mem.putenv) = true
      · have hnone : ∀ entry ∈ entries.filter fun entry => !defines name entry,
            defines name entry = false := fun entry hentry => by
          simpa using (List.mem_filter.mp hentry).2
        rw [if_pos hmem, putenv_array hname.2 hnone] at hexec
        rw [if_pos hmem] at hspec
        refine ⟨_, _, [], hexec.trans (ok_bind _ _), rfl, by rw [hspec], ?_,
          keeps_append entries hname value⟩
        rw [hspec]
        refine h.update fun name' hname' => ?_
        rw [lookup_append hname hname' hnone, Function.update_apply, Function.update_apply,
          lookup_filter entries hname hname', Function.update_apply]
        split <;> rfl
      · rw [if_neg hmem] at hexec hspec
        refine ⟨_, _, slack', hexec, rfl, by rw [hspec], ?_, keeps_filter entries name⟩
        rw [hspec]
        exact h.update fun name' hname' => lookup_filter entries hname hname'

end Call

/-! ## Any calls -/

/-- By induction on the calls, from any variables that the entries hold. -/
theorem run_array (calls : List Call) {entries : List Bytes} {vars : Vars} (h : Agrees entries vars)
    (slack : Cells) :
    ∃ entries' slack', run calls (array entries slack) =
        .ok ((spec calls vars).1, array entries' slack') ∧
      Agrees entries' (spec calls vars).2 ∧ Keeps (calls.filterMap Call.name) entries entries' := by
  induction calls generalizing entries vars slack with
  | nil => exact ⟨entries, slack, rfl, h, .refl _ _⟩
  | cons c calls ih =>
    obtain ⟨r, entries₁, slack₁, hexec, henv, hret, hagrees, hkeeps⟩ := c.exec_array h slack
    obtain ⟨entries₂, slack₂, hrun, hagrees', hkeeps'⟩ := ih hagrees slack₁
    refine ⟨entries₂, slack₂, ?_, hagrees', ?_⟩
    · rw [run, hexec, ok_bind, henv, hrun, ok_bind, hret]
      rfl
    · have hnames : (c :: calls).filterMap Call.name =
          c.name.toList ++ calls.filterMap Call.name := by
        cases hc : c.name <;> simp [hc]
      rw [hnames]
      exact hkeeps.trans hkeeps'

/-- Any calls of `setenv` and `unsetenv`, at any array, with any memory: none of them reads or
writes outside the array, they return what the map would have them return, and `getenv` finds the
values of the map afterwards. The entries for other names are left as they are, in their order, and
no name that has one entry gets a second. -/
theorem run_refines (calls : List Call) (entries : List Bytes) (slack : Cells) :
    ∃ entries' slack',
      run calls (array entries slack) =
        .ok ((spec calls (lookup entries)).1, array entries' slack') ∧
      (∀ name, IsName name →
        getenv name (array entries' slack') = .ok ((spec calls (lookup entries)).2 name)) ∧
      Keeps (calls.filterMap Call.name) entries entries' := by
  obtain ⟨entries', slack', hrun, hagrees, hkeeps⟩ := run_array calls (fun _ _ => rfl) slack
  refine ⟨entries', slack', hrun, fun name hname => ?_, hkeeps⟩
  rw [getenv_array, hagrees name hname]

end Tlpi.SetEnv
