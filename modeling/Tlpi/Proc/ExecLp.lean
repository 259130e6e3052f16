import Tlpi.Proc.SetEnv

/-!
# A search for a program

`execlp` of `tlpi-dist/procexec/execlp.c`: a name without a slash is looked for in the directories
of `PATH`, an empty one of which stands for the current. The kernel is given by the errors of
`execve`.

The directories are tried in their order, and the error is `EACCES` if any of them gave that,
otherwise the last one (`execlp_eq`). Both arrays that the function fills are too small in one case
each: `realloc` asks for the room of a single pointer when there are 99 arguments, and
`execShScript` has no room for the `NULL` at the end, so that a file that `execve` does not know is
written past it.
-/

namespace Tlpi.ExecLp

open Tlpi.Lib

def EACCES : Nat := 13
def ENOEXEC : Nat := 8

def slash : UInt8 := 47
def colon : UInt8 := 58

def SHELL_PATH : Bytes := bytesOf "/bin/sh"

/-- A call of `execve`: the vectors up to their NULL. -/
structure Call where
  pathname : Bytes
  argv : List Bytes
  envp : List Bytes

/-- The error of a call, or `none` where it does not return. -/
abbrev Kernel := Call → Option Nat

inductive Outcome where
  /-- The process runs this program. -/
  | runs (call : Call)
  /-- -1 is returned, with this `errno`. -/
  | fails (errno : Nat)

/-- A vector of pointers, up to its NULL. -/
def vector (cells : List (Option Bytes)) : List Bytes :=
  (cells.takeWhile Option.isSome).filterMap id

/-- The loop that walks the argument list, with what is left of that: `argv`, `argc`. -/
def walk (argv : List (Option Bytes)) (argvSize argc : Nat) :
    List (Option Bytes) → Except Fault (List (Option Bytes) × Nat)
  | [] => do
    match ← fetch argv (argc - 1) with
    | none => return (argv, argc)
    | some _ => throw .outOfBounds
  | arg :: argList => do
    match ← fetch argv (argc - 1) with
    | none => return (argv, argc)
    | some _ =>
      if argvSize ≤ argc + 1 then
        -- `realloc(argv, sizeof(void *))`
        let argv ← store (argv.take 1) argc arg
        walk argv (argvSize + 100) (argc + 1) argList
      else
        let argv ← store argv argc arg
        walk argv argvSize (argc + 1) argList

/-- The argument vector and the number of its elements; the list ends in NULL. -/
def buildArgv (args : List Bytes) : Except Fault (List (Option Bytes) × Nat) :=
  match args.map some ++ [none] with
  | [] => .error .outOfBounds
  | arg :: argList => walk (arg :: List.replicate 99 none) 100 1 argList

/-- `for (j = 0; j <= argc; j++) shArgv[j + 1] = argv[j];` -/
def copyArgv (argv shArgv : List (Option Bytes)) (argc : Nat) :
    Except Fault (List (Option Bytes)) :=
  (List.range (argc + 1)).foldlM (fun shArgv j => do store shArgv (j + 1) (← fetch argv j)) shArgv

/-- `execShScript`: `none` where it returns. -/
def execShScript (execve : Kernel) (argc : Nat) (argv : List (Option Bytes)) (envp : List Bytes) :
    Except Fault (Option Call) := do
  let shArgv ← store (List.replicate (argc + 1) none) 0 (some SHELL_PATH)
  let shArgv ← copyArgv argv shArgv argc
  let call : Call := ⟨SHELL_PATH, vector shArgv, envp⟩
  return if execve call = none then some call else none

/-- The loop over the prefixes of `PATH`. -/
def search (execve : Kernel) (argc : Nat) (argv : List (Option Bytes)) (envp : List Bytes)
    (filename : Bytes) (fndEACCES : Bool) (prStart : Bytes) : Except Fault Outcome := do
  let pr := prStart.takeWhile (· ≠ colon)
  let pathname ← strcpy (max 1 pr.length + filename.length + 2)
    ((if pr = [] then bytesOf "." else pr) ++ slash :: filename)
  let call : Call := ⟨pathname, vector argv, envp⟩
  match execve call with
  | none => return .runs call
  | some errno =>
    let script ← (if errno = ENOEXEC then execShScript execve argc argv envp else .ok none)
    match script with
    | some call => return .runs call
    | none =>
      let fndEACCES := fndEACCES || errno = EACCES
      match _h : prStart.dropWhile (· ≠ colon) with
      | [] => return .fails (if fndEACCES then EACCES else errno)
      | _ :: prStart' => search execve argc argv envp filename fndEACCES prStart'
termination_by prStart.length
decreasing_by
  have := (List.dropWhile_sublist (· ≠ colon) (l := prStart)).length_le
  rw [_h, List.length_cons] at this
  exact this

/-- `execlp(filename, args .., NULL)` -/
def execlp (execve : Kernel) (environ : List Bytes) (filename : Bytes) (args : List Bytes) :
    Except Fault Outcome := do
  let (argv, argc) ← buildArgv args
  if slash ∈ filename then
    let call : Call := ⟨filename, vector argv, environ⟩
    match execve call with
    | none => return .runs call
    | some errno =>
      let script ← (if errno = ENOEXEC then execShScript execve argc argv environ else .ok none)
      match script with
      | some call => return .runs call
      | none => return .fails errno
  else
    let path :=
      match SetEnv.lookup environ (bytesOf "PATH") with
      | none | some [] => bytesOf "."
      | some p => p
    search execve argc argv environ filename false path

/-! ## The vectors -/

/-- The vector after the arguments that have been walked over. -/
def cellsOf (args : List Bytes) : List (Option Bytes) :=
  args.map some ++ List.replicate (100 - args.length) none

theorem length_cellsOf {args : List Bytes} (h : args.length ≤ 100) :
    (cellsOf args).length = 100 := by
  simp [cellsOf, h]

theorem cellsOf_last {args : List Bytes} (hne : args ≠ []) :
    ∃ a, (cellsOf args)[args.length - 1]? = some (some a) := by
  have hlt : args.length - 1 < args.length := by
    have := List.length_pos_of_ne_nil hne
    omega
  refine ⟨args[args.length - 1], ?_⟩
  rw [cellsOf, List.getElem?_append_left (by simpa using hlt), List.getElem?_map,
    List.getElem?_eq_getElem hlt]
  rfl

theorem cellsOf_null {args : List Bytes} (h : args.length < 100) :
    (cellsOf args)[args.length]? = some none := by
  rw [cellsOf, List.getElem?_append_right (by simp), List.getElem?_replicate]
  simp [h]

theorem cellsOf_set_null {args : List Bytes} (h : args.length < 100) :
    (cellsOf args).set args.length none = cellsOf args := by
  obtain ⟨k, hk⟩ : ∃ k, 100 - args.length = k + 1 := ⟨99 - args.length, by omega⟩
  rw [cellsOf, hk, List.set_append_right _ _ (by simp), List.replicate_succ]
  simp

theorem cellsOf_set {args : List Bytes} (a : Bytes) (h : args.length < 100) :
    (cellsOf args).set args.length (some a) = cellsOf (args ++ [a]) := by
  obtain ⟨k, hk⟩ : ∃ k, 100 - args.length = k + 1 := ⟨99 - args.length, by omega⟩
  have hk' : 100 - (args ++ [a]).length = k := by
    rw [List.length_append, List.length_singleton]
    omega
  rw [cellsOf, cellsOf, hk, hk', List.set_append_right _ _ (by simp), List.replicate_succ]
  simp

theorem vector_cellsOf {args : List Bytes} (h : args.length < 100) :
    vector (cellsOf args) = args := by
  obtain ⟨k, hk⟩ : ∃ k, 100 - args.length = k + 1 := ⟨99 - args.length, by omega⟩
  have hall : ∀ x ∈ args.map some, Option.isSome x = true := by simp
  rw [vector, cellsOf, hk, List.replicate_succ, List.takeWhile_append_of_pos hall]
  simp [List.filterMap_map]

theorem walk_cons {args : List Bytes} (hne : args ≠ []) (hlen : args.length ≤ 99)
    (arg : Option Bytes) (argList : List (Option Bytes)) :
    walk (cellsOf args) 100 args.length (arg :: argList) =
      if args.length < 99 then
        walk ((cellsOf args).set args.length arg) 100 (args.length + 1) argList
      else .error .outOfBounds := by
  obtain ⟨a, ha⟩ := cellsOf_last hne
  rw [walk, fetch_eq_some ha, ok_bind]
  by_cases hlt : args.length < 99
  · have hroom : args.length < (cellsOf args).length := by
      rw [length_cellsOf (by omega)]
      omega
    have hstore := store_eq_ok hroom arg
    rw [if_pos hlt, if_neg (by omega), hstore, ok_bind]
  · have hstore : store ((cellsOf args).take 1) args.length arg = .error .outOfBounds :=
      if_neg (by rw [List.length_take]; omega)
    rw [if_neg hlt, if_pos (by omega), hstore]
    rfl

/-- By induction on the arguments to come: up to 98 there is room. -/
theorem walk_eq (args rest : List Bytes) (hne : args ≠ []) (hlen : args.length ≤ 99) :
    walk (cellsOf args) 100 args.length (rest.map some ++ [none]) =
      if args.length + rest.length < 99 then
        .ok (cellsOf (args ++ rest), (args ++ rest).length + 1)
      else .error .outOfBounds := by
  induction rest generalizing args with
  | nil =>
    rw [List.map_nil, List.nil_append, walk_cons hne hlen, List.append_nil]
    by_cases hlt : args.length < 99
    · rw [if_pos hlt, if_pos (by simpa using hlt), cellsOf_set_null (by omega), walk,
        Nat.add_sub_cancel, fetch_eq_some (cellsOf_null (by omega))]
      rfl
    · rw [if_neg hlt, if_neg (by simpa using hlt)]
  | cons b rest ih =>
    rw [List.map_cons, List.cons_append, walk_cons hne hlen, List.length_cons]
    by_cases hlt : args.length < 99
    · have hlen' : (args ++ [b]).length = args.length + 1 := by simp
      have := ih (args ++ [b]) (by simp) (by omega)
      rw [List.append_assoc, List.singleton_append, hlen'] at this
      rw [if_pos hlt, cellsOf_set b (by omega), this, Nat.add_right_comm, Nat.add_assoc]
    · rw [if_neg hlt, if_neg (by omega)]

theorem buildArgv_eq (args : List Bytes) :
    buildArgv args = if args.length < 99 then .ok (cellsOf args, args.length + 1)
      else .error .outOfBounds := by
  cases args with
  | nil => rfl
  | cons a args =>
    have := walk_eq [a] args (by simp) (by simp)
    rw [List.singleton_append, List.length_singleton, Nat.add_comm, ← List.length_cons] at this
    exact this

/-- The copy of the vector has one element more than there is room for. -/
theorem execShScript_eq (execve : Kernel) {args : List Bytes} (h : args.length < 99)
    (envp : List Bytes) :
    execShScript execve (args.length + 1) (cellsOf args) envp = .error .outOfBounds := by
  have hcopy : ∀ k sh, k ≤ args.length + 1 → sh.length = args.length + 2 →
      ∃ sh', (List.range k).foldlM
        (fun shArgv j => do store shArgv (j + 1) (← fetch (cellsOf args) j)) sh =
        .ok sh' ∧ sh'.length = args.length + 2 := by
    intro k
    induction k with
    | zero => exact fun sh _ hsh => ⟨sh, rfl, hsh⟩
    | succ k ih =>
      intro sh hk hsh
      obtain ⟨sh', hok, hlen⟩ := ih sh (by omega) hsh
      have hlen100 : (cellsOf args).length = 100 := length_cellsOf (by omega)
      rw [List.range_succ, List.foldlM_append, hok, ok_bind, List.foldlM_cons,
        fetch_eq_ok (by omega : k < (cellsOf args).length), ok_bind, store_eq_ok (by omega)]
      exact ⟨_, rfl, by simp [hlen]⟩
  have hlen100 : (cellsOf args).length = 100 := length_cellsOf (by omega)
  have hfirst : store (List.replicate (args.length + 1 + 1) none) 0 (some SHELL_PATH) =
      .ok ((List.replicate (args.length + 1 + 1) none).set 0 (some SHELL_PATH)) :=
    store_eq_ok (by simp) _
  obtain ⟨sh, hok, hlen⟩ := hcopy (args.length + 1)
    ((List.replicate (args.length + 1 + 1) none).set 0 (some SHELL_PATH)) le_rfl (by simp)
  have hlast : store sh (args.length + 1 + 1) (cellsOf args)[args.length + 1] =
      .error .outOfBounds :=
    if_neg (by omega)
  rw [execShScript, hfirst, ok_bind, copyArgv, List.range_succ, List.foldlM_append, hok, ok_bind,
    List.foldlM_cons, fetch_eq_ok (by omega : args.length + 1 < (cellsOf args).length),
      ok_bind, hlast]
  rfl

/-! ## The search -/

/-- The pathname for a directory of `PATH`. -/
def pathnameIn (filename pr : Bytes) : Bytes :=
  (if pr = [] then bytesOf "." else pr) ++ slash :: filename

/-- What `execlp` tries, in this order. -/
def candidates (environ : List Bytes) (filename : Bytes) : List Bytes :=
  if slash ∈ filename then [filename]
  else
    match SetEnv.lookup environ (bytesOf "PATH") with
    | none | some [] => [pathnameIn filename (bytesOf ".")]
    | some p => (p.splitOn colon).map (pathnameIn filename)

/-- What becomes of candidates whose errors are given by `result`: the first that runs or is not
known ends the search. -/
def outcome (call : Bytes → Call) (result : Bytes → Option Nat) (fndEACCES : Bool)
    (paths : List Bytes) : Except Fault Outcome :=
  match paths.find? fun path => result path = none ∨ result path = some ENOEXEC with
  | some path => if result path = none then .ok (.runs (call path)) else .error .outOfBounds
  | none =>
    let errors := paths.filterMap result
    .ok (.fails (if fndEACCES ∨ EACCES ∈ errors then EACCES else errors.getLast?.getD 0))

section Search

variable (execve : Kernel) {args : List Bytes} (envp : List Bytes) (filename : Bytes)

theorem splitOn_prefix (s : Bytes) :
    s.splitOn colon = s.takeWhile (· ≠ colon) ::
      match s.dropWhile (· ≠ colon) with
      | [] => []
      | _ :: rest => rest.splitOn colon := by
  have htake : colon ∉ s.takeWhile (· ≠ colon) := fun hm => by
    simpa using List.mem_takeWhile_imp hm
  have hs : s = s.takeWhile (· ≠ colon) ++ s.dropWhile (· ≠ colon) :=
    List.takeWhile_append_dropWhile.symm
  cases hd : s.dropWhile (· ≠ colon) with
  | nil =>
    rw [hd, List.append_nil] at hs
    rw [← hs] at htake ⊢
    exact List.splitOn_eq_singleton htake
  | cons b rest =>
    have hb := List.head?_dropWhile_not (fun x => decide (x ≠ colon)) s
    rw [hd] at hb
    obtain rfl : b = colon := by simpa using hb
    conv_lhs => rw [hs, hd]
    exact List.splitOn_append_cons_self_of_not_mem htake rest

theorem outcome_cons (call : Bytes → Call) {result : Bytes → Option Nat} (fnd : Bool) {path : Bytes}
    {errno : Nat} (hr : result path = some errno) (hne : errno ≠ ENOEXEC) (paths : List Bytes) :
    outcome call result fnd (path :: paths) =
      if paths = [] then .ok (.fails (if fnd || errno = EACCES then EACCES else errno))
      else outcome call result (fnd || errno = EACCES) paths := by
  have hfind : (path :: paths).find? (fun path => result path = none ∨ result path = some ENOEXEC) =
      paths.find? fun path => result path = none ∨ result path = some ENOEXEC :=
    List.find?_cons_of_neg (by simp [hr, hne])
  unfold outcome
  rw [hfind]
  by_cases hp : paths = []
  · subst hp
    simp only [List.find?_nil, List.filterMap_cons, hr, List.filterMap_nil, List.mem_singleton,
      List.getLast?_singleton, Option.getD_some, Bool.or_eq_true, decide_eq_true_eq, if_true,
      eq_comm (a := EACCES) (b := errno)]
  rw [if_neg hp]
  cases hf : paths.find? fun path => result path = none ∨ result path = some ENOEXEC with
  | some path' => rfl
  | none =>
    obtain ⟨path', paths, rfl⟩ := List.exists_cons_of_ne_nil hp
    obtain ⟨e, he⟩ : ∃ e, result path' = some e := Option.ne_none_iff_exists'.mp fun hn => by
      have := List.find?_eq_none.mp hf path' List.mem_cons_self
      simp [hn] at this
    simp only [List.filterMap_cons, hr, he, List.getLast?_cons_cons, List.mem_cons, Bool.or_eq_true,
      decide_eq_true_eq, eq_comm (a := EACCES) (b := errno), or_assoc]

theorem outcome_stop (call : Bytes → Call) {result : Bytes → Option Nat} (fnd : Bool) {path : Bytes}
    (hr : result path = none ∨ result path = some ENOEXEC) (paths : List Bytes) :
    outcome call result fnd (path :: paths) =
      if result path = none then .ok (.runs (call path)) else .error .outOfBounds := by
  rw [outcome, List.find?_cons_of_pos (by simpa using hr)]

theorem search_step (h : args.length < 99) (fnd : Bool) (prStart : Bytes) :
    search execve (args.length + 1) (cellsOf args) envp filename fnd prStart =
      match execve ⟨pathnameIn filename (prStart.takeWhile (· ≠ colon)), args, envp⟩ with
      | none => .ok (.runs ⟨pathnameIn filename (prStart.takeWhile (· ≠ colon)), args, envp⟩)
      | some errno =>
        if errno = ENOEXEC then .error .outOfBounds
        else
          match prStart.dropWhile (· ≠ colon) with
          | [] => .ok (.fails (if fnd || errno = EACCES then EACCES else errno))
          | _ :: prStart' =>
            search execve (args.length + 1) (cellsOf args) envp filename
              (fnd || errno = EACCES) prStart' := by
  have hcpy : strcpy (max 1 (prStart.takeWhile (· ≠ colon)).length + filename.length + 2)
      (pathnameIn filename (prStart.takeWhile (· ≠ colon))) =
        .ok (pathnameIn filename (prStart.takeWhile (· ≠ colon))) := by
    refine strcpy_eq_ok.mpr ⟨?_, rfl⟩
    unfold pathnameIn
    split
    · simp [bytesOf]
    · simp
      omega
  rw [search]
  show strcpy _ (pathnameIn filename (prStart.takeWhile (· ≠ colon))) >>= _ = _
  rw [hcpy, ok_bind, vector_cellsOf (by omega)]
  dsimp only
  cases execve ⟨pathnameIn filename (prStart.takeWhile (· ≠ colon)), args, envp⟩ with
  | none => rfl
  | some errno =>
    dsimp only
    by_cases hne : errno = ENOEXEC
    · rw [if_pos hne, if_pos hne, execShScript_eq execve h]
      rfl
    · rw [if_neg hne, if_neg hne, ok_bind]
      dsimp only
      split
      · next hd => rw [hd]; rfl
      · next hd => rw [hd]

/-- By induction on what is left of `PATH`. -/
theorem search_eq (h : args.length < 99) (fnd : Bool) (prStart : Bytes) :
    search execve (args.length + 1) (cellsOf args) envp filename fnd prStart =
      outcome (⟨·, args, envp⟩) (fun path => execve ⟨path, args, envp⟩) fnd
        ((prStart.splitOn colon).map (pathnameIn filename)) := by
  induction hlen : prStart.length using Nat.strongRecOn generalizing fnd prStart with
  | _ len ih =>
    rw [search_step execve envp filename h, splitOn_prefix, List.map_cons]
    cases hr : execve ⟨pathnameIn filename (prStart.takeWhile (· ≠ colon)), args, envp⟩ with
    | none => rw [outcome_stop _ _ (.inl hr), if_pos hr]
    | some errno =>
      dsimp only
      by_cases hne : errno = ENOEXEC
      · subst hne
        rw [outcome_stop _ _ (.inr hr), if_pos rfl, hr]
        rfl
      · rw [outcome_cons _ fnd hr hne, if_neg hne]
        cases hd : prStart.dropWhile (· ≠ colon) with
        | nil => rfl
        | cons b rest =>
          have hlt : rest.length < len := by
            have := (List.dropWhile_sublist (· ≠ colon) (l := prStart)).length_le
            rw [hd, List.length_cons] at this
            omega
          have hne' : (rest.splitOn colon).map (pathnameIn filename) ≠ [] := by
            simp [List.splitOn_ne_nil]
          dsimp only
          rw [if_neg hne', ih _ hlt _ rest rfl]

end Search

/-- **Every call**: with 99 arguments or more the vector does not fit. With fewer, the candidates
are tried in their order up to the first that runs; one that needs a shell is written past the end
of an array. -/
theorem execlp_eq (execve : Kernel) (environ : List Bytes) (filename : Bytes) (args : List Bytes) :
    execlp execve environ filename args =
      if 99 ≤ args.length then .error .outOfBounds
      else outcome (⟨·, args, environ⟩) (fun path => execve ⟨path, args, environ⟩) false
        (candidates environ filename) := by
  rw [execlp, buildArgv_eq]
  by_cases h : args.length < 99
  on_goal 2 => rw [if_neg h, if_pos (by omega)]; rfl
  rw [if_pos h, if_neg (by omega), ok_bind]
  dsimp only
  by_cases hs : slash ∈ filename
  · rw [if_pos hs, candidates, if_pos hs, vector_cellsOf (by omega)]
    cases hr : execve ⟨filename, args, environ⟩ with
    | none => rw [outcome_stop _ _ (.inl hr), if_pos hr]; rfl
    | some errno =>
      dsimp only
      by_cases hne : errno = ENOEXEC
      · subst hne
        rw [outcome_stop _ _ (.inr hr), if_pos rfl, execShScript_eq execve h, hr]
        rfl
      · rw [outcome_cons _ _ hr hne, if_pos rfl, if_neg hne, ok_bind]
        by_cases he : errno = EACCES
        · simp only [he, decide_true, Bool.or_true, if_true]
          rfl
        · simp only [he, decide_false, Bool.or_false, Bool.false_eq_true, if_false]
          rfl
  · rw [if_neg hs, candidates, if_neg hs]
    cases hp : SetEnv.lookup environ (bytesOf "PATH") with
    | none => exact search_eq execve environ filename h false _
    | some p =>
      cases p with
      | nil => exact search_eq execve environ filename h false _
      | cons b p => exact search_eq execve environ filename h false _

end Tlpi.ExecLp
