import Tlpi.FileSys.Shuffle
import Tlpi.Lib.CString
import Tlpi.Lib.Open

/-!
# The write benchmark

`runbenchmark` of `14-file-systems/benchmarkwrites.c` creates files with the names `x000000`,
`x000001` and so on, in this order or shuffled, and removes them in this order. The names are
distinct because zeros in front do not change a number, also past six digits (`filePath_injective`),
and the shuffle only permutes the numbers, so every file that was created is found again
(`runbenchmark_cleans_up`).

The files stay empty: they are opened with `O_CREAT` alone, so for reading, and the `write` of their
one byte fails unnoticed.
-/

namespace Tlpi.Benchmark

open Tlpi.Lib

/-- `FILE_CONTENTS` -/
def fileContents : Bytes := bytesOf "z"

/-- What `%06d` prints. -/
def fmt06 (x : Int) : Bytes :=
  let sign := if x < 0 then bytesOf "-" else []
  let digits := decimal x.natAbs
  sign ++ List.replicate (6 - sign.length - digits.length) 48 ++ digits

/-- What `FILENAME_FMT` prints. -/
def filePath (dirname : Bytes) (number : Int) : Bytes :=
  dirname ++ bytesOf "/x" ++ fmt06 number

/-- The size of `filepath`. -/
def filepathSize : Nat := 1024

/-- What stands at the name of the directory. -/
inductive Target where
  | absent
  | notDir
  | dir
  deriving DecidableEq

/-- What the system does: which sizes `malloc` grants, whether `mkdir` succeeds, which files may be
created and removed, and what `rand` returns. -/
structure Env where
  malloc : Nat → Bool
  mkdir : Bool
  creatable : Bytes → Bool
  removable : Bytes → Bool
  randMax : Nat
  rand : Nat → Nat

/-- A call of `open` or of `unlink`: its path, and whether it succeeded. -/
inductive Call where
  | opened (path : Bytes) (ok : Bool)
  | unlinked (path : Bytes) (ok : Bool)
  deriving DecidableEq

/-- The files, and the calls made on them, the oldest first. -/
structure System where
  files : FileSys
  calls : List Call

/-- `open(filepath, O_CREAT, MODE_777)` -/
def System.creat (env : Env) (s : System) (filepath : Bytes) : Option OpenFile × System :=
  match if env.creatable filepath then openFlags s.files filepath O_CREAT else none with
  | none => (none, { s with calls := s.calls ++ [.opened filepath false] })
  | some (fd, fs) => (some fd, ⟨fs, s.calls ++ [.opened filepath true]⟩)

/-- `unlink(filepath)`. The first component is false when it fails. -/
def System.unlink (env : Env) (s : System) (filepath : Bytes) : Bool × System :=
  match if env.removable filepath then Lib.unlink s.files filepath else none with
  | none => (false, { s with calls := s.calls ++ [.unlinked filepath false] })
  | some fs => (true, ⟨fs, s.calls ++ [.unlinked filepath true]⟩)

/-- The creation loop over the rest of `file_numbers`. The first component is false when it ends
with `return 1`. -/
def createFiles (env : Env) (dirname : Bytes) : List Int → System → Except Fault (Bool × System)
  | [], s => .ok (true, s)
  | number :: numbers, s => do
    let filepath ← strcpy filepathSize (filePath dirname number)
    match s.creat env filepath with
    | (none, s) => return (false, s)
    | (some fd, s) =>
      -- nobody looks at what `write` returns
      match fd.write s.files fileContents with
      | none => createFiles env dirname numbers s
      | some (_, fs) => createFiles env dirname numbers { s with files := fs }

/-- The deletion loop over the rest of `ordered_file_numbers`. -/
def deleteFiles (env : Env) (dirname : Bytes) : List Int → System → Except Fault (Bool × System)
  | [], s => .ok (true, s)
  | number :: numbers, s => do
    let filepath ← strcpy filepathSize (filePath dirname number)
    match s.unlink env filepath with
    | (false, s) => return (false, s)
    | (true, s) => deleteFiles env dirname numbers s

/-- `ordered_file_numbers` -/
def orderedFileNumbers (numberFiles : Int) : List Int :=
  (List.range numberFiles.toNat).map fun i : Nat => (i : Int)

/-- `file_numbers` -/
def fileNumbers (env : Env) (numberFiles : Int) (randomize : Bool) : Except Fault (List Int) :=
  if randomize then
    shuffle env.randMax env.rand (orderedFileNumbers numberFiles) (toUInt64 numberFiles)
  else .ok (orderedFileNumbers numberFiles)

/-- `runbenchmark()`: what it returns, and the files and the calls after it. -/
def runbenchmark (env : Env) (numberFiles : Int) (randomize : Bool) (dirname : Bytes)
    (target : Target) (s : System) : Except Fault (Int × System) :=
  if env.malloc (toUInt64 (4 * numberFiles)) then
    if target = .notDir ∨ target = .absent ∧ ¬ env.mkdir then .ok (1, s)
    else do
      let numbers ← fileNumbers env numberFiles randomize
      let (created, s) ← createFiles env dirname numbers s
      if created then
        let (deleted, s) ← deleteFiles env dirname (orderedFileNumbers numberFiles) s
        return (if deleted then 0 else 1, s)
      else return (1, s)
  else .ok (1, s)

/-! ## Names -/

theorem fmt06_natCast (n : Nat) :
    fmt06 n = List.replicate (6 - (decimal n).length) 48 ++ decimal n := by
  rw [fmt06, if_neg (by omega)]
  rfl

theorem filePath_injective (dirname : Bytes) :
    Function.Injective fun n : Nat => filePath dirname n := by
  intro m n h
  have hfmt : fmt06 m = fmt06 n := List.append_cancel_left h
  have hvalue := congrArg decimalValue hfmt
  rwa [fmt06_natCast, fmt06_natCast, decimalValue_zeros, decimalValue_zeros, decimalValue_decimal,
    decimalValue_decimal] at hvalue

/-- The names of the files. -/
def filePaths (dirname : Bytes) (numbers : List Int) : List Bytes := numbers.map (filePath dirname)

theorem nodup_filePaths (dirname : Bytes) (n : Nat) :
    (filePaths dirname (orderedFileNumbers n)).Nodup := by
  rw [filePaths, orderedFileNumbers, List.map_map, Int.toNat_natCast]
  exact List.nodup_range.map (filePath_injective dirname)

theorem mem_filePaths {dirname p : Bytes} {n : Nat} :
    p ∈ filePaths dirname (orderedFileNumbers n) ↔ ∃ k < n, p = filePath dirname k := by
  simp [filePaths, orderedFileNumbers, eq_comm]

theorem forall_filePaths {dirname : Bytes} {n : Nat} {P : Bytes → Prop}
    (h : ∀ k < n, P (filePath dirname k)) :
    ∀ p ∈ filePaths dirname (orderedFileNumbers n), P p := by
  intro p hp
  obtain ⟨k, hk, rfl⟩ := mem_filePaths.mp hp
  exact h k hk

/-! ## The two loops -/

/-- Every name of `names` stands for `contents`. -/
def withFiles (fs : FileSys) (names : List Bytes) (contents : Option Bytes) : FileSys :=
  fun p => if p ∈ names then contents else fs p

theorem withFiles_mem {fs : FileSys} {names : List Bytes} {p : Bytes} (h : p ∈ names)
    (contents : Option Bytes) : withFiles fs names contents p = contents := if_pos h

theorem withFiles_not_mem {fs : FileSys} {names : List Bytes} {p : Bytes} (h : p ∉ names)
    (contents : Option Bytes) : withFiles fs names contents p = fs p := if_neg h

theorem withFiles_nil (fs : FileSys) (contents : Option Bytes) : withFiles fs [] contents = fs :=
  funext fun _ => withFiles_not_mem List.not_mem_nil contents

theorem withFiles_cons (fs : FileSys) (name : Bytes) (names : List Bytes)
    (contents : Option Bytes) :
    withFiles fs (name :: names) contents =
      withFiles (Function.update fs name contents) names contents := by
  funext p
  by_cases hmem : p ∈ names
  · rw [withFiles_mem hmem, withFiles_mem (List.mem_cons_of_mem _ hmem)]
  · rw [withFiles_not_mem hmem]
    by_cases hname : p = name
    · rw [hname, withFiles_mem List.mem_cons_self, Function.update_self]
    · rw [withFiles_not_mem (by simp [hname, hmem]), Function.update_of_ne hname]

theorem withFiles_perm {names names' : List Bytes} (hperm : names.Perm names') (fs : FileSys)
    (contents : Option Bytes) : withFiles fs names contents = withFiles fs names' contents := by
  funext p
  simp only [withFiles, hperm.mem_iff]

section Loops

variable {env : Env} {dirname : Bytes} {number : Int} {numbers : List Int} {s s₁ : System}

/-- The system after a creation loop that nothing stopped. -/
def System.created (s : System) (names : List Bytes) : System :=
  ⟨withFiles s.files names (some []), s.calls ++ names.map (.opened · true)⟩

/-- The system after a deletion loop that nothing stopped. -/
def System.deleted (s : System) (names : List Bytes) : System :=
  ⟨withFiles s.files names none, s.calls ++ names.map (.unlinked · true)⟩

theorem System.created_cons (name : Bytes) (names : List Bytes) :
    s.created (name :: names) = (s.created [name]).created names := by
  simp [created, withFiles_cons, withFiles_nil]

theorem System.deleted_cons (name : Bytes) (names : List Bytes) :
    s.deleted (name :: names) = (s.deleted [name]).deleted names := by
  simp [deleted, withFiles_cons, withFiles_nil]

theorem System.creat_new {path : Bytes} (hnew : s.files path = none)
    (hcreat : env.creatable path = true) :
    ∃ fd : OpenFile, s.creat env path = (some fd, s.created [path]) ∧
      ∀ fs bytes, fd.write fs bytes = none := by
  have hrdonly : O_CREAT &&& O_ACCMODE = O_RDONLY := by decide
  rw [creat, if_pos hcreat, openFlags_new hnew (by decide)]
  refine ⟨⟨path, O_CREAT, ⟨0, false⟩⟩, ?_, OpenFile.write_rdonly hrdonly⟩
  rw [created, withFiles_cons, withFiles_nil]
  rfl

/-- A new file is left empty, since its descriptor is not open for writing. -/
theorem createFiles_cons (hnew : s.files (filePath dirname number) = none)
    (hfits : (filePath dirname number).length < filepathSize)
    (hcreat : env.creatable (filePath dirname number) = true) :
    createFiles env dirname (number :: numbers) s =
      createFiles env dirname numbers (s.created [filePath dirname number]) := by
  obtain ⟨fd, hopen, hwrite⟩ := System.creat_new hnew hcreat
  rw [createFiles, strcpy_eq_ok.mpr ⟨hfits, rfl⟩]
  show (match s.creat env (filePath dirname number) with | (none, s) => _ | (some fd, s) => _) = _
  rw [hopen]
  dsimp only
  rw [hwrite]

theorem createFiles_eq (hnodup : (filePaths dirname numbers).Nodup)
    (hnew : ∀ p ∈ filePaths dirname numbers, s.files p = none)
    (hopen : ∀ p ∈ filePaths dirname numbers, p.length < filepathSize ∧ env.creatable p = true) :
    createFiles env dirname numbers s = .ok (true, s.created (filePaths dirname numbers)) := by
  induction numbers generalizing s with
  | nil => simp [createFiles, System.created, filePaths, withFiles_nil]
  | cons number numbers ih =>
    obtain ⟨hnot, hnodup⟩ := List.nodup_cons.mp hnodup
    obtain ⟨hnew₀, hnew⟩ := List.forall_mem_cons.mp hnew
    obtain ⟨⟨hfits, hcreat⟩, hopen⟩ := List.forall_mem_cons.mp hopen
    rw [createFiles_cons hnew₀ hfits hcreat, ih hnodup ?_ hopen]
    · rw [← System.created_cons]
      rfl
    · intro p hp
      have hne : p ≠ filePath dirname number := ne_of_mem_of_not_mem hp hnot
      exact (withFiles_not_mem (List.mem_singleton.not.mpr hne) _).trans (hnew p hp)

theorem createFiles_opened (h : createFiles env dirname numbers s = .ok (true, s₁)) :
    ∀ p ∈ filePaths dirname numbers, p.length < filepathSize ∧ env.creatable p = true := by
  induction numbers generalizing s with
  | nil => exact fun p hp => absurd hp List.not_mem_nil
  | cons number numbers ih =>
    rw [createFiles] at h
    obtain ⟨path, hpath, h⟩ := bind_eq_ok.mp h
    obtain ⟨hfits, rfl⟩ := strcpy_eq_ok.mp hpath
    by_cases hcreat : env.creatable (filePath dirname number)
    · refine List.forall_mem_cons.mpr ⟨⟨hfits, hcreat⟩, ?_⟩
      split at h
      · cases h
      · split at h <;> exact ih h
    · rw [System.creat, if_neg hcreat] at h
      cases h

theorem System.unlink_file {path : Bytes} (hfile : s.files path ≠ none)
    (hrem : env.removable path = true) : s.unlink env path = (true, s.deleted [path]) := by
  rw [System.unlink, if_pos hrem, unlink_of_ne_none hfile, deleted, withFiles_cons, withFiles_nil]
  rfl

theorem deleteFiles_eq (hnodup : (filePaths dirname numbers).Nodup)
    (hfile : ∀ p ∈ filePaths dirname numbers, s.files p ≠ none)
    (hunlink : ∀ p ∈ filePaths dirname numbers, p.length < filepathSize ∧ env.removable p = true) :
    deleteFiles env dirname numbers s = .ok (true, s.deleted (filePaths dirname numbers)) := by
  induction numbers generalizing s with
  | nil => simp [deleteFiles, System.deleted, filePaths, withFiles_nil]
  | cons number numbers ih =>
    obtain ⟨hnot, hnodup⟩ := List.nodup_cons.mp hnodup
    obtain ⟨hfile₀, hfile⟩ := List.forall_mem_cons.mp hfile
    obtain ⟨⟨hfits, hrem⟩, hunlink⟩ := List.forall_mem_cons.mp hunlink
    rw [deleteFiles, strcpy_eq_ok.mpr ⟨hfits, rfl⟩]
    show (match s.unlink env (filePath dirname number) with | (false, s) => _ | (true, s) => _) = _
    rw [System.unlink_file hfile₀ hrem]
    dsimp only
    rw [ih hnodup ?_ hunlink]
    · rw [← System.deleted_cons]
      rfl
    · intro p hp
      have hne : p ≠ filePath dirname number := ne_of_mem_of_not_mem hp hnot
      exact fun hnone => hfile p hp
        ((withFiles_not_mem (List.mem_singleton.not.mpr hne) _).symm.trans hnone)

end Loops

/-! ## The whole benchmark -/

theorem fileNumbers_perm {env : Env} {n : Nat} (hn : n < 2 ^ 31) (hmax : env.randMax < 2 ^ 31)
    (hrand : ∀ k, env.rand k ≤ env.randMax) (randomize : Bool) :
    ∃ numbers, fileNumbers env n randomize = .ok numbers ∧ numbers.Perm (orderedFileNumbers n) := by
  rw [fileNumbers, toUInt64_natCast (by omega)]
  split
  · have hlen : (orderedFileNumbers n).length = n := by
      rw [orderedFileNumbers, List.length_map, List.length_range, Int.toNat_natCast]
    have hturns : ∀ i < n - 1, TurnOk env.randMax n i (env.rand i) _ :=
      fun i hi => TurnOk.of_rand (by omega) (by omega) hmax (hrand i)
    exact ⟨_, shuffle_eq hturns hlen⟩
  · exact ⟨_, rfl, .refl _⟩

theorem createFiles_perm {env : Env} {n : Nat} {dirname : Bytes} {numbers : List Int} {s : System}
    (hperm : numbers.Perm (orderedFileNumbers n))
    (hnew : ∀ k < n, s.files (filePath dirname k) = none)
    (hopen : ∀ p ∈ filePaths dirname numbers, p.length < filepathSize ∧ env.creatable p = true) :
    ∃ s₁, createFiles env dirname numbers s = .ok (true, s₁) ∧
      s₁.calls = s.calls ++ (filePaths dirname numbers).map (.opened · true) ∧
      s₁.files = withFiles s.files (filePaths dirname (orderedFileNumbers n)) (some []) := by
  have hnames : (filePaths dirname numbers).Perm (filePaths dirname (orderedFileNumbers n)) :=
    hperm.map _
  have hnodup : (filePaths dirname numbers).Nodup :=
    hnames.nodup_iff.mpr (nodup_filePaths dirname n)
  have hnew' : ∀ p ∈ filePaths dirname (orderedFileNumbers n), s.files p = none :=
    forall_filePaths hnew
  exact ⟨_, createFiles_eq hnodup (fun p hp => hnew' p (hnames.mem_iff.mp hp)) hopen, rfl,
    withFiles_perm hnames s.files (some [])⟩

theorem withFiles_undo {fs : FileSys} {names : List Bytes} (hnew : ∀ p ∈ names, fs p = none)
    (contents : Option Bytes) : withFiles (withFiles fs names contents) names none = fs := by
  funext p
  by_cases hp : p ∈ names
  · rw [withFiles_mem hp, hnew p hp]
  · rw [withFiles_not_mem hp, withFiles_not_mem hp]

theorem newNames_eq {fs : FileSys} {names : List Bytes} (hnew : ∀ p ∈ names, fs p = none)
    (contents : Bytes) :
    {p | fs p = none ∧ withFiles fs names (some contents) p ≠ none} = {p | p ∈ names} := by
  ext p
  by_cases hp : p ∈ names
  · simp [withFiles_mem hp, hnew p hp, hp]
  · simp [withFiles_not_mem hp, hp]

theorem ncard_filePaths (dirname : Bytes) (n : Nat) :
    {p | p ∈ filePaths dirname (orderedFileNumbers n)}.ncard = n := by
  have hset : {p | p ∈ filePaths dirname (orderedFileNumbers n)} =
      ((filePaths dirname (orderedFileNumbers n)).toFinset : Set Bytes) := by
    ext p
    simp
  rw [hset, Set.ncard_coe_finset, List.toFinset_card_of_nodup (nodup_filePaths dirname n)]
  simp [filePaths, orderedFileNumbers]

theorem runbenchmark_eq {env : Env} {n : Nat} {randomize : Bool} {dirname : Bytes}
    {numbers : List Int} {s s₁ s₂ : System}
    (hmalloc : env.malloc (toUInt64 (4 * n)) = true)
    (hnumbers : fileNumbers env n randomize = .ok numbers)
    (hcreate : createFiles env dirname numbers s = .ok (true, s₁))
    (hdelete : deleteFiles env dirname (orderedFileNumbers n) s₁ = .ok (true, s₂)) :
    runbenchmark env n randomize dirname .dir s = .ok (0, s₂) := by
  rw [runbenchmark, if_pos hmalloc, if_neg (by simp), hnumbers]
  show (createFiles env dirname numbers s >>= _) = _
  rw [hcreate]
  show (deleteFiles env dirname (orderedFileNumbers n) s₁ >>= _) = _
  rw [hdelete]
  rfl

/-- **The benchmark cleans up after itself.** In a directory with none of the names the run opens
every file once, in some order, and these are `n` new names and nothing else changes; then it
unlinks each of them, every `unlink` finds its file, and afterwards the files are as before. -/
theorem runbenchmark_cleans_up (env : Env) (n : Nat) (hn : n < 2 ^ 31) (randomize : Bool)
    (dirname : Bytes) (s : System)
    (hmalloc : env.malloc (toUInt64 (4 * n)) = true)
    (hmax : 1 ≤ env.randMax ∧ env.randMax < 2 ^ 31) (hrand : ∀ k, env.rand k ≤ env.randMax)
    (hnew : ∀ k < n, s.files (filePath dirname k) = none)
    (hfits : ∀ k < n, (filePath dirname k).length < filepathSize)
    (hcreat : ∀ k < n, env.creatable (filePath dirname k) = true)
    (hrem : ∀ k < n, env.removable (filePath dirname k) = true) :
    ∃ numbers s₁ s₂, fileNumbers env n randomize = .ok numbers ∧
      numbers.Perm (orderedFileNumbers n) ∧
      createFiles env dirname numbers s = .ok (true, s₁) ∧
      s₁.calls = s.calls ++ (filePaths dirname numbers).map (.opened · true) ∧
      {p | s.files p = none ∧ s₁.files p ≠ none} = {p | ∃ k < n, p = filePath dirname k} ∧
      {p | s.files p = none ∧ s₁.files p ≠ none}.ncard = n ∧
      (∀ p, s.files p ≠ none → s₁.files p = s.files p) ∧
      deleteFiles env dirname (orderedFileNumbers n) s₁ = .ok (true, s₂) ∧
      s₂.calls =
        s₁.calls ++ (filePaths dirname (orderedFileNumbers n)).map (.unlinked · true) ∧
      s₂.files = s.files ∧
      runbenchmark env n randomize dirname .dir s = .ok (0, s₂) := by
  obtain ⟨numbers, hnumbers, hperm⟩ := fileNumbers_perm hn hmax.2 hrand randomize
  have hnew' : ∀ p ∈ filePaths dirname (orderedFileNumbers n), s.files p = none :=
    forall_filePaths hnew
  have hopen : ∀ p ∈ filePaths dirname (orderedFileNumbers n),
      p.length < filepathSize ∧ env.creatable p = true :=
    forall_filePaths fun k hk => ⟨hfits k hk, hcreat k hk⟩
  have hunlink : ∀ p ∈ filePaths dirname (orderedFileNumbers n),
      p.length < filepathSize ∧ env.removable p = true :=
    forall_filePaths fun k hk => ⟨hfits k hk, hrem k hk⟩
  obtain ⟨s₁, hcreate, hcalls, hfiles⟩ := createFiles_perm hperm hnew fun p hp =>
    hopen p ((hperm.map (filePath dirname)).mem_iff.mp hp)
  have hfile : ∀ p ∈ filePaths dirname (orderedFileNumbers n), s₁.files p ≠ none := by
    intro p hp
    rw [hfiles, withFiles_mem hp]
    exact Option.some_ne_none _
  have hdelete := deleteFiles_eq (nodup_filePaths dirname n) hfile hunlink
  refine ⟨numbers, s₁, _, hnumbers, hperm, hcreate, hcalls, ?_, ?_, ?_, hdelete, rfl, ?_,
    runbenchmark_eq hmalloc hnumbers hcreate hdelete⟩
  · rw [hfiles, newNames_eq hnew']
    exact Set.ext fun p => mem_filePaths
  · rw [hfiles, newNames_eq hnew', ncard_filePaths]
  · intro p hp
    rw [hfiles]
    exact withFiles_not_mem (fun hmem => hp (hnew' p hmem)) _
  · rw [System.deleted, hfiles, withFiles_undo hnew']

/-- A system on which nothing fails, with the largest random numbers. -/
def plainEnv : Env where
  malloc _ := true
  mkdir := true
  creatable _ := true
  removable _ := true
  randMax := 1
  rand _ := 1

/-- A system without files, before any call. -/
def noFiles : System := ⟨fun _ => none, []⟩

/-- Two files in an empty directory, shuffled. -/
theorem runbenchmark_cleans_up_two :
    ∃ numbers s₁ s₂, fileNumbers plainEnv (2 : Nat) true = .ok numbers ∧
      numbers.Perm (orderedFileNumbers (2 : Nat)) ∧
      createFiles plainEnv (bytesOf "d") numbers noFiles = .ok (true, s₁) ∧
      s₁.calls = [] ++ (filePaths (bytesOf "d") numbers).map (.opened · true) ∧
      {p | noFiles.files p = none ∧ s₁.files p ≠ none} =
        {p | ∃ k < 2, p = filePath (bytesOf "d") (k : Nat)} ∧
      {p | noFiles.files p = none ∧ s₁.files p ≠ none}.ncard = 2 ∧
      (∀ p, noFiles.files p ≠ none → s₁.files p = noFiles.files p) ∧
      deleteFiles plainEnv (bytesOf "d") (orderedFileNumbers (2 : Nat)) s₁ = .ok (true, s₂) ∧
      s₂.calls = s₁.calls ++
        (filePaths (bytesOf "d") (orderedFileNumbers (2 : Nat))).map (.unlinked · true) ∧
      s₂.files = noFiles.files ∧
      runbenchmark plainEnv (2 : Nat) true (bytesOf "d") .dir noFiles = .ok (0, s₂) :=
  runbenchmark_cleans_up plainEnv 2 (by decide) true (bytesOf "d") noFiles rfl (by decide)
    (fun _ => Nat.le_refl 1) (fun _ _ => rfl) (by decide) (fun _ _ => rfl) (fun _ _ => rfl)

/-! ## What the files hold -/

theorem createFiles_empty {env : Env} {n : Nat} {dirname : Bytes} {numbers : List Int}
    {s s₁ : System} (hperm : numbers.Perm (orderedFileNumbers n))
    (hnew : ∀ k < n, s.files (filePath dirname k) = none)
    (hcreate : createFiles env dirname numbers s = .ok (true, s₁)) :
    ∀ k < n, s₁.files (filePath dirname k) = some [] := by
  obtain ⟨s₂, heq, -, hfiles⟩ := createFiles_perm hperm hnew (createFiles_opened hcreate)
  rw [hcreate] at heq
  cases heq
  intro k hk
  rw [hfiles]
  exact withFiles_mem (mem_filePaths.mpr ⟨k, hk, rfl⟩) _

/-- **The files hold the one byte** only when there are no files. -/
theorem files_oneByte_iff (env : Env) (n : Nat) (dirname : Bytes) (numbers : List Int)
    (s s₁ : System) (hperm : numbers.Perm (orderedFileNumbers n))
    (hnew : ∀ k < n, s.files (filePath dirname k) = none)
    (hcreate : createFiles env dirname numbers s = .ok (true, s₁)) :
    (∀ k < n, s₁.files (filePath dirname k) = some fileContents) ↔ n = 0 := by
  constructor
  · intro hbyte
    by_contra hn
    have hpos : 0 < n := Nat.pos_of_ne_zero hn
    have hempty := createFiles_empty hperm hnew hcreate 0 hpos
    rw [hbyte 0 hpos] at hempty
    cases hempty
  · rintro rfl k hk
    exact absurd hk (Nat.not_lt_zero k)

/-- Two files, in the order of their numbers. -/
theorem files_oneByte_two :
    (∀ k < 2, (noFiles.created (filePaths (bytesOf "d") [0, 1])).files
      (filePath (bytesOf "d") (k : Nat)) = some fileContents) ↔ 2 = 0 :=
  files_oneByte_iff plainEnv 2 (bytesOf "d") [0, 1] noFiles _ (.refl _) (fun _ _ => rfl)
    (createFiles_eq (by decide) (fun _ _ => rfl) (by decide))

/-- A single file in an empty directory is left without its byte. -/
theorem not_files_oneByte_one :
    ¬ ∀ (env : Env) (n : Nat) (dirname : Bytes) (numbers : List Int) (s s₁ : System),
      numbers.Perm (orderedFileNumbers n) → (∀ k < n, s.files (filePath dirname k) = none) →
      createFiles env dirname numbers s = .ok (true, s₁) →
      ∀ k < n, s₁.files (filePath dirname k) = some fileContents := by
  intro h
  have hcreate : createFiles plainEnv (bytesOf "d") [0] noFiles = .ok (true, _) :=
    createFiles_eq (by decide) (fun _ _ => rfl) (by decide)
  have hbyte := h plainEnv 1 (bytesOf "d") [0] noFiles _ (.refl _) (fun _ _ => rfl) hcreate
    0 Nat.one_pos
  have hempty :=
    @createFiles_empty plainEnv 1 _ _ _ _ (.refl _) (fun _ _ => rfl) hcreate 0 Nat.one_pos
  rw [hbyte] at hempty
  cases hempty

end Tlpi.Benchmark
