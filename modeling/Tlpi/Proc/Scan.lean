import Tlpi.Proc.Status
import Tlpi.Proc.PsTree

/-!
# Scanning `/proc`

The three programs of `12-system-and-process-information` that walk `/proc`: `pstree` catalogues
every process (`catalog_process`), `proclist` prints those of a user (`check_dir`) and `sherlock`
those that have a file open (`check_process`, then `print_proc`). A path only selects the file
that is opened, so an entry is given by what its files hold, `none` for a file that does not
exist (any more).

None of the programs closes what it opens for an entry. The descriptors in use therefore grow
with every process met (`Program.scan_takes`), and once the table is full the processes that follow
are taken for vanished ones.
-/

namespace Tlpi.Proc

open Tlpi.Lib

inductive DType where
  | dir
  | lnk
  | other
  deriving DecidableEq

/-- An entry of `/proc/PID/fd`, with what `readlink` finds. -/
structure FdEntry where
  dType : DType
  target : Option Bytes

/-- An entry of `/proc`. -/
structure Entry where
  dType : DType
  status : Option Bytes
  fd : Option (List FdEntry)

/-- The descriptors in use, their limit, and how many opens of an existing file have failed for
lack of a descriptor. -/
structure Table where
  opened : Nat
  limit : Nat
  refused : Nat

/-- `fopen` -/
def Table.fopen {α : Type} (t : Table) : Option α → Option α × Table
  | none => (none, t)
  | some file =>
    if t.opened < t.limit then (some file, { t with opened := t.opened + 1 })
    else (none, { t with refused := t.refused + 1 })

/-- `opendir`: a directory stream holds a descriptor like a file does. -/
def Table.opendir {α : Type} (t : Table) (dir : Option α) : Option α × Table := t.fopen dir

/-- The list of nodes (`pstree`), what has been printed, and the descriptors. -/
structure State where
  heap : PsTree.Heap
  out : Bytes
  table : Table

/-! ## The programs -/

/-- What `catalog_process`, `check_dir` and `print_proc` have in common: open the status file,
fill the local variables from its lines and act on them. -/
def withStatus (assign : Fields → Bytes → Bytes → Except Fault Fields)
    (act : Fields → State → Except Fault State) (status : Option Bytes) (s : State) :
    Except Fault State :=
  match s.table.fopen status with
  | (none, table) => .ok { s with table }
  | (some file, table) => do
    let v ← readStatus assign file .start
    act v { s with table }

def catalogAssign (v : Fields) (key value : Bytes) : Except Fault Fields := do
  if key = bytesOf "Pid" then return { v with pid := some (← strcpy 32 value) }
  else if key = bytesOf "PPid" then return { v with ppid := some (← strcpy 32 value) }
  else if key = bytesOf "Name" then return { v with procname := some (← strcpy 256 value) }
  else return v

/-- `catalog_process(dirname)`, with the `strcpy` of `ll_create_and_insert`. -/
def catalogProcess : Option Bytes → State → Except Fault State :=
  withStatus catalogAssign fun v s => do
    let procname ← assigned v.procname
    let pid ← assigned v.pid
    let ppid ← assigned v.ppid
    let name ← strcpy PsTree.NAME_SIZE procname
    return { s with heap := s.heap.llCreateAndInsert ⟨name, atoi pid, atoi ppid⟩ }

def checkDirAssign (uidstr : Bytes) (v : Fields) (key value : Bytes) : Except Fault Fields := do
  let v := if key = bytesOf "Uid" ∧ uidstr <:+: value then { v with keepme := true } else v
  let v ← if key = bytesOf "Name" then
      do pure { v with procname := some (← strcpy 256 value) }
    else pure v
  if key = bytesOf "Pid" then return { v with pid := some (← strcpy 32 value) } else return v

/-- `check_dir(dirname, uid)`; `uid` is printed with `%d`. -/
def checkDir (uid : Nat) : Option Bytes → State → Except Fault State :=
  withStatus (checkDirAssign (bytesOf (toString (toInt32 uid)))) fun v s => do
    if v.keepme then
      let pid ← assigned v.pid
      let procname ← assigned v.procname
      return { s with out := s.out ++ pid ++ bytesOf ": " ++ procname ++ bytesOf "\n" }
    else return s

def printProcAssign (v : Fields) (key value : Bytes) : Except Fault Fields := do
  if key = bytesOf "Pid" then return { v with pid := some (← strcpy 32 value) }
  else if key = bytesOf "Name" then return { v with procname := some (← strcpy 256 value) }
  else return v

/-- `print_proc(dirname)` -/
def printProc : Option Bytes → State → Except Fault State :=
  withStatus printProcAssign fun v s => do
    let procname ← assigned v.procname
    let pid ← assigned v.pid
    return { s with out := s.out ++ procname ++ bytesOf " (pid: " ++ pid ++ bytesOf ")\n" }

/-- One turn of the loop of `check_process`: whether it returns 0. The target is cut to the size
of `linktarget`. -/
def linkMatches (pathname : Bytes) (e : FdEntry) : Bool :=
  match e.dType, e.target with
  | .lnk, some target =>
    let linktarget := target.take (1024 - 1)
    linktarget.length > 0 && linktarget.takeWhile (· ≠ 0) = pathname
  | _, _ => false

/-- `check_process(dirname, match)` -/
def checkProcess (pathname : Bytes) (fd : Option (List FdEntry)) (s : State) : Int × State :=
  match s.table.opendir fd with
  | (none, table) => (1, { s with table })
  | (some links, table) => (if links.any (linkMatches pathname) then 0 else 1, { s with table })

inductive Program where
  | pstree
  | proclist (uid : Nat)
  | sherlock (pathname : Bytes)

/-- The entries that the loop of `main` looks at. -/
def Program.accepts : Program → DType → Bool
  | .pstree, t => t = .dir
  | .proclist _, t => t = .dir || t = .lnk
  | .sherlock _, t => t = .dir

/-- What the loop of `main` does with an entry that it accepts. -/
def Program.handle : Program → Entry → State → Except Fault State
  | .pstree, e, s => catalogProcess e.status s
  | .proclist uid, e, s => checkDir uid e.status s
  | .sherlock pathname, e, s =>
    let (ret, s) := checkProcess pathname e.fd s
    if ret = 0 then printProc e.status s else .ok s

def Program.step (p : Program) (s : State) (e : Entry) : Except Fault State :=
  if p.accepts e.dType then p.handle e s else .ok s

/-- The loop of `main`. -/
def Program.scan (p : Program) (entries : List Entry) (s : State) : Except Fault State :=
  entries.foldlM p.step s

/-! ## Descriptors -/

section Handlers

variable {status : Option Bytes} {s s' : State}

theorem withStatus_table {assign : Fields → Bytes → Bytes → Except Fault Fields}
    {act : Fields → State → Except Fault State}
    (hact : ∀ {v s s'}, act v s = .ok s' → s'.table = s.table)
    (h : withStatus assign act status s = .ok s') : s'.table = (s.table.fopen status).2 := by
  unfold withStatus at h
  split at h
  · next heq =>
    cases h
    rw [heq]
  · next heq =>
    obtain ⟨v, -, h⟩ := bind_eq_ok.mp h
    rw [hact h, heq]

theorem catalogProcess_table (h : catalogProcess status s = .ok s') :
    s'.table = (s.table.fopen status).2 := by
  refine withStatus_table (fun {v s s'} hact => ?_) h
  simp only [bind_eq_ok] at hact
  obtain ⟨procname, -, pid, -, ppid, -, name, -, hact⟩ := hact
  cases hact
  rfl

theorem checkDir_table {uid : Nat} (h : checkDir uid status s = .ok s') :
    s'.table = (s.table.fopen status).2 := by
  refine withStatus_table (fun {v s s'} hact => ?_) h
  split at hact
  · simp only [bind_eq_ok] at hact
    obtain ⟨pid, -, procname, -, hact⟩ := hact
    cases hact
    rfl
  · cases hact
    rfl

theorem printProc_table (h : printProc status s = .ok s') :
    s'.table = (s.table.fopen status).2 := by
  refine withStatus_table (fun {v s s'} hact => ?_) h
  simp only [bind_eq_ok] at hact
  obtain ⟨procname, -, pid, -, hact⟩ := hact
  cases hact
  rfl

theorem checkProcess_table (pathname : Bytes) (fd : Option (List FdEntry)) (s : State) :
    (checkProcess pathname fd s).2.table = (s.table.opendir fd).2 := by
  unfold checkProcess
  split <;> next heq => rw [heq]

end Handlers

theorem Table.le_opened_fopen {α : Type} (t : Table) (file : Option α) :
    t.opened ≤ (t.fopen file).2.opened := by
  unfold Table.fopen
  split
  · exact Nat.le_refl _
  · split
    · exact Nat.le_succ _
    · exact Nat.le_refl _

theorem Table.lt_opened_fopen {α : Type} {t : Table} {file : Option α} (h : file.isSome)
    (hroom : t.opened < t.limit) : t.opened < (t.fopen file).2.opened := by
  obtain ⟨f, rfl⟩ := Option.isSome_iff_exists.mp h
  rw [Table.fopen, if_pos hroom]
  exact Nat.lt_succ_self _

/-- The file or directory that a program opens first for an entry exists. -/
def Program.present : Program → Entry → Bool
  | .pstree, e => e.status.isSome
  | .proclist _, e => e.status.isSome
  | .sherlock _, e => e.fd.isSome

theorem Program.handle_absent {p : Program} {e : Entry} (h : p.present e = false) (s : State) :
    p.handle e s = .ok s := by
  cases p with
  | pstree =>
    show catalogProcess e.status s = .ok s
    rw [Option.isNone_iff_eq_none.mp (Option.isSome_eq_false_iff.mp h)]
    rfl
  | proclist uid =>
    show checkDir uid e.status s = .ok s
    rw [Option.isNone_iff_eq_none.mp (Option.isSome_eq_false_iff.mp h)]
    rfl
  | sherlock pathname =>
    rw [Program.handle, Option.isNone_iff_eq_none.mp (Option.isSome_eq_false_iff.mp h)]
    rfl

/-- **The leak.** Handling an entry whose files exist uses up a descriptor. -/
theorem Program.handle_leaks {p : Program} {e : Entry} {s s' : State} (h : p.present e = true)
    (hroom : s.table.opened < s.table.limit) (hok : p.handle e s = .ok s') :
    s.table.opened < s'.table.opened := by
  cases p with
  | pstree =>
    rw [catalogProcess_table hok]
    exact Table.lt_opened_fopen h hroom
  | proclist uid =>
    rw [checkDir_table hok]
    exact Table.lt_opened_fopen h hroom
  | sherlock pathname =>
    have hopen : s.table.opened < (checkProcess pathname e.fd s).2.table.opened := by
      rw [checkProcess_table]
      exact Table.lt_opened_fopen h hroom
    simp only [Program.handle] at hok
    split at hok
    · rw [printProc_table hok]
      exact hopen.trans_le (Table.le_opened_fopen _ _)
    · cases hok
      exact hopen

/-- The scan holds no descriptor from one entry to the next: as many are in use after an entry
as before it, and no existing process is passed over for lack of one. -/
def Program.HoldsNone (p : Program) (entries : List Entry) (s : State) : Prop :=
  ∀ pre e post, entries = pre ++ e :: post → ∃ s₁ s₂, p.scan pre s = .ok s₁ ∧ p.step s₁ e = .ok s₂ ∧
    s₂.table.opened = s₁.table.opened ∧ s₂.table.refused = s₁.table.refused

theorem Program.scan_cons {p : Program} {e : Entry} {s t : State} (h : p.step s e = .ok t)
    (entries : List Entry) : p.scan (e :: entries) s = p.scan entries t := by
  rw [Program.scan, List.foldlM_cons, h]
  rfl

theorem Program.holdsNone_cons {p : Program} {e : Entry} {s t : State} (h : p.step s e = .ok t)
    (hopened : t.table.opened = s.table.opened) (hrefused : t.table.refused = s.table.refused)
    (entries : List Entry) : p.HoldsNone (e :: entries) s ↔ p.HoldsNone entries t := by
  constructor
  · intro hall pre e' post heq
    have := hall (e :: pre) e' post (by rw [heq, List.cons_append])
    rwa [scan_cons h] at this
  · intro hall pre e' post heq
    cases pre with
    | nil =>
      obtain ⟨rfl, -⟩ : e = e' ∧ entries = post := by simpa using heq
      exact ⟨s, t, rfl, h, hopened, hrefused⟩
    | cons a pre =>
      obtain ⟨rfl, htail⟩ : e = a ∧ entries = pre ++ e' :: post := by simpa using heq
      rw [scan_cons h]
      exact hall pre e' post htail

/-- **When a scan holds no descriptors**: exactly when no entry that it accepts exists any more. -/
theorem Program.holdsNone_iff (p : Program) (entries : List Entry) (s : State)
    (hroom : s.table.opened < s.table.limit) :
    p.HoldsNone entries s ↔ ∀ e ∈ entries, p.accepts e.dType = true → p.present e = false := by
  induction entries with
  | nil => simp [Program.HoldsNone]
  | cons e entries ih =>
    rw [List.forall_mem_cons]
    by_cases hskip : p.accepts e.dType = true → p.present e = false
    · have hstep : p.step s e = .ok s := by
        unfold Program.step
        split
        · next hacc => exact handle_absent (hskip hacc) s
        · rfl
      rw [holdsNone_cons hstep rfl rfl, ih]
      exact ⟨fun h => ⟨hskip, h⟩, And.right⟩
    · refine ⟨fun hall => absurd ?_ hskip, fun h => absurd h.1 hskip⟩
      obtain ⟨s₁, s₂, hscan, hstep, hopened, -⟩ := hall [] e entries rfl
      cases hscan
      intro hacc
      by_contra hpresent
      rw [Program.step, if_pos hacc] at hstep
      have := handle_leaks (by simpa using hpresent) hroom hstep
      omega

/-- One process whose status file is gone by the time it is opened, and one that is not a
directory. -/
theorem holdsNone_vanished :
    Program.HoldsNone .pstree [⟨.dir, none, some []⟩, ⟨.other, some [], none⟩]
      ⟨.empty, [], ⟨4, 1024, 0⟩⟩ :=
  (Program.holdsNone_iff .pstree _ _ (by decide)).mpr (by decide)

/-- A single live process: its status file is still open when the next entry is read. -/
theorem not_holdsNone_live : ¬ ∀ (p : Program) (entries : List Entry) (s : State),
    s.table.opened < s.table.limit → p.HoldsNone entries s := by
  intro h
  have hlive := h .pstree [⟨.dir, some (bytesOf "Name:\tinit\nPid:\t1\nPPid:\t0\n"), some []⟩]
    ⟨.empty, [], ⟨4, 1024, 0⟩⟩ (by decide)
  obtain ⟨s₁, s₂, hscan, hstep, hopened, -⟩ := hlive [] _ [] rfl
  cases hscan
  rw [Program.step, if_pos (by decide)] at hstep
  have := Program.handle_leaks rfl (by decide) hstep
  omega

/-! ## A whole scan -/

/-- From `t` to `t'` at least `n` opens of existing files have taken a descriptor for good or
have been refused one. -/
structure Table.Takes (t t' : Table) (n : Nat) : Prop where
  limit : t'.limit = t.limit
  le_limit : t.opened ≤ t.limit → t'.opened ≤ t.limit
  count : t.opened + t.refused + n ≤ t'.opened + t'.refused

theorem Table.Takes.refl (t : Table) : t.Takes t 0 := ⟨rfl, id, Nat.le_refl _⟩

theorem Table.Takes.trans {t u v : Table} {m n : Nat} (h : t.Takes u m) (h' : u.Takes v n) :
    t.Takes v (m + n) where
  limit := h'.limit.trans h.limit
  le_limit := fun hle => by
    have hu := h.le_limit hle
    rw [← h.limit] at hu ⊢
    exact h'.le_limit hu
  count := by
    have h1 := h.count
    have h2 := h'.count
    omega

theorem Table.fopen_takes {α : Type} (t : Table) (file : Option α) :
    t.Takes (t.fopen file).2 (if file.isSome then 1 else 0) := by
  cases file with
  | none => exact .refl t
  | some f =>
    rw [Table.fopen]
    split
    · next hroom => exact ⟨rfl, fun _ => hroom, by simp only [Option.isSome_some, if_true]; omega⟩
    · exact ⟨rfl, id, Nat.le_refl _⟩

theorem Program.handle_takes {p : Program} {e : Entry} {s s' : State}
    (hok : p.handle e s = .ok s') :
    s.table.Takes s'.table (if p.present e then 1 else 0) := by
  cases p with
  | pstree =>
    rw [catalogProcess_table hok]
    exact Table.fopen_takes _ _
  | proclist uid =>
    rw [checkDir_table hok]
    exact Table.fopen_takes _ _
  | sherlock pathname =>
    have hopen : s.table.Takes (checkProcess pathname e.fd s).2.table
        (if e.fd.isSome then 1 else 0) := by
      rw [checkProcess_table]
      exact Table.fopen_takes _ _
    simp only [Program.handle] at hok
    split at hok
    · rw [printProc_table hok]
      have h := hopen.trans (Table.fopen_takes _ e.status)
      exact ⟨h.limit, h.le_limit, (Nat.add_le_add_left (Nat.le_add_right _ _) _).trans h.count⟩
    · cases hok
      exact hopen

/-- **A whole scan**: every existing process that it meets takes a descriptor for good or is
passed over for lack of one, so at most `limit - opened` of them are seen. -/
theorem Program.scan_takes {p : Program} {entries : List Entry} {s s' : State}
    (hok : p.scan entries s = .ok s') :
    s.table.Takes s'.table (entries.countP fun e => p.accepts e.dType && p.present e) := by
  induction entries generalizing s with
  | nil =>
    cases hok
    exact .refl _
  | cons e entries ih =>
    obtain ⟨t, hstep, htail⟩ := bind_eq_ok.mp hok
    rw [List.countP_cons, Nat.add_comm]
    refine Table.Takes.trans ?_ (ih htail)
    unfold Program.step at hstep
    split at hstep
    · next hacc => simpa [hacc] using handle_takes hstep
    · next hacc =>
      cases hstep
      simpa [hacc] using Table.Takes.refl s.table

end Tlpi.Proc
