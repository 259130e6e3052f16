import Tlpi.Lib.Lts
import Tlpi.Lib.File
import Tlpi.Lib.CString
import Tlpi.Lib.Threads

/-!
# A single instance by a locked PID file

`createPidFile` of `tlpi-dist/lib/create_pid_file.c` with `lockRegion` of
`tlpi-dist/lib/region_locking.c`, in any number of processes that may start at any time and be
killed at any time. A process that comes back from it runs, deletes the file just before it ends, as
the comment asks, and ends; a process that finds the file locked ends at once.

The lock is on the file, not on its name. While the name stands for the file that a process has
open, there is one instance (`Current`), and the file holds its PID. But a file that is
deleted between another process's `open` and its lock is locked by that process and
open to nobody else, and the next one makes a new file (`one_instance_iff`). And a process that has
deleted the file is alive until it ends, while another one may already run.
-/

namespace Tlpi.PidFile

open Tlpi.Lib

/-- A process, with the number of the file that it has open. -/
inductive Pc where
  | open
  /-- At `lockRegion`. -/
  | lock (k : Nat)
  /-- At `ftruncate`. -/
  | truncate (k : Nat)
  | write (k : Nat)
  /-- `createPidFile` has returned. -/
  | running (k : Nat)
  /-- The file has been deleted. -/
  | deleted (k : Nat)
  | ended
  deriving DecidableEq

/-- `pidFile` and the files that it has stood for: their contents, and who has a write lock on all
of them. -/
structure Files (ι : Type*) where
  pidFile : Option Nat
  fresh : Nat
  content : Nat → Bytes
  locks : Nat → Option ι

abbrev Sys (ι : Type*) := Conf ι (Files ι) Pc

inductive Act (ι : Type*) where
  | go (i : ι)
  | kill (i : ι)

variable {ι : Type*} [DecidableEq ι] (pid : ι → Nat)

/-- `"%ld\n"` -/
def buf (i : ι) : Bytes := decimal (pid i) ++ [newline]

/-- `lockRegion(fd, F_WRLCK, SEEK_SET, 0, 0)` -/
def lockRegion (fs : Files ι) (i : ι) (k : Nat) : Option (Files ι) :=
  if fs.locks k = none ∨ fs.locks k = some i then
    some { fs with locks := Function.update fs.locks k (some i) }
  else none

/-- The locks of a process go with it. -/
def exit (fs : Files ι) (i : ι) : Files ι :=
  { fs with locks := fun k => if fs.locks k = some i then none else fs.locks k }

def createPidFile (i : ι) (fs : Files ι) : Pc → Option (Files ι × Pc)
  | .open =>
    match fs.pidFile with
    | some k => some (fs, .lock k)
    | none => some ({ fs with
        pidFile := some fs.fresh, fresh := fs.fresh + 1
        content := Function.update fs.content fs.fresh [] }, .lock fs.fresh)
  | .lock k =>
    match lockRegion fs i k with
    | some fs' => some (fs', .truncate k)
    | none => some (exit fs i, .ended)
  | .truncate k => some ({ fs with content := Function.update fs.content k [] }, .write k)
  | .write k =>
    some ({ fs with
      content := Function.update fs.content k (pwrite (fs.content k) 0 (buf pid i)) }, .running k)
  | .running k => some ({ fs with pidFile := none }, .deleted k)
  | .deleted _ => some (exit fs i, .ended)
  | .ended => none

def exec (c : Sys ι) : Act ι → Option (Sys ι)
  | .go i => (createPidFile pid i c.shared (c.own i)).map fun r => c.set i r.1 r.2
  | .kill i => some (c.set i (exit c.shared i) .ended)

def Step (c : Sys ι) (a : Act ι) (c' : Sys ι) : Prop := exec pid c a = some c'

/-- No process has started; the file may be there. -/
def start (pidFile : Option Bytes) : Sys ι where
  shared := {
    pidFile := pidFile.map fun _ => 0, fresh := 1
    content := fun _ => pidFile.getD [], locks := fun _ => none }
  own _ := .open

/-- It is past `createPidFile` and has not deleted the file yet. -/
def Running (c : Sys ι) (i : ι) : Prop := ∃ k, c.own i = .running k

/-- It is past `createPidFile` and has not ended, whether it has deleted the file or not. -/
def Alive (c : Sys ι) (i : ι) : Prop := ∃ k, c.own i = .running k ∨ c.own i = .deleted k

/-! ## What every step keeps -/

variable {pid} {c c' : Sys ι} {i : ι}

/-- The file that a process has open and may lock or has locked. -/
def Pc.opened : Pc → Option Nat
  | .lock k | .truncate k | .write k | .running k | .deleted k => some k
  | .open | .ended => none

/-- The file that a process has a lock on. -/
def Pc.holds : Pc → Option Nat
  | .truncate k | .write k | .running k | .deleted k => some k
  | .open | .lock _ | .ended => none

/-- The file that a process takes for `pidFile`. -/
def Pc.trusts : Pc → Option Nat
  | .lock k | .truncate k | .write k | .running k => some k
  | .open | .deleted _ | .ended => none

theorem opened_of_holds {pc : Pc} {k : Nat} (h : pc.holds = some k) : pc.opened = some k := by
  cases pc <;> simp [Pc.holds, Pc.opened] at h ⊢ <;> exact h

structure Inv (pid : ι → Nat) (c : Sys ι) : Prop where
  locks : ∀ i k, (c.own i).holds = some k ↔ c.shared.locks k = some i
  fresh : ∀ k, c.shared.pidFile = some k → k < c.shared.fresh
  opened : ∀ i k, (c.own i).opened = some k → k < c.shared.fresh
  empty : ∀ i k, c.own i = .write k → c.shared.content k = []
  content : ∀ i k, c.own i = .running k → c.shared.content k = buf pid i

omit [DecidableEq ι] in
theorem inv_start (pidFile : Option Bytes) : Inv pid (start pidFile : Sys ι) where
  locks i k := by simp [start, Pc.holds]
  fresh k h := by
    cases pidFile <;> simp [start] at h ⊢
    omega
  opened i k h := by simp [start, Pc.opened] at h
  empty i k h := by simp [start] at h
  content i k h := by simp [start] at h

/-- The steps of a process, one constructor for each. -/
inductive ProcStep (pid : ι → Nat) (i : ι) (fs : Files ι) : Pc → Files ι → Pc → Prop where
  | reopen {k : Nat} (hf : fs.pidFile = some k) : ProcStep pid i fs .open fs (.lock k)
  | create (hf : fs.pidFile = none) :
      ProcStep pid i fs .open { fs with
        pidFile := some fs.fresh, fresh := fs.fresh + 1
        content := Function.update fs.content fs.fresh [] } (.lock fs.fresh)
  | lock {k : Nat} (hl : fs.locks k = none ∨ fs.locks k = some i) :
      ProcStep pid i fs (.lock k)
        { fs with locks := Function.update fs.locks k (some i) } (.truncate k)
  | fatal {k : Nat} : ProcStep pid i fs (.lock k) (exit fs i) .ended
  | truncate {k : Nat} :
      ProcStep pid i fs (.truncate k)
        { fs with content := Function.update fs.content k [] } (.write k)
  | write {k : Nat} :
      ProcStep pid i fs (.write k) { fs with
        content := Function.update fs.content k (pwrite (fs.content k) 0 (buf pid i)) } (.running k)
  | delete {k : Nat} : ProcStep pid i fs (.running k) { fs with pidFile := none } (.deleted k)
  | exit {pc : Pc} : ProcStep pid i fs pc (exit fs i) .ended

theorem procStep {fs fs' : Files ι} {pc pc' : Pc}
    (h : createPidFile pid i fs pc = some (fs', pc')) : ProcStep pid i fs pc fs' pc' := by
  cases pc with
  | «open» =>
    simp only [createPidFile] at h
    split at h <;> cases h
    · exact .reopen ‹_›
    · exact .create ‹_›
  | lock k =>
    simp only [createPidFile, lockRegion] at h
    by_cases hl : fs.locks k = none ∨ fs.locks k = some i
    · rw [if_pos hl] at h
      cases h
      exact .lock hl
    · rw [if_neg hl] at h
      cases h
      exact .fatal
  | truncate k => cases h; exact .truncate
  | write k => cases h; exact .write
  | running k => cases h; exact .delete
  | deleted k => cases h; exact .exit
  | ended => cases h

theorem Inv.set (h : Inv pid c) {fs : Files ι} {pc : Pc}
    (hlocks : ∀ j, j ≠ i → ∀ k, fs.locks k = some j ↔ c.shared.locks k = some j)
    (hi : ∀ k, pc.holds = some k ↔ fs.locks k = some i)
    (hle : c.shared.fresh ≤ fs.fresh) (hfile : ∀ k, fs.pidFile = some k → k < fs.fresh)
    (hopened : ∀ k, pc.opened = some k → k < fs.fresh)
    (hcontent : ∀ j k, j ≠ i → (c.own j).holds = some k → fs.content k = c.shared.content k)
    (hempty : ∀ k, pc = .write k → fs.content k = [])
    (hrunning : ∀ k, pc = .running k → fs.content k = buf pid i) : Inv pid (c.set i fs pc) where
  locks := (c.forall_set i fs pc (P := fun j t => ∀ k, t.holds = some k ↔ fs.locks k = some j)).mpr
    ⟨hi, fun j hj k => (h.locks j k).trans (hlocks j hj k).symm⟩
  fresh := hfile
  opened := (c.forall_set i fs pc (P := fun _ t => ∀ k, t.opened = some k → k < fs.fresh)).mpr
    ⟨hopened, fun j _ k hk => (h.opened j k hk).trans_le hle⟩
  empty := (c.forall_set i fs pc (P := fun _ t => ∀ k, t = .write k → fs.content k = [])).mpr
    ⟨hempty, fun j hj k hk => (hcontent j k hj (by rw [hk]; rfl)).trans (h.empty j k hk)⟩
  content := (c.forall_set i fs pc
    (P := fun j t => ∀ k, t = .running k → fs.content k = buf pid j)).mpr
    ⟨hrunning, fun j hj k hk => (hcontent j k hj (by rw [hk]; rfl)).trans (h.content j k hk)⟩

theorem exit_locks {fs : Files ι} {j : ι} {k : Nat} :
    (exit fs i).locks k = some j ↔ j ≠ i ∧ fs.locks k = some j := by
  simp only [exit]
  split
  · next hi => simp [hi, eq_comm]
  · next hi => exact ⟨fun hj => ⟨fun he => hi (he ▸ hj), hj⟩, And.right⟩

theorem Inv.exit (h : Inv pid c) : Inv pid (c.set i (exit c.shared i) .ended) :=
  h.set (fun j hj k => by simp [exit_locks, hj]) (fun k => by simp [exit_locks, Pc.holds]) le_rfl
    h.fresh (by simp [Pc.opened]) (fun _ _ _ _ => rfl) (by simp) (by simp)

omit [DecidableEq ι] in
theorem Inv.holds_ne (h : Inv pid c) {j : ι} {k : Nat} (hj : j ≠ i) (hi : (c.own i).holds = some k)
    (hk : (c.own j).holds = some k) : False := by
  have h1 := (h.locks i k).mp hi
  have h2 := (h.locks j k).mp hk
  exact hj (Option.some.inj (h2.symm.trans h1))

theorem Inv.store (h : Inv pid c) {k : Nat} {pc : Pc} {b : Bytes} (hk : (c.own i).holds = some k)
    (hpc : (pc = .write k ∧ b = []) ∨ (pc = .running k ∧ b = buf pid i)) :
    Inv pid (c.set i { c.shared with content := Function.update c.shared.content k b } pc) := by
  have hpcs : pc.holds = some k ∧ pc.opened = some k := by
    rcases hpc with ⟨rfl, -⟩ | ⟨rfl, -⟩ <;> exact ⟨rfl, rfl⟩
  refine h.set (fun _ _ _ => Iff.rfl) (fun k' => by rw [hpcs.1, ← hk]; exact h.locks i k') le_rfl
    h.fresh (fun k' hk' => h.opened i k' ?_) (fun j k' hj hk' => Function.update_of_ne ?_ ..)
    (fun k' hk' => ?_) fun k' hk' => ?_
  · rw [← hpcs.2.symm.trans hk']
    exact opened_of_holds hk
  · rintro rfl
    exact h.holds_ne hj hk hk'
  all_goals
    rcases hpc with ⟨rfl, rfl⟩ | ⟨rfl, rfl⟩ <;> cases hk'
    exact Function.update_self ..

theorem Inv.proc_step (h : Inv pid c) {fs : Files ι} {pc : Pc}
    (hs : ProcStep pid i c.shared (c.own i) fs pc) : Inv pid (c.set i fs pc) := by
  have hi := h.locks i
  have hopen := h.opened i
  generalize hpc : c.own i = pc0 at hs hi hopen
  cases hs with
  | reopen hf =>
    refine h.set (fun _ _ _ => Iff.rfl) (fun k => by rw [← hi]; simp [Pc.holds]) le_rfl h.fresh
      (fun k hk => ?_) (fun _ _ _ _ => rfl) (by simp) (by simp)
    cases hk
    exact h.fresh _ hf
  | create hf =>
    refine h.set (fun _ _ _ => Iff.rfl) (fun k => by rw [← hi]; simp [Pc.holds]) (Nat.le_succ _)
      (fun k hk => ?_) (fun k hk => ?_)
      (fun j k _ hk => Function.update_of_ne (ne_of_lt (h.opened j k (opened_of_holds hk))) ..)
      (by simp) (by simp)
    · cases hk
      exact Nat.lt_succ_self _
    · cases hk
      exact Nat.lt_succ_self _
  | @lock k hl =>
    refine h.set (fun j hj k' => ?_) (fun k' => ?_) le_rfl h.fresh hopen (fun _ _ _ _ => rfl)
      (by simp) (by simp)
    · dsimp only
      rw [Function.update_apply]
      split
      · next he =>
        subst he
        rcases hl with hl | hl <;> simp [hl, hj.symm]
      · rfl
    · dsimp only
      rw [Function.update_apply]
      split
      · next he => simp [he, Pc.holds]
      · next he =>
        have := hi k'
        simp only [Pc.holds, reduceCtorEq, false_iff, Option.some.injEq] at this ⊢
        simp [this, Ne.symm he]
  | fatal | exit => exact h.exit
  | truncate => exact h.store (by rw [hpc]; rfl) (.inl ⟨rfl, rfl⟩)
  | @write k =>
    have he : pwrite (c.shared.content k) 0 (buf pid i) = buf pid i := by
      rw [h.empty i k hpc]
      simp [pwrite, buf]
    rw [he]
    exact h.store (by rw [hpc]; rfl) (.inr ⟨rfl, rfl⟩)
  | delete =>
    exact h.set (fun _ _ _ => Iff.rfl) hi le_rfl (by simp) hopen (fun _ _ _ _ => rfl)
      (by simp) (by simp)

theorem Inv.step {a : Act ι} (h : Inv pid c) (hs : Step pid c a c') : Inv pid c' := by
  cases a with
  | go i =>
    obtain ⟨⟨fs, pc⟩, hl, rfl⟩ := Option.map_eq_some_iff.mp hs
    exact h.proc_step (procStep hl)
  | kill i =>
    cases hs
    exact h.exit

theorem Inv.reaches (h : Inv pid c) (hr : Reaches (Step pid) c c') : Inv pid c' := by
  obtain ⟨as, hr⟩ := hr
  exact hr.invariant (fun _ _ _ h hs => h.step hs) h

theorem inv_of_reaches {pidFile : Option Bytes} (h : Reaches (Step pid) (start pidFile) c) :
    Inv pid c := (inv_start pidFile).reaches h

/-! ## One instance -/

/-- `pidFile` stands for the file of every process that takes it for that. -/
def Current (c : Sys ι) : Prop := ∀ i k, (c.own i).trusts = some k → c.shared.pidFile = some k

/-- The file is deleted only while no process is between `open` and its lock. -/
def Quiet (c : Sys ι) (a : Act ι) : Prop :=
  ∀ i, a = .go i → Running c i → ∀ j k, c.own j ≠ .lock k

theorem current_set {fs : Files ι} {pc : Pc}
    (hi : ∀ k, pc.trusts = some k → fs.pidFile = some k)
    (hf : ∀ j k, j ≠ i → (c.own j).trusts = some k → fs.pidFile = some k) :
    Current (c.set i fs pc) :=
  (c.forall_set i fs pc (P := fun _ t => ∀ k, t.trusts = some k → fs.pidFile = some k)).mpr
    ⟨hi, fun j hj k => hf j k hj⟩

theorem Current.proc_step (hc : Current c) (h : Inv pid c) {fs : Files ι} {pc : Pc}
    (hs : ProcStep pid i c.shared (c.own i) fs pc)
    (hq : Running c i → ∀ j k, c.own j ≠ .lock k) : Current (c.set i fs pc) := by
  have hi := hc i
  generalize hpc : c.own i = pc0 at hs hi
  cases hs with
  | reopen hf => exact current_set (fun k hk => by cases hk; exact hf) fun j k _ => hc j k
  | create hf =>
    refine current_set (fun k hk => hk) fun j k _ hk => ?_
    have := hc j k hk
    rw [hf] at this
    cases this
  | lock | truncate | write => exact current_set hi fun j k _ => hc j k
  | fatal | exit => exact current_set (by simp [Pc.trusts]) fun j k _ => hc j k
  | @delete k =>
    refine current_set (by simp [Pc.trusts]) fun j k' hj hk' => ?_
    -- the other process would have locked the file
    have hk : k' = k := Option.some.inj ((hc j k' hk').symm.trans (hi k rfl))
    have hlock := hq ⟨k, hpc⟩ j k'
    have hj' : (c.own j).holds = some k := by
      cases hj : c.own j <;> simp [hj, Pc.trusts, Pc.holds] at hk' hlock ⊢ <;> omega
    exact (h.holds_ne hj (by rw [hpc]; rfl) hj').elim

omit [DecidableEq ι] in
theorem Current.unique (hc : Current c) (h : Inv pid c) {i j : ι} (hi : Running c i)
    (hj : Running c j) : i = j := by
  obtain ⟨k, hi⟩ := hi
  obtain ⟨k', hj⟩ := hj
  have h1 := hc i k (by rw [hi]; rfl)
  have h2 := hc j k' (by rw [hj]; rfl)
  cases h1.symm.trans h2
  by_contra hne
  exact h.holds_ne (Ne.symm hne) (by rw [hi]; rfl) (by rw [hj]; rfl)

/-- **One instance**: in every run in which the file is deleted only while nobody is between `open`
and the lock, whoever is killed, at most one process is past `createPidFile` without having deleted
the file, and the file holds its PID. -/
theorem one_instance_of_quiet (pid : ι → Nat) (pidFile : Option Bytes) :
    ∀ c, Reaches (Guarded (Step pid) Quiet) (start pidFile) c →
      (∀ i j, Running c i → Running c j → i = j) ∧
      ∀ i, Running c i → ∃ k, c.shared.pidFile = some k ∧ c.shared.content k = buf pid i := by
  rintro c ⟨as, hr⟩
  obtain ⟨h, hc⟩ : Inv pid c ∧ Current c :=
    hr.invariant (I := fun c => Inv pid c ∧ Current c)
      (fun c a c' ⟨h, hc⟩ ⟨hq, (hs : Step pid c a c')⟩ => ⟨h.step hs, by
        cases a with
        | go i =>
          obtain ⟨⟨fs, pc⟩, hl, rfl⟩ := Option.map_eq_some_iff.mp hs
          exact hc.proc_step h (procStep hl) (hq i rfl)
        | kill i =>
          cases hs
          exact current_set (by simp [Pc.trusts]) fun j k _ => hc j k⟩)
      ⟨inv_start pidFile, fun i k hk => by simp [start, Pc.trusts] at hk⟩
  refine ⟨fun i j hi hj => hc.unique h hi hj, fun i hi => ?_⟩
  obtain ⟨k, hk⟩ := hi
  exact ⟨k, hc i k (by rw [hk]; rfl), h.content i k hk⟩

omit [DecidableEq ι] in
theorem quiet_of_not_running (h : ¬ Running c i) : Quiet c (.go i) := by
  intro j hj hr
  cases hj
  exact absurd hr h

/-- The first of two processes that start runs alone. -/
theorem one_instance_of_quiet_two :
    ∃ c : Sys (Fin 2), (∀ j, Running c j → 0 = j) ∧
      ∃ k, c.shared.pidFile = some k ∧ c.shared.content k = bytesOf "7\n" := by
  have hquiet : ∀ pc : Pc, (∀ k, pc ≠ .running k) → ∀ c : Sys (Fin 2), c.own 0 = pc →
      Quiet c (.go 0) :=
    fun pc hpc c hc => quiet_of_not_running fun ⟨k, hk⟩ => hpc k (hc.symm.trans hk)
  have hr : Reaches (Guarded (Step fun i : Fin 2 => 7 + i.val) Quiet) (start none) _ :=
    ⟨[.go 0, .go 0, .go 0, .go 0],
      .cons ⟨hquiet .open (by simp) _ rfl, rfl⟩
        (.cons ⟨hquiet (.lock 1) (by simp) _ rfl, rfl⟩
          (.cons ⟨hquiet (.truncate 1) (by simp) _ rfl, rfl⟩
            (.cons ⟨hquiet (.write 1) (by simp) _ rfl, rfl⟩ (.nil _))))⟩
  have h := one_instance_of_quiet _ none _ hr
  obtain ⟨k, hk, hcontent⟩ := h.2 0 ⟨1, rfl⟩
  exact ⟨_, fun j hj => h.1 0 j ⟨1, rfl⟩ hj, k, hk, hcontent.trans (by decide)⟩

/-! ## Two instances -/

/-- The file has been deleted, or the process has ended. -/
def Pc.Gone (pc : Pc) : Prop := pc = .ended ∨ ∃ k, pc = .deleted k

/-- As long as nobody is gone, nobody has deleted the file. -/
theorem current_of_reaches {pidFile : Option Bytes} (h : Reaches (Step pid) (start pidFile) c)
    (hgone : ∀ i, ¬ (c.own i).Gone) : Current c := by
  obtain ⟨as, hr⟩ := h
  refine (hr.invariant (I := fun c => Inv pid c ∧ ((∀ i, ¬ (c.own i).Gone) → Current c))
    (fun c a c' ⟨h, hc⟩ (hs : Step pid c a c') => ⟨h.step hs, fun hg => ?_⟩)
    ⟨inv_start pidFile, fun _ i k hk => by simp [start, Pc.trusts] at hk⟩).2 hgone
  cases a with
  | go i =>
    obtain ⟨⟨fs, pc⟩, hl, rfl⟩ := Option.map_eq_some_iff.mp hs
    have hall := (c.forall_set i fs pc (P := fun _ t => ¬ t.Gone)).mp hg
    have hstep := procStep hl
    refine (hc fun j => ?_).proc_step h hstep fun hi => ?_
    · by_cases hj : j = i
      · subst hj
        rintro (hp | ⟨k, hp⟩) <;> rw [hp] at hl <;> cases hl
        exact hall.1 (.inl rfl)
      · exact hall.2 j hj
    · obtain ⟨k, hi⟩ := hi
      rw [hi] at hl
      cases hl
      exact absurd (.inr ⟨k, rfl⟩) hall.1
  | kill i =>
    cases hs
    exact absurd (.inl (by rw [Conf.set_own_self])) (hg i)

theorem reaches_go (i : ι) {fs : Files ι} (pc : Pc)
    (h : createPidFile pid i c.shared (c.own i) = some (fs, pc)) :
    Reaches (Step pid) c (c.set i fs pc) :=
  .single (a := .go i) (Option.map_eq_some_iff.mpr ⟨_, h, rfl⟩)

theorem reaches_create (h : Inv pid c) (hpc : c.own i = .open) (hf : c.shared.pidFile = none) :
    ∃ c' k, Reaches (Step pid) c c' ∧ c'.own i = .lock k ∧ c'.shared.pidFile = some k ∧
      c'.shared.locks k = none ∧ ∀ j, j ≠ i → c'.own j = c.own j := by
  refine ⟨_, c.shared.fresh, reaches_go i _ (by rw [hpc, createPidFile, hf]),
    c.set_own_self .., rfl, ?_, fun j hj => c.set_own_of_ne _ _ hj⟩
  cases hl : c.shared.locks c.shared.fresh with
  | none => exact hl
  | some j => exact absurd (h.opened j _ (opened_of_holds ((h.locks j _).mpr hl))) (lt_irrefl _)

theorem reaches_reopen {k : Nat} (hpc : c.own i = .open) (hf : c.shared.pidFile = some k) :
    ∃ c', Reaches (Step pid) c c' ∧ c'.own i = .lock k ∧ c'.shared = c.shared ∧
      ∀ j, j ≠ i → c'.own j = c.own j :=
  ⟨_, reaches_go i _ (by rw [hpc, createPidFile, hf]), c.set_own_self .., rfl,
    fun j hj => c.set_own_of_ne _ _ hj⟩

theorem reaches_running {k : Nat} (hpc : c.own i = .lock k) (hl : c.shared.locks k = none) :
    ∃ c', Reaches (Step pid) c c' ∧ c'.own i = .running k ∧
      c'.shared.pidFile = c.shared.pidFile ∧ ∀ j, j ≠ i → c'.own j = c.own j := by
  have hlock : createPidFile pid i c.shared (c.own i) =
      some ({ c.shared with locks := Function.update c.shared.locks k (some i) }, .truncate k) := by
    rw [hpc, createPidFile, lockRegion, if_pos (.inl hl)]
  have h1 := reaches_go i _ hlock
  have h2 := h1.trans (reaches_go i (.write k) (by rw [Conf.set_own_self]; rfl))
  rw [Conf.set_set] at h2
  have h3 := h2.trans (reaches_go i (.running k) (by rw [Conf.set_own_self]; rfl))
  rw [Conf.set_set] at h3
  exact ⟨_, h3, c.set_own_self .., rfl, fun j hj => c.set_own_of_ne _ _ hj⟩

theorem reaches_deleted {k : Nat} (hpc : c.own i = .running k) :
    ∃ c', Reaches (Step pid) c c' ∧ c'.own i = .deleted k ∧ c'.shared.pidFile = none ∧
      ∀ j, j ≠ i → c'.own j = c.own j :=
  ⟨_, reaches_go i _ (by rw [hpc, createPidFile]), c.set_own_self .., rfl,
    fun j hj => c.set_own_of_ne _ _ hj⟩

theorem reaches_ended (h : Inv pid c) {k : Nat} (hpc : c.own i = .deleted k) :
    ∃ c', Reaches (Step pid) c c' ∧ c'.shared.pidFile = c.shared.pidFile ∧
      c'.shared.locks k = none ∧ ∀ j, j ≠ i → c'.own j = c.own j := by
  have hl := (h.locks i k).mp (by rw [hpc]; rfl)
  have hend : createPidFile pid i c.shared (c.own i) = some (exit c.shared i, .ended) := by
    rw [hpc, createPidFile]
  exact ⟨_, reaches_go i _ hend, rfl, if_pos hl, fun j hj => c.set_own_of_ne _ _ hj⟩

theorem reaches_first (pid : ι → Nat) (a : ι) :
    ∃ c k, Reaches (Step pid) (start none) c ∧ c.own a = .running k ∧
      c.shared.pidFile = some k ∧ ∀ j, j ≠ a → c.own j = .open := by
  have h0 : Inv pid (start none) := inv_start none
  obtain ⟨c1, k, r1, p1, f1, l1, o1⟩ := reaches_create (i := a) h0 rfl rfl
  obtain ⟨c2, r2, p2, f2, o2⟩ := reaches_running p1 l1
  exact ⟨c2, k, r1.trans r2, p2, f2.trans f1, fun j hj => (o2 j hj).trans (o1 j hj)⟩

/-- A process that comes after the file has been deleted makes another one, and runs. -/
theorem reaches_another (h : Inv pid c) (hpc : c.own i = .open) (hf : c.shared.pidFile = none) :
    ∃ c', Reaches (Step pid) c c' ∧ Running c' i ∧ ∀ j, j ≠ i → c'.own j = c.own j := by
  obtain ⟨c1, k, r1, p1, f1, l1, o1⟩ := reaches_create h hpc hf
  obtain ⟨c2, r2, p2, f2, o2⟩ := reaches_running p1 l1
  exact ⟨c2, r1.trans r2, ⟨k, p2⟩, fun j hj => (o2 j hj).trans (o1 j hj)⟩

/-- A second process runs while the first, which has deleted the file, is still alive. -/
theorem reaches_two_alive (pid : ι → Nat) {a b : ι} (hab : a ≠ b) :
    ∃ c, Reaches (Step pid) (start none) c ∧ Alive c a ∧ Alive c b := by
  obtain ⟨c1, k, r1, p1, f1, o1⟩ := reaches_first pid a
  obtain ⟨c2, r2, p2, f2, o2⟩ := reaches_deleted p1
  have hopen : c2.own b = .open := by rw [o2 b hab.symm, o1 b hab.symm]
  obtain ⟨c3, r3, ⟨k', p3⟩, o3⟩ := reaches_another (inv_of_reaches (r1.trans r2)) hopen f2
  exact ⟨c3, (r1.trans r2).trans r3, ⟨k, .inr ((o3 a hab).trans p2)⟩, ⟨k', .inl p3⟩⟩

/-- With a third process two of them run, neither of which has deleted the file: the second has
opened it before the first deletes it. -/
theorem reaches_two_running (pid : ι → Nat) {a b d : ι} (hab : a ≠ b) (hbd : b ≠ d) (had : a ≠ d) :
    ∃ c, Reaches (Step pid) (start none) c ∧ Running c b ∧ Running c d := by
  obtain ⟨c1, k, r1, p1, f1, o1⟩ := reaches_first pid a
  obtain ⟨c2, r2, p2, s2, o2⟩ := reaches_reopen (o1 b hab.symm) f1
  have r12 := r1.trans r2
  obtain ⟨c3, r3, p3, f3, o3⟩ := reaches_deleted ((o2 a hab).trans p1)
  have r123 := r12.trans r3
  obtain ⟨c4, r4, f4, l4, o4⟩ := reaches_ended (inv_of_reaches r123) p3
  have r1234 := r123.trans r4
  obtain ⟨c5, r5, p5, f5, o5⟩ :=
    reaches_running (((o4 b hab.symm).trans (o3 b hab.symm)).trans p2) l4
  have r12345 := r1234.trans r5
  have hopen : c5.own d = .open := by
    rw [o5 d hbd.symm, o4 d had.symm, o3 d had.symm, o2 d hbd.symm, o1 d had.symm]
  obtain ⟨c6, r6, p6, o6⟩ :=
    reaches_another (inv_of_reaches r12345) hopen (f5.trans (f4.trans f3))
  exact ⟨c6, r12345.trans r6, ⟨k, (o6 b hbd).trans p5⟩, p6⟩

/-- **When there is one instance**: with two processes there is always at most one that has not
deleted the file; with three, the first may delete the file after the second has opened it, and the
third then makes another one. When those that have deleted the file and are still alive are counted
too, two processes are enough. -/
theorem one_instance_iff (pid : ι → Nat) :
    ((∀ pidFile c, Reaches (Step pid) (start pidFile) c →
        ∀ i j, Running c i → Running c j → i = j) ↔
      ∀ a b d : ι, a = b ∨ b = d ∨ a = d) ∧
    ((∀ pidFile c, Reaches (Step pid) (start pidFile) c →
        ∀ i j, Alive c i → Alive c j → i = j) ↔
      ∀ a b : ι, a = b) := by
  refine ⟨⟨fun h a b d => ?_, fun h pidFile c hr i j hi hj => ?_⟩,
    fun h a b => ?_, fun h _ _ _ i j _ _ => h i j⟩
  · by_contra hne
    obtain ⟨hab, hbd, had⟩ : a ≠ b ∧ b ≠ d ∧ a ≠ d := by simpa using hne
    obtain ⟨c, hr, hb, hd⟩ := reaches_two_running pid hab hbd had
    exact hbd (h none c hr b d hb hd)
  · by_contra hne
    refine hne ((current_of_reaches hr fun x => ?_).unique (inv_of_reaches hr) hi hj)
    obtain ⟨k, hi⟩ := hi
    obtain ⟨k', hj⟩ := hj
    rcases h i j x with rfl | rfl | rfl
    · exact absurd rfl hne
    · simp [hj, Pc.Gone]
    · simp [hi, Pc.Gone]
  · by_contra hab
    obtain ⟨c, hr, ha, hb⟩ := reaches_two_alive pid hab
    exact hab (h none c hr a b ha hb)

end Tlpi.PidFile
