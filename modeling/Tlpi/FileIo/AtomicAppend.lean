import Tlpi.Lib.Lts
import Tlpi.Lib.File
import Tlpi.Lib.CInt
import Tlpi.Lib.Fault

/-!
# Concurrent appenders

Any number of `atomic_append` processes (`05-file-io-further-details/atomic_append.c`) on one
file. A process started without the third argument opens the file with `O_APPEND` and makes one
`write` per iteration; one started with it seeks to the end and then writes at its own offset,
in two steps between which the others may run. A label of the system is the process that makes
its next system call, so a run is one interleaving.

The file is always the old content followed by letters (`Inv.file`). Every write adds at most
one of them, every `O_APPEND` write adds one, and the offsets of one seeking process grow with
each of its iterations; the bounds on the final size follow. No interleaving goes on for ever or
gets stuck (`run_ends`). All this is for up to `INT_MAX` bytes for each process: the counter is an
`int`, and with more to write the loop does not end (`countWrites_iff`).
-/

namespace Tlpi.AtomicAppend

open Tlpi.Lib

/-- The command line: `argc` and `atol(argv[2])`. -/
structure Args where
  argc : Nat
  numBytes : Int
  argc_ok : argc = 3 ∨ argc = 4

inductive Pc where
  /-- At the loop condition. -/
  | loop
  /-- Between `lseek` and `write`. -/
  | seeked
  /-- After `close`. -/
  | closed
  deriving DecidableEq

structure Proc where
  args : Args
  fd : Fd
  i : Int
  pc : Pc

/-- `main` up to the loop: the file is open, with `O_APPEND` when there is no third argument. -/
def start (args : Args) : Proc :=
  { args, fd := { offset := 0, append := args.argc = 3 }, i := 0, pc := .loop }

/-- `"i"` -/
def letter : UInt8 := 105

/-- The next system call of a process: the process and the file after it. -/
def Proc.step (p : Proc) (file : Bytes) : Option (Proc × Bytes) :=
  match p.pc with
  | .loop =>
    if p.i < p.args.numBytes then
      if p.args.argc = 3 then
        let (fd, file) := p.fd.write file [letter]
        some ({ p with fd, i := toInt32 (p.i + 1) }, file)
      else some ({ p with fd := (p.fd.lseek file 0 .fileEnd).2, pc := .seeked }, file)
    else some ({ p with pc := .closed }, file)
  | .seeked =>
    let (fd, file) := p.fd.write file [letter]
    some ({ p with fd, i := toInt32 (p.i + 1), pc := .loop }, file)
  | .closed => none

structure Sys (ι : Type*) where
  file : Bytes
  proc : ι → Proc

variable {ι : Type*}

def Sys.start (args : ι → Args) (file : Bytes) : Sys ι :=
  { file, proc := fun j => AtomicAppend.start (args j) }

/-- Process `j` makes its next system call. -/
def Sys.exec [DecidableEq ι] (s : Sys ι) (j : ι) : Option (Sys ι) :=
  ((s.proc j).step s.file).map fun r => { file := r.2, proc := Function.update s.proc j r.1 }

def Step [DecidableEq ι] (s : Sys ι) (j : ι) (t : Sys ι) : Prop := s.exec j = some t

/-! ## One letter at an offset inside the letters -/

theorem byteAt_letters (f0 : Bytes) (k i : Nat) :
    byteAt (f0 ++ List.replicate k letter) i =
      if f0.length ≤ i ∧ i < f0.length + k then letter else byteAt f0 i := by
  rcases Nat.lt_or_ge i f0.length with h | h
  · rw [byteAt_append_left h, if_neg (by omega)]
  · rw [byteAt_append_right h]
    by_cases hk : i < f0.length + k
    · rw [if_pos ⟨h, hk⟩, byteAt, List.getD_replicate _ (by omega)]
    · rw [if_neg (by omega), byteAt_of_le (by simp; omega), byteAt_of_le h]

theorem pwrite_letter {f0 : Bytes} {k o : Nat} (h1 : f0.length ≤ o) (h2 : o ≤ f0.length + k) :
    pwrite (f0 ++ List.replicate k letter) o [letter] =
      f0 ++ List.replicate (max k (o + 1 - f0.length)) letter := by
  apply Bytes.ext
  · rw [length_pwrite (by simp)]
    simp only [List.length_append, List.length_replicate, List.length_singleton]
    omega
  · intro i
    rw [byteAt_pwrite, byteAt_letters, byteAt_letters, List.length_singleton]
    by_cases hi : o ≤ i ∧ i < o + 1
    · rw [if_pos hi, if_pos (by omega), show i - o = 0 by omega]
      rfl
    · rw [if_neg hi]
      congr 1
      rw [eq_iff_iff]
      omega

theorem write_letter_append {fd : Fd} (happ : fd.append = true) (f0 : Bytes) (k : Nat) :
    fd.write (f0 ++ List.replicate k letter) [letter] =
      ({ fd with offset := f0.length + k + 1 }, f0 ++ List.replicate (k + 1) letter) := by
  have hlen : (f0 ++ List.replicate k letter).length = f0.length + k := by simp
  have hmax : max k (f0.length + k + 1 - f0.length) = k + 1 := by omega
  rw [Fd.write, if_pos happ, hlen, pwrite_letter (by omega) (by omega), hmax]
  rfl

theorem write_letter_at {fd : Fd} {f0 : Bytes} {k : Nat} (happ : fd.append = false)
    (h1 : f0.length ≤ fd.offset) (h2 : fd.offset ≤ f0.length + k) :
    fd.write (f0 ++ List.replicate k letter) [letter] =
      ({ fd with offset := fd.offset + 1 },
        f0 ++ List.replicate (max k (fd.offset + 1 - f0.length)) letter) := by
  rw [Fd.write, if_neg (by simp [happ]), pwrite_letter h1 h2]
  rfl

/-! ## The invariant -/

/-- One process, `k` letters after the first `S` bytes of the file: how far it is, and how many
letters its own iterations account for. -/
structure ProcOk (args : Args) (S k : Nat) (p : Proc) : Prop where
  args_eq : p.args = args
  append : p.fd.append = decide (args.argc = 3)
  nonneg : 0 ≤ p.i
  le : p.i ≤ args.numBytes
  loop : p.pc ≠ .seeked → p.i.toNat ≤ k
  seeked : p.pc = .seeked → args.argc ≠ 3 ∧ p.i < args.numBytes ∧ S + p.i.toNat ≤ p.fd.offset ∧
    p.fd.offset ≤ S + k
  closed : p.pc = .closed → p.i = args.numBytes

/-- The file is the old content and `k` letters; `k` is between what the `O_APPEND` processes
and what all processes have written. -/
structure Inv [Fintype ι] (args : ι → Args) (f0 : Bytes) (k : Nat) (s : Sys ι) : Prop where
  file : s.file = f0 ++ List.replicate k letter
  procs : ∀ j, ProcOk (args j) f0.length k (s.proc j)
  lower : ∑ j with (args j).argc = 3, (s.proc j).i.toNat ≤ k
  upper : k ≤ ∑ j, (s.proc j).i.toNat

theorem ProcOk.mono {args : Args} {S k k' : Nat} {p : Proc} (hp : ProcOk args S k p) (hk : k ≤ k') :
    ProcOk args S k' p :=
  { hp with
    loop := fun h => (hp.loop h).trans hk
    seeked := fun h => by
      obtain ⟨h1, h2, h3, h4⟩ := hp.seeked h
      exact ⟨h1, h2, h3, by omega⟩ }

theorem sum_advance [DecidableEq ι] (q : Finset ι) {f g : ι → Nat} {j : ι} {d : Nat}
    (hj : g j = f j + d)
    (hne : ∀ l, l ≠ j → g l = f l) : ∑ l ∈ q, g l = ∑ l ∈ q, f l + if j ∈ q then d else 0 := by
  have hg : ∀ l, g l = f l + if l = j then d else 0 := fun l => by
    by_cases h : l = j
    · subst h; simp [hj]
    · simp [h, hne l h]
  simp only [hg, Finset.sum_add_distrib, Finset.sum_ite_eq']

theorem toInt32_succ {i n : Int} (h0 : 0 ≤ i) (hn : i < n) (hmax : n ≤ INT_MAX) :
    toInt32 (i + 1) = i + 1 := by
  unfold INT_MAX at hmax
  exact toInt32_of_range (by omega) (by omega)

/-- What a system call can be: an `O_APPEND` write, an `lseek` to the end, the write after it, or
`close`. -/
theorem Proc.step_cases {p p' : Proc} {file file' : Bytes} (hs : p.step file = some (p', file')) :
    (p.pc = .loop ∧ p.i < p.args.numBytes ∧ p.args.argc = 3 ∧
        p' = { p with fd := (p.fd.write file [letter]).1, i := toInt32 (p.i + 1) } ∧
        file' = (p.fd.write file [letter]).2) ∨
      (p.pc = .loop ∧ p.i < p.args.numBytes ∧ p.args.argc ≠ 3 ∧
        p' = { p with fd := (p.fd.lseek file 0 .fileEnd).2, pc := .seeked } ∧ file' = file) ∨
      (p.pc = .loop ∧ p.args.numBytes ≤ p.i ∧ p' = { p with pc := .closed } ∧ file' = file) ∨
      (p.pc = .seeked ∧
        p' = { p with fd := (p.fd.write file [letter]).1, i := toInt32 (p.i + 1), pc := .loop } ∧
        file' = (p.fd.write file [letter]).2) := by
  unfold Proc.step at hs
  split at hs
  · next hpc =>
    split at hs
    · next hlt =>
      split at hs
      · next h3 =>
        obtain ⟨rfl, rfl⟩ := Prod.mk.inj (Option.some.inj hs)
        exact .inl ⟨hpc, hlt, h3, rfl, rfl⟩
      · next h3 =>
        obtain ⟨rfl, rfl⟩ := Prod.mk.inj (Option.some.inj hs)
        exact .inr (.inl ⟨hpc, hlt, h3, rfl, rfl⟩)
    · next hge =>
      obtain ⟨rfl, rfl⟩ := Prod.mk.inj (Option.some.inj hs)
      exact .inr (.inr (.inl ⟨hpc, by omega, rfl, rfl⟩))
  · next hpc =>
    obtain ⟨rfl, rfl⟩ := Prod.mk.inj (Option.some.inj hs)
    exact .inr (.inr (.inr ⟨hpc, rfl, rfl⟩))
  · cases hs

/-- **One system call**: the process advances by `d` bytes and the letters grow by at most `d`,
by exactly `d` with `O_APPEND`. -/
theorem ProcOk.step {args : Args} {f0 : Bytes} {k : Nat} {p p' : Proc} {file' : Bytes}
    (hp : ProcOk args f0.length k p) (hmax : args.numBytes ≤ INT_MAX)
    (hs : p.step (f0 ++ List.replicate k letter) = some (p', file')) :
    ∃ k' d, file' = f0 ++ List.replicate k' letter ∧ ProcOk args f0.length k' p' ∧
      p'.i.toNat = p.i.toNat + d ∧ k ≤ k' ∧ k' ≤ k + d ∧ (args.argc = 3 → k + d ≤ k') := by
  have hlen : (f0 ++ List.replicate k letter).length = f0.length + k := by simp
  obtain ⟨rfl, happ, h0, hle, hloop, hseeked, -⟩ := hp
  rcases Proc.step_cases hs with ⟨hpc, hlt, h3, rfl, rfl⟩ | ⟨hpc, hlt, h3, rfl, rfl⟩ |
    ⟨hpc, hge, rfl, rfl⟩ | ⟨hpc, rfl, rfl⟩
  · have hik := hloop (by simp [hpc])
    have hwrite := write_letter_append (by simpa [h3] using happ) f0 k
    rw [toInt32_succ h0 hlt hmax, hwrite]
    exact ⟨k + 1, 1, rfl, ⟨rfl, happ, by simp only; omega, by simp only; omega,
      fun _ => by simp only; omega, by simp [hpc], by simp [hpc]⟩, by simp only; omega, by omega,
      by omega, fun _ => by omega⟩
  · have hik := hloop (by simp [hpc])
    have htarget : p.fd.target (f0 ++ List.replicate k letter) 0 .fileEnd =
        ((f0.length + k : Nat) : Int) := by rw [Fd.target, hlen, Int.add_zero]
    rw [Fd.lseek_of_target htarget]
    exact ⟨k, 0, rfl, ⟨rfl, happ, h0, hle, fun h => absurd rfl h, fun _ =>
      ⟨h3, hlt, by simp only; omega, Nat.le_refl _⟩, nofun⟩, rfl, by omega, by omega,
      fun h => absurd h h3⟩
  · have hik := hloop (by simp [hpc])
    exact ⟨k, 0, rfl, ⟨rfl, happ, h0, hle, fun _ => hik, nofun, fun _ => Int.le_antisymm hle hge⟩,
      rfl, by omega, by omega, fun _ => by omega⟩
  · obtain ⟨h3, hlt, hlo, hhi⟩ := hseeked hpc
    have hwrite := write_letter_at (by simpa [h3] using happ) (by omega) hhi
    rw [toInt32_succ h0 hlt hmax, hwrite]
    exact ⟨max k (p.fd.offset + 1 - f0.length), 1, rfl, ⟨rfl, happ, by simp only; omega,
      by simp only; omega, fun _ => by simp only; omega, nofun, nofun⟩, by simp only; omega,
      by omega, by omega, fun h => absurd h h3⟩

variable [Fintype ι] {args : ι → Args} {f0 : Bytes}

theorem Inv.start (h : ∀ j, 0 ≤ (args j).numBytes) : Inv args f0 0 (Sys.start args f0) where
  file := by simp [Sys.start]
  procs := fun j => ⟨rfl, rfl, Int.le_refl 0, h j, fun _ => Nat.le_refl 0, nofun, nofun⟩
  lower := by simp [Sys.start, AtomicAppend.start]
  upper := Nat.zero_le _

variable [DecidableEq ι]

theorem Inv.step {k : Nat} {s t : Sys ι} {j : ι} (hi : Inv args f0 k s)
    (hmax : ∀ j, (args j).numBytes ≤ INT_MAX) (hs : Step s j t) : ∃ k', Inv args f0 k' t := by
  obtain ⟨⟨p', file'⟩, hstep, rfl⟩ := Option.map_eq_some_iff.mp hs
  rw [hi.file] at hstep
  obtain ⟨k', d, hfile, hp, hd, hk, hup, hlow⟩ := (hi.procs j).step (hmax j) hstep
  have hother : ∀ l, l ≠ j → (Function.update s.proc j p' l).i.toNat = (s.proc l).i.toNat :=
    fun l hl => by rw [Function.update_of_ne hl]
  have hself : (Function.update s.proc j p' j).i.toNat = (s.proc j).i.toNat + d := by
    rw [Function.update_self, hd]
  refine ⟨k', hfile, fun l => ?_, ?_, ?_⟩
  · by_cases hl : l = j
    · subst hl; simpa using hp
    · simpa [hl] using (hi.procs l).mono hk
  · have hsum := sum_advance (Finset.univ.filter fun l => (args l).argc = 3) hself hother
    simp only [Finset.mem_filter, Finset.mem_univ, true_and] at hsum
    have hl := hi.lower
    by_cases h3 : (args j).argc = 3
    · rw [if_pos h3] at hsum
      have := hlow h3
      simp only
      omega
    · rw [if_neg h3] at hsum
      simp only
      omega
  · have hsum := sum_advance Finset.univ hself hother
    rw [if_pos (Finset.mem_univ j)] at hsum
    have hu := hi.upper
    simp only
    omega

/-- The number of bytes a process asks for. -/
def Args.bytes (a : Args) : Nat := a.numBytes.toNat

/-- **Concurrent appenders.** When all processes have finished, whatever the interleaving, the
old content is unchanged, everything after it is letters, and the number of letters is at least
what the `O_APPEND` processes asked for together and what any one process asked for, and at most
what all asked for; it is exactly that when every process uses `O_APPEND`. -/
theorem appended_of_all_closed (hargs : ∀ j, 0 ≤ (args j).numBytes ∧ (args j).numBytes ≤ INT_MAX)
    {sched : List ι} {s : Sys ι} (hrun : Run Step (Sys.start args f0) sched s)
    (hdone : ∀ j, (s.proc j).pc = .closed) :
    s.file.take f0.length = f0 ∧ (∀ b ∈ s.file.drop f0.length, b = letter) ∧
      f0.length + max (∑ j with (args j).argc = 3, (args j).bytes)
        ((Finset.univ.filter fun j => (args j).argc ≠ 3).sup fun j => (args j).bytes) ≤
          s.file.length ∧
      s.file.length ≤ f0.length + ∑ j, (args j).bytes ∧
      ((∀ j, (args j).argc = 3) → s.file.length = f0.length + ∑ j, (args j).bytes) := by
  obtain ⟨k, hi⟩ := hrun.invariant (I := fun s => ∃ k, Inv args f0 k s)
    (fun _ _ _ ⟨_, hi⟩ hs => hi.step (fun j => (hargs j).2) hs) ⟨0, Inv.start fun j => (hargs j).1⟩
  have hbytes : ∀ j, (s.proc j).i.toNat = (args j).bytes := fun j => by
    rw [(hi.procs j).closed (hdone j)]; rfl
  have hlower := hi.lower
  have hupper := hi.upper
  simp only [hbytes] at hlower hupper
  have hlen : s.file.length = f0.length + k := by rw [hi.file]; simp
  have hsup : (Finset.univ.filter fun j => (args j).argc ≠ 3).sup (fun j => (args j).bytes) ≤ k :=
    Finset.sup_le fun j _ => by
      rw [← hbytes j]
      exact (hi.procs j).loop (by simp [hdone j])
  refine ⟨?_, ?_, by omega, by omega, fun hall => ?_⟩
  · rw [hi.file, List.take_left]
  · rw [hi.file, List.drop_left]
    exact fun b hb => List.eq_of_mem_replicate hb
  · have : ∑ j with (args j).argc = 3, (args j).bytes = ∑ j, (args j).bytes := by simp [hall]
    omega

/-- One process of each kind: the second one's letter is lost under a stale offset. -/
def mixedArgs (appends : Bool) : Args where
  argc := if appends then 3 else 4
  numBytes := 1
  argc_ok := by cases appends <;> decide

theorem mixed_lost_letter :
    ∃ s : Sys Bool, Run Step (Sys.start mixedArgs [7]) [false, true, false, true, false] s ∧
      s.file = [7, letter] ∧ [7].length + 1 ≤ s.file.length ∧ s.file.length ≤ [7].length + 2 := by
  have hargs : ∀ j, 0 ≤ (mixedArgs j).numBytes ∧ (mixedArgs j).numBytes ≤ INT_MAX := by decide
  obtain ⟨s, hs⟩ : ∃ s, execAll Sys.exec (Sys.start mixedArgs [7])
      [false, true, false, true, false] = some s := ⟨_, rfl⟩
  have hrun : Run Step (Sys.start mixedArgs [7]) [false, true, false, true, false] s :=
    Run.of_execAll (fun _ _ _ h => h) hs
  obtain rfl := Option.some.inj hs
  have h := appended_of_all_closed hargs hrun (by decide)
  exact ⟨_, hrun, by decide, h.2.2.1, h.2.2.2.1⟩

/-! ## Every interleaving ends -/

/-- The system calls a process has left. -/
def Proc.work (p : Proc) : Nat :=
  match p.pc with
  | .loop => 2 * (p.args.numBytes - p.i).toNat + 1
  | .seeked => 2 * (p.args.numBytes - p.i).toNat
  | .closed => 0

theorem Proc.work_step {args : Args} {S k : Nat} {p p' : Proc} {file file' : Bytes}
    (hp : ProcOk args S k p) (hmax : args.numBytes ≤ INT_MAX)
    (hs : p.step file = some (p', file')) : p'.work < p.work := by
  obtain ⟨rfl, -, h0, hle, -, hseeked, -⟩ := hp
  rcases Proc.step_cases hs with ⟨hpc, hlt, -, rfl, -⟩ | ⟨hpc, hlt, -, rfl, -⟩ |
    ⟨hpc, hge, rfl, -⟩ | ⟨hpc, rfl, -⟩
  · simp only [Proc.work, hpc, toInt32_succ h0 hlt hmax]
    omega
  · simp only [Proc.work, hpc]
    omega
  · simp only [Proc.work, hpc]
    omega
  · simp only [Proc.work, hpc, toInt32_succ h0 (hseeked hpc).2.1 hmax]
    have := (hseeked hpc).2.1
    omega

/-- **Every interleaving ends**, after at most two calls for each byte and one `close` for each
process, and it does not get stuck before all processes have finished. -/
theorem run_ends (hargs : ∀ j, 0 ≤ (args j).numBytes ∧ (args j).numBytes ≤ INT_MAX)
    {sched : List ι} {s : Sys ι} (hrun : Run Step (Sys.start args f0) sched s) :
    sched.length ≤ ∑ j, (2 * (args j).bytes + 1) ∧
      ((∀ j t, ¬ Step s j t) → ∀ j, (s.proc j).pc = .closed) := by
  constructor
  · have hlen := hrun.length_le (I := fun s => ∃ k, Inv args f0 k s)
      (μ := fun s => ∑ j, (s.proc j).work) (fun s j t ⟨k, hi⟩ hs => ?_)
      ⟨0, Inv.start fun j => (hargs j).1⟩
    · have hstart : ∑ j, ((Sys.start args f0).proc j).work = ∑ j, (2 * (args j).bytes + 1) := by
        simp [Sys.start, AtomicAppend.start, Proc.work, Args.bytes]
      simp only [hstart] at hlen
      omega
    · refine ⟨hi.step (fun j => (hargs j).2) hs, ?_⟩
      obtain ⟨⟨p', file'⟩, hstep, rfl⟩ := Option.map_eq_some_iff.mp hs
      have hlt := Proc.work_step (hi.procs j) (hargs j).2 hstep
      refine Finset.sum_lt_sum (fun l _ => ?_) ⟨j, Finset.mem_univ j, by simpa using hlt⟩
      by_cases hl : l = j
      · subst hl
        simpa using hlt.le
      · simp [hl]
  · intro hstuck j
    by_contra hopen
    obtain ⟨r, hr⟩ : ∃ r, (s.proc j).step s.file = some r := by
      unfold Proc.step
      split
      · split
        · split <;> exact ⟨_, rfl⟩
        · exact ⟨_, rfl⟩
      · exact ⟨_, rfl⟩
      · next hclosed => exact absurd hclosed hopen
    exact hstuck j _ (Option.map_eq_some_iff.mpr ⟨r, hr, rfl⟩)

/-! ## A process on its own -/

/-- The next system call of a process is a `write`. -/
def Proc.writes (p : Proc) : Bool :=
  match p.pc with
  | .loop => p.i < p.args.numBytes ∧ p.args.argc = 3
  | .seeked => true
  | .closed => false

/-- The number of writes of a process that runs on its own until it has closed the file. -/
def Proc.countWrites : (fuel : Nat) → Proc → Bytes → Except Fault Nat
  | 0, _, _ => .error .outOfFuel
  | fuel + 1, p, file =>
    match p.step file with
    | none => .ok 0
    | some (p', file') => do
      let n ← p'.countWrites fuel file'
      return (if p.writes then 1 else 0) + n

theorem Proc.countWrites_step {p p' : Proc} {file file' : Bytes} {fuel n : Nat}
    (hs : p.step file = some (p', file')) (hn : p'.countWrites fuel file' = .ok n) :
    p.countWrites (fuel + 1) file = .ok ((if p.writes then 1 else 0) + n) := by
  rw [countWrites, hs]
  dsimp only
  rw [hn]
  rfl

theorem Proc.countWrites_iteration {p : Proc} (hpc : p.pc = .loop) (h0 : 0 ≤ p.i)
    (hlt : p.i < p.args.numBytes) (hmax : p.args.numBytes ≤ INT_MAX) (file : Bytes) :
    ∃ (p' : Proc) (file' : Bytes) (k : Nat), p'.pc = .loop ∧ p'.i = p.i + 1 ∧ p'.args = p.args ∧
      ∀ fuel n, p'.countWrites fuel file' = .ok n →
        p.countWrites (fuel + k) file = .ok (n + 1) := by
  have hnext : toInt32 (p.i + 1) = p.i + 1 := toInt32_succ h0 hlt hmax
  by_cases h3 : p.args.argc = 3
  · let p₁ : Proc := { p with fd := (p.fd.write file [letter]).1, i := p.i + 1 }
    have hstep : p.step file = some (p₁, (p.fd.write file [letter]).2) := by
      simp only [Proc.step, hpc, if_pos hlt, if_pos h3, hnext, p₁]
    have hwrites : p.writes = true := by
      simp only [Proc.writes, hpc]
      exact decide_eq_true ⟨hlt, h3⟩
    refine ⟨p₁, (p.fd.write file [letter]).2, 1, hpc, rfl, rfl, fun fuel n hfuel => ?_⟩
    rw [countWrites_step hstep hfuel, hwrites, if_pos rfl, Nat.add_comm]
  · let p₁ : Proc := { p with fd := (p.fd.lseek file 0 .fileEnd).2, pc := .seeked }
    let p₂ : Proc := { p₁ with fd := (p₁.fd.write file [letter]).1, i := p.i + 1, pc := .loop }
    have hseek : p.step file = some (p₁, file) := by
      simp only [Proc.step, hpc, if_pos hlt, if_neg h3, p₁]
    have hstep : p₁.step file = some (p₂, (p₁.fd.write file [letter]).2) := by
      simp only [Proc.step, p₁, p₂, hnext]
    have hwrites : p.writes = false := by
      simp only [Proc.writes, hpc]
      exact decide_eq_false fun h => h3 h.2
    have hwrites₁ : p₁.writes = true := rfl
    refine ⟨p₂, (p₁.fd.write file [letter]).2, 2, rfl, rfl, rfl, fun fuel n hfuel => ?_⟩
    rw [countWrites_step hseek (countWrites_step hstep hfuel), hwrites, hwrites₁, if_pos rfl,
      if_neg Bool.false_ne_true, Nat.zero_add, Nat.add_comm]

theorem Proc.countWrites_loop {p : Proc} (hpc : p.pc = .loop) (h0 : 0 ≤ p.i)
    (hmax : p.args.numBytes ≤ INT_MAX) (file : Bytes) :
    ∃ fuel, p.countWrites fuel file = .ok (p.args.numBytes - p.i).toNat := by
  induction h : (p.args.numBytes - p.i).toNat generalizing p file with
  | zero =>
    have hstep : p.step file = some ({ p with pc := .closed }, file) := by
      simp only [Proc.step, hpc]
      rw [if_neg (by omega)]
    have hwrites : p.writes = false := by
      simp only [Proc.writes, hpc]
      exact decide_eq_false fun h => by omega
    refine ⟨2, ?_⟩
    rw [countWrites_step hstep rfl, hwrites]
    rfl
  | succ d ih =>
    obtain ⟨p', file', k, hpc', hi', hargs', hcount⟩ :=
      countWrites_iteration hpc h0 (by omega) hmax file
    rw [← hargs'] at hmax h
    obtain ⟨fuel, hfuel⟩ := ih hpc' (by omega) hmax file' (by omega)
    exact ⟨fuel + k, hcount fuel d hfuel⟩

/-- Beyond `INT_MAX` bytes the loop never ends: the counter is below the bound whatever it is. -/
theorem Proc.countWrites_wraps {p : Proc} (hpc : p.pc ≠ .closed) (hi : p.i ≤ INT_MAX)
    (hmax : INT_MAX < p.args.numBytes) (fuel : Nat) (file : Bytes) :
    p.countWrites fuel file = .error .outOfFuel := by
  induction fuel generalizing p file with
  | zero => rfl
  | succ fuel ih =>
    rw [countWrites]
    split
    · next hnone =>
      exfalso
      unfold Proc.step at hnone
      split at hnone
      · split at hnone
        · split at hnone <;> cases hnone
        · cases hnone
      · cases hnone
      · next hclosed => exact hpc hclosed
    · next p' file' hs =>
      have hrun : p'.countWrites fuel file' = .error .outOfFuel := by
        rcases Proc.step_cases hs with ⟨hloop, -, -, rfl, -⟩ | ⟨-, -, -, rfl, -⟩ |
          ⟨-, hge, -⟩ | ⟨-, rfl, -⟩
        · apply ih
          · exact hpc
          · exact toInt32_le _
          · exact hmax
        · apply ih
          · exact nofun
          · exact hi
          · exact hmax
        · omega
        · apply ih
          · exact nofun
          · exact toInt32_le _
          · exact hmax
      rw [hrun]
      rfl

theorem countWrites_start_wraps {args : Args} (hmax : INT_MAX < args.numBytes) (fuel : Nat)
    (file : Bytes) : (start args).countWrites fuel file = .error .outOfFuel := by
  apply Proc.countWrites_wraps
  · exact nofun
  · show 0 ≤ INT_MAX
    decide
  · exact hmax

/-- **When the requested bytes are written**: the loop ends after one write for each byte exactly
when their number is at most `INT_MAX`. -/
theorem countWrites_iff (args : Args) (file : Bytes) :
    (∃ fuel, (start args).countWrites fuel file = .ok (max 0 args.numBytes).toNat) ↔
      args.numBytes ≤ INT_MAX := by
  constructor
  · rintro ⟨fuel, hrun⟩
    by_contra hmax
    rw [countWrites_start_wraps (not_le.mp hmax)] at hrun
    cases hrun
  · intro hmax
    obtain ⟨fuel, hfuel⟩ := Proc.countWrites_loop (p := start args) rfl (Int.le_refl 0) hmax file
    refine ⟨fuel, hfuel.trans (congrArg Except.ok ?_)⟩
    show (args.numBytes - 0).toNat = _
    omega

/-- Two gigabytes. -/
def hugeArgs : Args where
  argc := 3
  numBytes := 2 ^ 31
  argc_ok := .inl rfl

theorem huge_never_ends : ¬ ∀ (args : Args) (file : Bytes), -2 ^ 63 ≤ args.numBytes →
    args.numBytes < 2 ^ 63 →
    ∃ fuel, (start args).countWrites fuel file = .ok (max 0 args.numBytes).toNat := by
  intro h
  obtain ⟨fuel, hrun⟩ := h hugeArgs [] (by decide) (by decide)
  rw [countWrites_start_wraps (by decide)] at hrun
  cases hrun

end Tlpi.AtomicAppend
