import Tlpi.Lib.Lts
import Tlpi.Lib.File
import Tlpi.Lib.CInt
import Tlpi.Lib.Ipc

/-!
# A transfer through shared memory

The writer (`tlpi-dist/svshm/svshm_xfr_writer.c`) and the reader
(`tlpi-dist/svshm/svshm_xfr_reader.c`) on one segment, with the binary semaphores of
`tlpi-dist/lib/binary_sems.c`. A run starts when both have the IPC objects, the writer at its loop
and the reader at its own; each step is one call or one access to the segment. `read` may return
fewer bytes than the buffer has room for, as it does on a pipe.

Of the two semaphores, the writer between `read` and its release, and the reader between its
reservation and its release, exactly one has the turn (`Inv.turn`); a chunk is in flight from the
`read` to the `write` (`State.inFlight`), and what the reader has written, the chunk in flight and
what is left of the input are the input (`Inv.data`). `transfer_correct` puts this together.
-/

namespace Tlpi.Transfer

open Tlpi.Lib

/-! ## Binary semaphores -/

/-- `WRITE_SEM` and `READ_SEM`. -/
inductive Sem where
  | write
  | read
  deriving DecidableEq

/-- The values of the two. -/
def vals (w r : Nat) : Sem → Nat
  | .write => w
  | .read => r

@[simp] theorem vals_write (w r : Nat) : vals w r .write = w := rfl

@[simp] theorem vals_read (w r : Nat) : vals w r .read = r := rfl

@[simp] theorem update_vals_write (w r n : Nat) :
    Function.update (vals w r) .write n = vals n r := by
  funext k
  cases k <;> simp

@[simp] theorem update_vals_read (w r n : Nat) :
    Function.update (vals w r) .read n = vals w n := by
  funext k
  cases k <;> simp

/-- A semaphore set is its values, or nothing once `IPC_RMID` has removed it. -/
def reserveSem (sems : Option (Sem → Nat)) (semNum : Sem) :
    Attempt (Sem → Nat) :=
  match sems with
  | none => .error
  | some vals =>
    if 0 < vals semNum then .done (Function.update vals semNum (vals semNum - 1)) else .blocks

def releaseSem (sems : Option (Sem → Nat)) (semNum : Sem) :
    Attempt (Sem → Nat) :=
  match sems with
  | none => .error
  | some vals => .done (Function.update vals semNum (vals semNum + 1))

/-! ## The two programs -/

inductive WriterPc where
  /-- At `reserveSem` in the loop. -/
  | reserve
  | read
  | release
  /-- At `shmp->cnt == 0`, and then at the increments of the loop. -/
  | test
  /-- At `reserveSem` after the loop. -/
  | lastReserve
  | remove
  | done
  /-- `errExit` -/
  | failed
  deriving DecidableEq

inductive ReaderPc where
  | reserve
  /-- At `shmp->cnt == 0`. -/
  | test
  | write
  | release
  /-- At `releaseSem` after the loop. -/
  | lastRelease
  | done
  /-- `errExit` -/
  | failed
  deriving DecidableEq

structure State where
  input : Bytes
  output : Bytes
  sems : Option (Sem → Nat)
  cnt : Nat
  buf : Bytes
  wPc : WriterPc
  wBytes : Int
  wXfrs : Int
  rPc : ReaderPc
  rBytes : Int
  rXfrs : Int

inductive Act where
  /-- The writer goes on, except at `read`. -/
  | writer
  /-- The writer's `read` returns `n` bytes. -/
  | read (n : Nat)
  | reader

def writer (s : State) : Option State :=
  match s.wPc with
  | .reserve => (reserveSem s.sems .write).resume
      (fun v => { s with sems := some v, wPc := .read }) { s with wPc := .failed }
  | .release => (releaseSem s.sems .read).resume
      (fun v => { s with sems := some v, wPc := .test }) { s with wPc := .failed }
  | .test =>
    if s.cnt = 0 then some { s with wPc := .lastReserve }
    else some { s with
      wPc := .reserve, wXfrs := toInt32 (s.wXfrs + 1), wBytes := toInt32 (s.wBytes + s.cnt) }
  | .lastReserve => (reserveSem s.sems .write).resume
      (fun v => { s with sems := some v, wPc := .remove }) { s with wPc := .failed }
  | .remove => some { s with sems := none, wPc := .done }
  | .read | .done | .failed => none

/-- `read(STDIN_FILENO, shmp->buf, BUF_SIZE)` returns `n`: zero only at the end of the input. -/
def read (BUF_SIZE : Nat) (s : State) (n : Nat) : Option State :=
  if s.wPc = .read ∧ n ≤ BUF_SIZE ∧ n ≤ s.input.length ∧ (n = 0 → s.input = []) then
    some { s with
      wPc := .release, cnt := n, buf := s.input.take n ++ s.buf.drop n, input := s.input.drop n }
  else none

def reader (s : State) : Option State :=
  match s.rPc with
  | .reserve => (reserveSem s.sems .read).resume
      (fun v => { s with sems := some v, rPc := .test }) { s with rPc := .failed }
  | .test => some { s with rPc := if s.cnt = 0 then .lastRelease else .write }
  | .write => some { s with
      rPc := .release, rBytes := toInt32 (s.rBytes + s.cnt)
      output := s.output ++ s.buf.take s.cnt }
  | .release => (releaseSem s.sems .write).resume
      (fun v => { s with sems := some v, rPc := .reserve, rXfrs := toInt32 (s.rXfrs + 1) })
      { s with rPc := .failed }
  | .lastRelease => (releaseSem s.sems .write).resume
      (fun v => { s with sems := some v, rPc := .done }) { s with rPc := .failed }
  | .done | .failed => none

def exec (BUF_SIZE : Nat) (s : State) : Act → Option State
  | .writer => writer s
  | .read n => read BUF_SIZE s n
  | .reader => reader s

def Step (BUF_SIZE : Nat) (s : State) (a : Act) (t : State) : Prop := exec BUF_SIZE s a = some t

/-- `WRITE_SEM` is available, `READ_SEM` in use, the segment zeroed. -/
def start (BUF_SIZE : Nat) (input : Bytes) : State where
  input := input
  output := []
  sems := some (vals 1 0)
  cnt := 0
  buf := List.replicate BUF_SIZE 0
  wPc := .reserve
  wBytes := 0
  wXfrs := 0
  rPc := .reserve
  rBytes := 0
  rXfrs := 0

def Done (s : State) : Prop := s.wPc = .done ∧ s.rPc = .done

/-! ## Whose turn it is -/

/-- Where the writer can be while the turn is the reader's; `eof` says that the last `read`
returned nothing. -/
inductive Behind (eof : Prop) : WriterPc → Prop where
  | test : Behind eof .test
  | again (h : ¬ eof) : Behind eof .reserve
  | last (h : eof) : Behind eof .lastReserve

/-- The places of the writer and the reader, and the semaphores, that go together; the first
argument says that the chunk in the segment is still to be written. -/
inductive Phase (eof : Prop) : Bool → WriterPc → ReaderPc → Option (Sem → Nat) → Prop where
  | idle : Phase eof false .reserve .reserve (some (vals 1 0))
  | idleTest (h : ¬ eof) : Phase eof false .test .reserve (some (vals 1 0))
  | reading : Phase eof false .read .reserve (some (vals 0 0))
  | filled : Phase eof true .release .reserve (some (vals 0 0))
  | offered {w : WriterPc} (hw : Behind eof w) : Phase eof true w .reserve (some (vals 0 1))
  | taken {w : WriterPc} (hw : Behind eof w) : Phase eof true w .test (some (vals 0 0))
  | writing {w : WriterPc} (hw : Behind eof w) (h : ¬ eof) :
      Phase eof true w .write (some (vals 0 0))
  | written {w : WriterPc} (hw : Behind eof w) (h : ¬ eof) :
      Phase eof false w .release (some (vals 0 0))
  | ending {w : WriterPc} (hw : Behind eof w) (h : eof) :
      Phase eof false w .lastRelease (some (vals 0 0))
  | ended {w : WriterPc} (hw : Behind eof w) (h : eof) : Phase eof false w .done (some (vals 1 0))
  | removing (h : eof) : Phase eof false .remove .done (some (vals 0 0))
  | finished (h : eof) : Phase eof false .done .done none

/-- The writer has not yet counted the chunk that it read last. -/
def WriterPc.behind : WriterPc → Bool
  | .release | .test => true
  | _ => false

def ReaderPc.behind (fl : Bool) : ReaderPc → Bool
  | .release => true
  | _ => fl

/-- The count of a party once it has counted the chunk of `cnt` bytes, if it is behind. -/
def xfrsAfter (behind : Bool) (cnt : Nat) (xfrs : Int) : Int :=
  if behind ∧ cnt ≠ 0 then toInt32 (xfrs + 1) else xfrs

/-- The bytes that have been read: those written, and those in flight. -/
def State.sent (fl : Bool) (s : State) : Int := s.output.length + if fl then s.cnt else 0

/-- What every step keeps. -/
structure Inv (file : Bytes) (fl : Bool) (s : State) : Prop where
  phase : Phase (s.cnt = 0) fl s.wPc s.rPc s.sems
  cnt_le : s.cnt ≤ s.buf.length
  data : s.output ++ (if fl then s.buf.take s.cnt else []) ++ s.input = file
  eof : s.cnt = 0 → fl = true ∨ s.rPc = .lastRelease ∨ s.rPc = .done → s.input = []
  rBytes : s.rBytes = toInt32 s.output.length
  wBytes : s.wBytes = toInt32 (s.sent fl - if s.wPc.behind then s.cnt else 0)
  xfrs : xfrsAfter s.wPc.behind s.cnt s.wXfrs = xfrsAfter (s.rPc.behind fl) s.cnt s.rXfrs

theorem toInt32_sub_add (x y : Int) : toInt32 (toInt32 (x - y) + y) = toInt32 x := by
  unfold toInt32
  rw [Int.bmod_add_bmod, sub_add_cancel]

theorem inv_start (n : Nat) (file : Bytes) : Inv file false (start n file) where
  phase := .idle
  cnt_le := Nat.zero_le _
  data := rfl
  eof _ h := by simp [start] at h
  rBytes := (toInt32_of_range (x := 0) (by norm_num) (by norm_num)).symm
  wBytes := (toInt32_of_range (x := 0) (by norm_num) (by norm_num)).symm
  xfrs := rfl

section phases

variable {eof : Prop} {fl : Bool} {w : WriterPc} {r : ReaderPc} {sems : Option (Sem → Nat)}

theorem Phase.test (h : Phase eof fl .test r sems) :
    (eof → Phase eof fl .lastReserve r sems) ∧ (¬ eof → Phase eof fl .reserve r sems) := by
  cases h with
  | idleTest h => exact ⟨fun hn => absurd hn h, fun _ => .idle⟩
  | offered => exact ⟨fun h => .offered (.last h), fun h => .offered (.again h)⟩
  | taken => exact ⟨fun h => .taken (.last h), fun h => .taken (.again h)⟩
  | writing _ hn => exact ⟨fun h => absurd h hn, fun h => .writing (.again h) h⟩
  | written _ hn => exact ⟨fun h => absurd h hn, fun h => .written (.again h) h⟩
  | ending _ h => exact ⟨fun h => .ending (.last h) h, fun hn => absurd h hn⟩
  | ended _ h => exact ⟨fun h => .ended (.last h) h, fun hn => absurd h hn⟩

/-- The writer reserves its semaphore when there is nothing in flight, and waits otherwise. -/
theorem Phase.reserve (h : Phase eof fl .reserve r sems) :
    (fl = false ∧ r = .reserve ∧ sems = some (vals 1 0)) ∨ ∃ n, sems = some (vals 0 n) := by
  cases h with
  | idle => exact .inl ⟨rfl, rfl, rfl⟩
  | ended hw h => cases hw; contradiction
  | offered => exact .inr ⟨1, rfl⟩
  | taken | writing | written | ending => exact .inr ⟨0, rfl⟩

theorem Phase.lastReserve (h : Phase eof fl .lastReserve r sems) :
    eof ∧ ((fl = false ∧ r = .done ∧ sems = some (vals 1 0)) ∨ ∃ n, sems = some (vals 0 n)) := by
  cases h with
  | ended hw h => exact ⟨h, .inl ⟨rfl, rfl, rfl⟩⟩
  | offered hw => cases hw; exact ⟨‹_›, .inr ⟨1, rfl⟩⟩
  | taken hw => cases hw; exact ⟨‹_›, .inr ⟨0, rfl⟩⟩
  | writing hw h | written hw h => cases hw; contradiction
  | ending hw h => exact ⟨h, .inr ⟨0, rfl⟩⟩

theorem Phase.read (h : Phase eof fl .read r sems) :
    fl = false ∧ r = .reserve ∧ sems = some (vals 0 0) := by
  cases h with
  | reading => exact ⟨rfl, rfl, rfl⟩
  | offered hw | taken hw | writing hw | written hw | ending hw | ended hw => cases hw

theorem Phase.release (h : Phase eof fl .release r sems) :
    fl = true ∧ r = .reserve ∧ sems = some (vals 0 0) := by
  cases h with
  | filled => exact ⟨rfl, rfl, rfl⟩
  | offered hw | taken hw | writing hw | written hw | ending hw | ended hw => cases hw

theorem Phase.remove (h : Phase eof fl .remove r sems) : eof ∧ fl = false ∧ r = .done := by
  cases h with
  | removing h => exact ⟨h, rfl, rfl⟩
  | offered hw | taken hw | writing hw | written hw | ending hw | ended hw => cases hw

end phases

theorem Inv.writer {file : Bytes} {fl : Bool} {s t : State} (h : Inv file fl s)
    (hs : writer s = some t) : Inv file fl t := by
  obtain ⟨hp, hc, hd, he, hr, hw, hx⟩ := h
  obtain ⟨input, output, sems, cnt, buf, wPc, wBytes, wXfrs, rPc, rBytes, rXfrs⟩ := s
  simp only at hp hc hd he hr hw hx
  cases wPc with
  | reserve =>
    rcases hp.reserve with ⟨rfl, rfl, rfl⟩ | ⟨n, rfl⟩
    · simp [Transfer.writer, reserveSem, Attempt.resume] at hs
      subst hs
      exact ⟨.reading, hc, hd, he, hr, hw, hx⟩
    · simp [Transfer.writer, reserveSem, Attempt.resume] at hs
  | read => cases hs
  | release =>
    obtain ⟨rfl, rfl, rfl⟩ := hp.release
    simp [Transfer.writer, releaseSem, Attempt.resume] at hs
    subst hs
    exact ⟨.offered .test, hc, hd, he, hr, hw, hx⟩
  | test =>
    by_cases hz : cnt = 0
    · simp only [Transfer.writer, if_pos hz, Option.some.injEq] at hs
      subst hs
      refine ⟨hp.test.1 hz, hc, hd, he, hr, ?_, ?_⟩
      · simpa [WriterPc.behind, State.sent, hz] using hw
      · simpa [xfrsAfter, WriterPc.behind, hz] using hx
    · simp only [Transfer.writer, if_neg hz, Option.some.injEq] at hs
      subst hs
      refine ⟨hp.test.2 hz, hc, hd, he, hr, ?_, ?_⟩
      · simpa [WriterPc.behind, State.sent, hw] using toInt32_sub_add _ cnt
      · simpa [xfrsAfter, WriterPc.behind, hz] using hx
  | lastReserve =>
    obtain ⟨hz, ⟨rfl, rfl, rfl⟩ | ⟨n, rfl⟩⟩ := hp.lastReserve
    · simp [Transfer.writer, reserveSem, Attempt.resume] at hs
      subst hs
      exact ⟨.removing hz, hc, hd, he, hr, hw, hx⟩
    · simp [Transfer.writer, reserveSem, Attempt.resume] at hs
  | remove =>
    obtain ⟨hz, rfl, rfl⟩ := hp.remove
    simp [Transfer.writer] at hs
    subst hs
    exact ⟨.finished hz, hc, hd, he, hr, hw, hx⟩
  | done | failed => cases hs

theorem Inv.read {BUF_SIZE n : Nat} {file : Bytes} {fl : Bool} {s t : State} (h : Inv file fl s)
    (hs : read BUF_SIZE s n = some t) : Inv file true t := by
  obtain ⟨⟨hpc, -, hn, hz⟩, rfl⟩ := by simpa [Transfer.read] using hs
  obtain ⟨hp, hc, hd, he, hr, hw, hx⟩ := h
  rw [hpc] at hp hw hx
  obtain ⟨rfl, hrp, hsems⟩ := hp.read
  have hlen : (s.input.take n).length = n := by simp [hn]
  refine ⟨?_, ?_, ?_, fun h0 _ => ?_, hr, ?_, ?_⟩
  · simp only [hrp, hsems]
    exact .filled
  · simp only [List.length_append, hlen]
    omega
  · simp only [if_true, List.take_left' hlen]
    simpa using hd
  · simp [hz h0]
  · simpa [WriterPc.behind, State.sent] using hw
  · simp only [hrp, WriterPc.behind, ReaderPc.behind, xfrsAfter, Bool.false_eq_true, false_and,
      if_false] at hx ⊢
    rw [hx]

section phases

variable {eof : Prop} {fl : Bool} {w : WriterPc} {sems : Option (Sem → Nat)}

/-- The reader reserves its semaphore when a chunk has been offered, and waits otherwise. -/
theorem Phase.reserve_reader (h : Phase eof fl w .reserve sems) :
    (fl = true ∧ Behind eof w ∧ sems = some (vals 0 1)) ∨ ∃ n, sems = some (vals n 0) := by
  cases h with
  | offered hw => exact .inl ⟨rfl, hw, rfl⟩
  | idle | idleTest => exact .inr ⟨1, rfl⟩
  | reading | filled => exact .inr ⟨0, rfl⟩

theorem Phase.test_reader (h : Phase eof fl w .test sems) :
    fl = true ∧ Behind eof w ∧ sems = some (vals 0 0) := by
  cases h with | taken hw => exact ⟨rfl, hw, rfl⟩

theorem Phase.write_reader (h : Phase eof fl w .write sems) :
    fl = true ∧ Behind eof w ∧ ¬ eof ∧ sems = some (vals 0 0) := by
  cases h with | writing hw h => exact ⟨rfl, hw, h, rfl⟩

theorem Phase.release_reader (h : Phase eof fl w .release sems) :
    fl = false ∧ Behind eof w ∧ ¬ eof ∧ sems = some (vals 0 0) := by
  cases h with | written hw h => exact ⟨rfl, hw, h, rfl⟩

theorem Phase.lastRelease_reader (h : Phase eof fl w .lastRelease sems) :
    fl = false ∧ Behind eof w ∧ eof ∧ sems = some (vals 0 0) := by
  cases h with | ending hw h => exact ⟨rfl, hw, h, rfl⟩

theorem Phase.not_failed {r : ReaderPc} (h : Phase eof fl w r sems) :
    w ≠ .failed ∧ r ≠ .failed := by
  cases h with
  | offered hw | taken hw | writing hw | written hw | ending hw | ended hw =>
    cases hw <;> exact ⟨by simp, by simp⟩
  | _ => exact ⟨by simp, by simp⟩

theorem Phase.excl {r : ReaderPc} (h : Phase eof fl w r sems) :
    ¬ (w = .read ∧ (r = .test ∨ r = .write)) := by
  rintro ⟨rfl, hr⟩
  obtain ⟨-, rfl, -⟩ := h.read
  simp at hr

theorem Phase.done (h : Phase eof fl .done .done sems) : eof ∧ fl = false := by
  cases h with
  | finished h => exact ⟨h, rfl⟩
  | ended _ h => exact ⟨h, rfl⟩

theorem Behind.idle {w : WriterPc} (hw : Behind eof w) (h : ¬ eof) :
    Phase eof false w .reserve (some (vals 1 0)) := by
  cases hw with
  | test => exact .idleTest h
  | again => exact .idle
  | last h' => exact absurd h' h

end phases

theorem Inv.reader {file : Bytes} {fl : Bool} {s t : State} (h : Inv file fl s)
    (hs : reader s = some t) : ∃ fl, Inv file fl t := by
  obtain ⟨hp, hc, hd, he, hr, hw, hx⟩ := h
  obtain ⟨input, output, sems, cnt, buf, wPc, wBytes, wXfrs, rPc, rBytes, rXfrs⟩ := s
  simp only at hp hc hd he hr hw hx
  cases rPc with
  | reserve =>
    rcases hp.reserve_reader with ⟨rfl, hb, rfl⟩ | ⟨n, rfl⟩
    · simp [Transfer.reader, reserveSem, Attempt.resume] at hs
      subst hs
      exact ⟨true, .taken hb, hc, hd, fun h0 _ => he h0 (.inl rfl), hr, hw, hx⟩
    · simp [Transfer.reader, reserveSem, Attempt.resume] at hs
  | test =>
    obtain ⟨rfl, hb, rfl⟩ := hp.test_reader
    simp only [Transfer.reader, Option.some.injEq] at hs
    subst hs
    by_cases hz : cnt = 0
    · simp only [if_pos hz]
      refine ⟨false, .ending hb hz, hc, ?_, fun _ _ => he hz (.inl rfl), hr, ?_, ?_⟩
      · simpa [hz] using hd
      · simpa [State.sent, hz] using hw
      · simpa [xfrsAfter, hz] using hx
    · simp only [if_neg hz]
      exact ⟨true, .writing hb hz, hc, hd, fun h0 _ => he h0 (.inl rfl), hr, hw, hx⟩
  | write =>
    obtain ⟨rfl, hb, hz, rfl⟩ := hp.write_reader
    simp only [Transfer.reader, Option.some.injEq] at hs
    subst hs
    refine ⟨false, .written hb hz, hc, ?_, fun h0 => absurd h0 hz, ?_, ?_, hx⟩
    · simpa using hd
    · simp only [hr, List.length_append, List.length_take, min_eq_left hc, Nat.cast_add]
      exact Int.bmod_add_bmod
    · simpa [State.sent, min_eq_left hc] using hw
  | release =>
    obtain ⟨rfl, hb, hz, rfl⟩ := hp.release_reader
    simp [Transfer.reader, releaseSem, Attempt.resume] at hs
    subst hs
    refine ⟨false, hb.idle hz, hc, hd, fun h0 => absurd h0 hz, hr, hw, ?_⟩
    simpa [xfrsAfter, ReaderPc.behind, hz] using hx
  | lastRelease =>
    obtain ⟨rfl, hb, hz, rfl⟩ := hp.lastRelease_reader
    simp [Transfer.reader, releaseSem, Attempt.resume] at hs
    subst hs
    exact ⟨false, .ended hb hz, hc, hd, fun _ _ => he hz (.inr (.inl rfl)), hr, hw, hx⟩
  | done | failed => cases hs

theorem Inv.step {BUF_SIZE : Nat} {file : Bytes} {s t : State} {a : Act}
    (h : ∃ fl, Inv file fl s) (hs : Step BUF_SIZE s a t) : ∃ fl, Inv file fl t := by
  obtain ⟨fl, h⟩ := h
  cases a with
  | writer => exact ⟨fl, h.writer hs⟩
  | read n => exact ⟨true, h.read hs⟩
  | reader => exact h.reader hs

/-! ## The end -/

/-- Steps that the writer has still to make in its present iteration, and ten for a `read`. -/
def WriterPc.left (cnt : Nat) : WriterPc → Nat
  | .reserve => 13
  | .read => 12
  | .release => 10 + if cnt = 0 then 0 else 10
  | .test => 4 + if cnt = 0 then 0 else 10
  | .lastReserve => 3
  | .remove => 1
  | .done | .failed => 0

def ReaderPc.left : ReaderPc → Nat
  | .test => 4
  | .write => 3
  | .release => 2
  | .reserve | .lastRelease => 1
  | .done | .failed => 0

/-- What is available to the reader. -/
def offers (sems : Option (Sem → Nat)) : Nat := sems.elim 0 (· .read)

def State.left (s : State) : Nat :=
  10 * s.input.length + s.wPc.left s.cnt + s.rPc.left + 5 * offers s.sems

theorem offers_reserve {sems : Option (Sem → Nat)} {n : Sem} {v : Sem → Nat}
    (h : reserveSem sems n = .done v) :
    offers (some v) + (if n = .read then 1 else 0) = offers sems := by
  cases sems with
  | none => cases h
  | some v0 =>
    by_cases hv : 0 < v0 n
    · simp only [reserveSem, if_pos hv, Attempt.done.injEq] at h
      subst h
      cases n <;> simp [offers]
      omega
    · simp [reserveSem, hv] at h

theorem offers_release {sems : Option (Sem → Nat)} {n : Sem} {v : Sem → Nat}
    (h : releaseSem sems n = .done v) :
    offers (some v) = offers sems + if n = .read then 1 else 0 := by
  cases sems with
  | none => cases h
  | some v0 =>
    cases h
    cases n <;> simp [offers]

theorem left_lt {BUF_SIZE : Nat} {s t : State} {a : Act} (hs : Step BUF_SIZE s a t) :
    t.left < s.left := by
  obtain ⟨input, output, sems, cnt, buf, wPc, wBytes, wXfrs, rPc, rBytes, rXfrs⟩ := s
  cases a with
  | read n =>
    obtain ⟨⟨rfl, -, hn, hz⟩, rfl⟩ := by simpa [Step, exec, Transfer.read] using hs
    simp only [State.left, WriterPc.left, List.length_drop]
    split <;> omega
  | writer =>
    cases wPc with
    | reserve | lastReserve =>
      simp only [Step, exec, Transfer.writer] at hs
      obtain ⟨-, rfl⟩ | ⟨v, hv, rfl⟩ := Attempt.resume_eq_some.mp hs
      · simp [State.left, WriterPc.left]
      · have := offers_reserve hv
        simp [State.left, WriterPc.left] at this ⊢
        omega
    | release =>
      simp only [Step, exec, Transfer.writer] at hs
      obtain ⟨-, rfl⟩ | ⟨v, hv, rfl⟩ := Attempt.resume_eq_some.mp hs
      · simp [State.left, WriterPc.left]
      · have := offers_release hv
        simp only [State.left, WriterPc.left, if_true] at this ⊢
        split <;> omega
    | test =>
      by_cases hz : cnt = 0 <;> simp [Step, exec, Transfer.writer, hz] at hs <;> subst hs <;>
        simp [State.left, WriterPc.left, hz]
    | remove =>
      cases hs
      simp only [State.left, WriterPc.left, offers, Option.elim]
      omega
    | read | done | failed => cases hs
  | reader =>
    cases rPc with
    | reserve =>
      simp only [Step, exec, Transfer.reader] at hs
      obtain ⟨-, rfl⟩ | ⟨v, hv, rfl⟩ := Attempt.resume_eq_some.mp hs
      · simp [State.left, ReaderPc.left]
      · have := offers_reserve hv
        simp only [State.left, ReaderPc.left, if_true] at this ⊢
        omega
    | release | lastRelease =>
      simp only [Step, exec, Transfer.reader] at hs
      obtain ⟨-, rfl⟩ | ⟨v, hv, rfl⟩ := Attempt.resume_eq_some.mp hs
      · simp [State.left, ReaderPc.left]
      · have := offers_release hv
        simp [State.left, ReaderPc.left] at this ⊢
        omega
    | test =>
      cases hs
      simp only [State.left]
      split <;> simp [ReaderPc.left]
    | write =>
      cases hs
      simp [State.left, ReaderPc.left]
    | done | failed => cases hs

theorem Inv.next {BUF_SIZE : Nat} (hbuf : 0 < BUF_SIZE) {file : Bytes} {fl : Bool} {s : State}
    (h : Inv file fl s) : Done s ∨ ∃ a t, Step BUF_SIZE s a t := by
  obtain ⟨hp, -, -, -, -, -, -⟩ := h
  obtain ⟨input, output, sems, cnt, buf, wPc, wBytes, wXfrs, rPc, rBytes, rXfrs⟩ := s
  simp only at hp
  cases hp with
  | finished => exact .inl ⟨rfl, rfl⟩
  | idle | filled | removing => exact .inr ⟨.writer, _, rfl⟩
  | idleTest hz => exact .inr ⟨.writer, _, if_neg hz⟩
  | reading =>
    refine .inr ⟨.read (min BUF_SIZE input.length), _, if_pos ⟨rfl, by simp, by simp, fun h => ?_⟩⟩
    have : input.length = 0 := by omega
    simpa using this
  | offered | taken | writing | written | ending => exact .inr ⟨.reader, _, rfl⟩
  | ended hw hz =>
    cases hw with
    | again h => exact absurd hz h
    | test => exact .inr ⟨.writer, _, if_pos hz⟩
    | last => exact .inr ⟨.writer, _, rfl⟩

/-- **The transfer**: no interleaving of the two programs goes on for ever or leaves them waiting
for each other. At every moment what the reader has written is a prefix of the input, no call has
failed on a removed semaphore set, and the writer does not fill the segment while the reader uses
it; at the end the output is the input, and both parties report the same bytes and transfers. -/
theorem transfer_correct {BUF_SIZE : Nat} (hbuf : 0 < BUF_SIZE) (file : Bytes) :
    Ends (Step BUF_SIZE) (start BUF_SIZE file) Done ∧
      ∀ as s, Run (Step BUF_SIZE) (start BUF_SIZE file) as s →
        s.output <+: file ∧ s.wPc ≠ .failed ∧ s.rPc ≠ .failed ∧
        ¬ (s.wPc = .read ∧ (s.rPc = .test ∨ s.rPc = .write)) ∧
        (Done s → s.output = file ∧ s.wBytes = toInt32 file.length ∧ s.rBytes = s.wBytes ∧
          s.rXfrs = s.wXfrs) := by
  have hstart : ∃ fl, Inv file fl (start BUF_SIZE file) := ⟨false, inv_start BUF_SIZE file⟩
  refine ⟨Ends.of_measure (μ := State.left) (fun s a t h hs => ⟨Inv.step h hs, left_lt hs⟩)
    (fun s ⟨fl, h⟩ => h.next hbuf) hstart, fun as s hr => ?_⟩
  obtain ⟨fl, hp, -, hd, he, hrb, hw, hx⟩ := hr.invariant (fun _ _ _ h hs => Inv.step h hs) hstart
  refine ⟨⟨_, (List.append_assoc ..).symm.trans hd⟩, hp.not_failed.1, hp.not_failed.2, hp.excl,
    fun ⟨hwd, hrd⟩ => ?_⟩
  rw [hwd, hrd] at hp
  obtain ⟨hz, rfl⟩ := hp.done
  have hin := he hz (.inr (.inr hrd))
  have hout : s.output = file := by simpa [hin] using hd
  have hwb : s.wBytes = toInt32 file.length := by
    simpa [hwd, WriterPc.behind, State.sent, hout] using hw
  refine ⟨hout, hwb, by rw [hrb, hwb, hout], ?_⟩
  simpa [hwd, hrd, WriterPc.behind, ReaderPc.behind, xfrsAfter] using hx.symm

/-- With the buffer size of the header file. -/
theorem transfer_correct_default :
    ∃ as s, Run (Step 1024) (start 1024 [72, 105]) as s ∧ Done s ∧ s.output = [72, 105] := by
  obtain ⟨hends, hsafe⟩ := transfer_correct (by decide : 0 < 1024) [72, 105]
  obtain ⟨as, s, hr, hdone⟩ := hends.completes [] _ (.nil _)
  exact ⟨as, s, hr, hdone, ((hsafe as s hr).2.2.2.2 hdone).1⟩

end Tlpi.Transfer
