import Tlpi.Lib.CString
import Tlpi.Lib.Fault
import Tlpi.Lib.Open

/-!
# copy

`13-file-io-buffering/copy.c` copies a file through a buffer. The results of its calls are given one
after the other: a `read` fails or returns something, which may be less than the buffer holds, and a
`write` fails or takes part of what it is given. Without a failure the destination ends as the
source, however the reads cut it into pieces.

A failure is only printed. The program goes on after it and returns 0, so that nobody learns of it
from the exit status, and after a failed `open` of the source it still truncates the destination
(`noSilentLoss_iff`).
-/

namespace Tlpi.Copy

open Tlpi.Lib

/-- What the system does: whether each file may be opened, and for each turn of the loop what the
`read` offers and the `write` takes at most, `none` when it fails. -/
structure Env where
  opensInput : Bool
  opensOutput : Bool
  reads : Nat → Option Nat
  writes : Nat → Option Nat

/-- The calls whose failure the program prints. -/
inductive Failure where
  | openInput
  | openOutput
  | read
  | write
  deriving DecidableEq

structure Run where
  status : Int
  /-- The calls that failed or were short, in order. -/
  failures : List Failure
  fs : FileSys

/-- `read(inputFd, buf, BUF_SIZE)`, where a descriptor is `none` for -1. At the end of the file it
returns nothing. -/
def readBuf (bufSize : Nat) (offered : Option Nat) (inputFd : Option OpenFile) (fs : FileSys) :
    Option (Bytes × OpenFile) := do
  let f ← inputFd
  let n ← offered
  f.read fs (min bufSize (max 1 n))

/-- `write(outputFd, buf, numRead)`: what it returns, and the file. -/
def writeBuf (taken : Option Nat) (outputFd : OpenFile) (fs : FileSys) (buf : Bytes) :
    Int × OpenFile × FileSys :=
  match taken with
  | none => (-1, outputFd, fs)
  | some n =>
    match outputFd.write fs (buf.take n) with
    | none => (-1, outputFd, fs)
    | some (outputFd, fs) => ((buf.take n).length, outputFd, fs)

/-- The `while` loop. -/
def copyLoop (bufSize : Nat) : (fuel : Nat) → (reads writes : Nat → Option Nat) → Option OpenFile →
    OpenFile → FileSys → Except Fault (List Failure × FileSys)
  | 0, _, _, _, _, _ => .error .outOfFuel
  | fuel + 1, reads, writes, inputFd, outputFd, fs =>
    match readBuf bufSize (reads 0) inputFd fs with
    | none => .ok ([.read], fs)
    | some (buf, inputFd) =>
      if buf = [] then .ok ([], fs)
      else do
        let (numWritten, outputFd, fs) := writeBuf (writes 0) outputFd fs buf
        let (failures, fs) ← copyLoop bufSize fuel (fun i => reads (i + 1))
          (fun i => writes (i + 1)) (some inputFd) outputFd fs
        return (if numWritten ≠ buf.length then .write :: failures else failures, fs)

/-- `openFlags` -/
def outputFlags : Nat := O_CREAT ||| O_WRONLY ||| O_TRUNC

/-- `open(argv[1], O_RDONLY)` -/
def openInput (env : Env) (fs : FileSys) (old : Bytes) : Option OpenFile :=
  if env.opensInput then (openFlags fs old O_RDONLY).map Prod.fst else none

/-- `open(argv[2], openFlags, filePerms)` -/
def openOutput (env : Env) (fs : FileSys) (new : Bytes) : Option (OpenFile × FileSys) :=
  if env.opensOutput then openFlags fs new outputFlags else none

/-- `main`. The loop turns at most once for each byte of the source and once for its end. -/
def main (env : Env) (bufSize : Nat) (argv : List Bytes) (fs : FileSys) : Except Fault Run :=
  match argv with
  | [_, old, new] =>
    if old = bytesOf "--help" then .ok { status := 0, failures := [], fs }
    else
      let inputFd := openInput env fs old
      -- the failure is printed, and the program goes on
      let opened : List Failure := if inputFd.isNone then [.openInput] else []
      match openOutput env fs new with
      | none => .ok { status := 0, failures := opened ++ [.openOutput], fs }
      | some (outputFd, fs) => do
        let fuel := ((fs old).getD []).length + 1
        let (failures, fs) ← copyLoop bufSize fuel env.reads env.writes inputFd outputFd fs
        return { status := 0, failures := opened ++ failures, fs }
  | _ => .ok { status := 0, failures := [], fs }

/-! ## Copies without a failure -/

section Undisturbed

variable {reads writes : Nat → Option Nat} {bufSize : Nat}

/-- How much the `i`-th read asks for, or would if it did not fail. -/
def chunk (reads : Nat → Option Nat) (bufSize i : Nat) : Nat :=
  min bufSize (max 1 ((reads i).getD 1))

/-- How much the reads before the `i`-th ask for. -/
def position (reads : Nat → Option Nat) (bufSize i : Nat) : Nat :=
  ∑ j ∈ Finset.range i, chunk reads bufSize j

/-- No call of the loop fails or is short, for a source of `length` bytes: neither the reads up to
the first at the end of the source, nor the writes of what the reads before the end return. -/
structure Undisturbed (reads writes : Nat → Option Nat) (bufSize length : Nat) : Prop where
  read : ∀ i, (∀ j < i, position reads bufSize j < length) → reads i ≠ none
  write : ∀ i, position reads bufSize i < length →
    ∃ n, writes i = some n ∧ min (chunk reads bufSize i) (length - position reads bufSize i) ≤ n

theorem position_succ (reads : Nat → Option Nat) (bufSize i : Nat) :
    position reads bufSize (i + 1) =
      chunk reads bufSize 0 + position (fun j => reads (j + 1)) bufSize i := by
  rw [position, Finset.sum_range_succ', Nat.add_comm]
  rfl

theorem undisturbed_zero : Undisturbed reads writes bufSize 0 ↔ reads 0 ≠ none := by
  constructor
  · intro h
    exact h.read 0 fun j hj => absurd hj (Nat.not_lt_zero j)
  · intro h
    refine ⟨fun i hpos => ?_, fun i hpos => absurd hpos (Nat.not_lt_zero _)⟩
    cases i with
    | zero => exact h
    | succ i => exact absurd (hpos 0 (Nat.succ_pos i)) (Nat.not_lt_zero _)

theorem undisturbed_pos {length : Nat} (hpos : 0 < length) :
    Undisturbed reads writes bufSize length ↔
      reads 0 ≠ none ∧ (∃ n, writes 0 = some n ∧ min (chunk reads bufSize 0) length ≤ n) ∧
        Undisturbed (fun i => reads (i + 1)) (fun i => writes (i + 1)) bufSize
          (length - chunk reads bufSize 0) := by
  have hzero : position reads bufSize 0 = 0 := Finset.sum_range_zero _
  constructor
  · intro h
    refine ⟨h.read 0 fun j hj => absurd hj (Nat.not_lt_zero j), ?_, ?_, ?_⟩
    · have hwrite := h.write 0 (by rwa [hzero])
      rwa [hzero, Nat.sub_zero] at hwrite
    · intro i hbefore
      refine h.read (i + 1) fun j hj => ?_
      cases j with
      | zero => rwa [hzero]
      | succ j =>
        have hlt := hbefore j (by omega)
        rw [position_succ]
        omega
    · intro i hlt
      have hwrite := h.write (i + 1) (by rw [position_succ]; omega)
      rwa [position_succ, ← Nat.sub_sub] at hwrite
  · rintro ⟨hread, hwrite, hrest⟩
    refine ⟨fun i hbefore => ?_, fun i hlt => ?_⟩
    · cases i with
      | zero => exact hread
      | succ i =>
        refine hrest.read i fun j hj => ?_
        have hlt := hbefore (j + 1) (by omega)
        rw [position_succ] at hlt
        omega
    · cases i with
      | zero => rwa [hzero, Nat.sub_zero]
      | succ i =>
        rw [position_succ] at hlt ⊢
        rw [← Nat.sub_sub]
        exact hrest.write i (by omega)

end Undisturbed

/-! ## The loop -/

section Loop

variable {old new content : Bytes} {bufSize : Nat} {fs : FileSys}

/-- The source, open and read up to `offset`. -/
def inputAt (old : Bytes) (offset : Nat) : OpenFile :=
  { name := old, flags := O_RDONLY, fd := { offset, append := false } }

/-- The destination, open and written up to `offset`. -/
def outputAt (new : Bytes) (offset : Nat) : OpenFile :=
  { name := new, flags := outputFlags, fd := { offset, append := false } }

theorem readBuf_none (bufSize : Nat) (inputFd : Option OpenFile) (fs : FileSys) :
    readBuf bufSize none inputFd fs = none := by
  cases inputFd <;> rfl

theorem readBuf_some (hold : fs old = some content) (offset n : Nat) :
    readBuf bufSize (some n) (some (inputAt old offset)) fs =
      some (pread content offset (min bufSize (max 1 n)),
        inputAt old (offset + (pread content offset (min bufSize (max 1 n))).length)) := by
  have hflags : O_RDONLY &&& O_ACCMODE ≠ O_WRONLY := by decide
  exact OpenFile.read_eq (f := inputAt old offset) hflags hold _

theorem writeBuf_eq {w : Bytes} (hnew : fs new = some w) (taken : Option Nat) (buf : Bytes) :
    ∃ numWritten, writeBuf taken (outputAt new w.length) fs buf =
        (numWritten, outputAt new (w ++ buf.take (taken.getD 0)).length,
          Function.update fs new (some (w ++ buf.take (taken.getD 0)))) ∧
      (numWritten = buf.length ↔ ∃ n, taken = some n ∧ buf.length ≤ n) := by
  cases taken with
  | none =>
    refine ⟨-1, ?_, iff_of_false (by omega) (by simp)⟩
    rw [writeBuf, Option.getD_none, List.take_zero, List.append_nil, ← hnew,
      Function.update_eq_self]
  | some n =>
    refine ⟨(buf.take n).length, ?_, ?_⟩
    · have hflags : outputFlags &&& O_ACCMODE ≠ O_RDONLY := by decide
      rw [writeBuf, OpenFile.write_end (f := outputAt new w.length) hflags hnew (.inr rfl),
        Option.getD_some, List.length_append]
      rfl
    · simp only [List.length_take, Option.some.injEq, exists_eq_left']
      omega

theorem copyLoop_turn {fuel : Nat} {reads writes : Nat → Option Nat} {inputFd : Option OpenFile}
    {inputFd' outputFd outputFd' : OpenFile} {buf : Bytes} {fs₁ fs₂ : FileSys} {numWritten : Int}
    {failures : List Failure} (hread : readBuf bufSize (reads 0) inputFd fs = some (buf, inputFd'))
    (hbuf : buf ≠ []) (hwrite : writeBuf (writes 0) outputFd fs buf = (numWritten, outputFd', fs₁))
    (hrest : copyLoop bufSize fuel (fun i => reads (i + 1)) (fun i => writes (i + 1))
      (some inputFd') outputFd' fs₁ = .ok (failures, fs₂)) :
    copyLoop bufSize (fuel + 1) reads writes inputFd outputFd fs =
      .ok (if numWritten = buf.length then failures else .write :: failures, fs₂) := by
  rw [copyLoop, hread]
  dsimp only
  rw [if_neg hbuf, hwrite]
  dsimp only
  rw [hrest]
  show Except.ok (if numWritten ≠ buf.length then _ else _, fs₂) = _
  rw [ite_not]

/-- The result of a loop that starts with the source read up to `offset` and with `w` in the
destination: it notices a failure exactly when there is one, and otherwise it has added the rest of
the source. -/
def Copies (reads writes : Nat → Option Nat) (bufSize : Nat) (content : Bytes) (offset : Nat)
    (new w : Bytes) (result : Except Fault (List Failure × FileSys)) : Prop :=
  ∃ failures fs', result = .ok (failures, fs') ∧
    (failures = [] ↔ Undisturbed reads writes bufSize (content.length - offset)) ∧
    (failures = [] → fs' new = some (w ++ content.drop offset))

section Outcomes

variable {reads writes : Nat → Option Nat} {fuel offset : Nat} {w : Bytes}

theorem copies_read_fails (hread : reads 0 = none) (inputFd : Option OpenFile)
    (outputFd : OpenFile) :
    Copies reads writes bufSize content offset new w
      (copyLoop bufSize (fuel + 1) reads writes inputFd outputFd fs) := by
  refine ⟨[.read], fs, ?_, iff_of_false (List.cons_ne_nil _ _) (fun h => ?_), nofun⟩
  · rw [copyLoop, hread, readBuf_none]
  · exact h.read 0 (fun j hj => absurd hj (Nat.not_lt_zero j)) hread

theorem copies_end (hold : fs old = some content) (hnew : fs new = some w)
    (hread : reads 0 ≠ none) (hend : content.length ≤ offset) (outputFd : OpenFile) :
    Copies reads writes bufSize content offset new w
      (copyLoop bufSize (fuel + 1) reads writes (some (inputAt old offset)) outputFd fs) := by
  obtain ⟨n, hn⟩ := Option.ne_none_iff_exists'.mp hread
  have hnil : pread content offset (min bufSize (max 1 n)) = [] := by
    rw [pread, List.drop_of_length_le hend, List.take_nil]
  refine ⟨[], fs, ?_, ?_, fun _ => ?_⟩
  · rw [copyLoop, hn, readBuf_some hold, hnil]
    exact if_pos rfl
  · rw [Nat.sub_eq_zero_of_le hend, undisturbed_zero]
    exact iff_of_true rfl hread
  · rw [hnew, List.drop_of_length_le hend, List.append_nil]

theorem copies_turn (hbuf : 0 < bufSize) (hold : fs old = some content) (hnew : fs new = some w)
    (hread : reads 0 ≠ none) (hmore : offset < content.length)
    (hrest : ∀ offset' w', offset < offset' →
      Copies (fun i => reads (i + 1)) (fun i => writes (i + 1)) bufSize content offset' new w'
        (copyLoop bufSize fuel (fun i => reads (i + 1)) (fun i => writes (i + 1))
          (some (inputAt old offset')) (outputAt new w'.length)
          (Function.update fs new (some w')))) :
    Copies reads writes bufSize content offset new w
      (copyLoop bufSize (fuel + 1) reads writes (some (inputAt old offset))
        (outputAt new w.length) fs) := by
  obtain ⟨n, hn⟩ := Option.ne_none_iff_exists'.mp hread
  have hchunk : chunk reads bufSize 0 = min bufSize (max 1 n) := by
    rw [chunk, hn, Option.getD_some]
  have hreadBuf := @readBuf_some old content bufSize fs hold offset n
  rw [← hchunk, ← hn] at hreadBuf
  have hlen := length_pread content offset (chunk reads bufSize 0)
  have hdrop := pread_append_drop content offset (chunk reads bufSize 0)
  generalize pread content offset (chunk reads bufSize 0) = buf at hlen hdrop hreadBuf
  have hpos : 0 < buf.length := by omega
  have hleft : content.length - (offset + buf.length) =
      content.length - offset - chunk reads bufSize 0 := by omega
  obtain ⟨numWritten, hwrite, hfull⟩ := writeBuf_eq hnew (writes 0) buf
  obtain ⟨failures, fs', hrun, hclean, hdest⟩ :=
    hrest _ (w ++ buf.take ((writes 0).getD 0)) (Nat.lt_add_of_pos_right hpos)
  have hnone : (if numWritten = buf.length then failures else .write :: failures) = [] ↔
      numWritten = buf.length ∧ failures = [] := by
    split
    · next hw => exact ⟨fun h => ⟨hw, h⟩, fun h => h.2⟩
    · next hw => exact iff_of_false (List.cons_ne_nil _ _) fun h => hw h.1
  refine ⟨_, fs', copyLoop_turn hreadBuf (List.ne_nil_of_length_pos hpos) hwrite hrun, ?_,
    fun h => ?_⟩
  · rw [hnone, undisturbed_pos (Nat.sub_pos_of_lt hmore), ← hlen, ← hfull, ← hleft, ← hclean]
    exact (and_iff_right hread).symm
  · obtain ⟨hw, hempty⟩ := hnone.mp h
    obtain ⟨k, hk, hle⟩ := hfull.mp hw
    rw [hdest hempty, hk, Option.getD_some, List.take_of_length_le hle, List.append_assoc, hdrop]

end Outcomes

/-- **The loop from `offset` on** ends, with enough fuel for the bytes that are left. -/
theorem copyLoop_spec (hne : old ≠ new) (hbuf : 0 < bufSize) {reads writes : Nat → Option Nat}
    {fuel offset : Nat} {w : Bytes} (hfuel : content.length - offset < fuel)
    (hold : fs old = some content) (hnew : fs new = some w) :
    Copies reads writes bufSize content offset new w
      (copyLoop bufSize fuel reads writes (some (inputAt old offset))
        (outputAt new w.length) fs) := by
  induction fuel generalizing reads writes offset w fs with
  | zero => exact absurd hfuel (Nat.not_lt_zero _)
  | succ fuel ih =>
    by_cases hread : reads 0 = none
    · exact copies_read_fails hread _ _
    by_cases hend : content.length ≤ offset
    · exact copies_end hold hnew hread hend _
    apply copies_turn hbuf hold hnew hread (Nat.lt_of_not_le hend)
    intro offset' w' hlt
    have hold' : Function.update fs new (some w') old = some content := by
      rw [Function.update_of_ne hne, hold]
    exact ih (by omega) hold' (Function.update_self _ _ _)

end Loop

/-! ## The program -/

/-- The source exists and may be opened. -/
def CanOpen (env : Env) (fs : FileSys) (old : Bytes) : Prop := env.opensInput = true ∧ fs old ≠ none

/-- No data is lost without a sign of it: a source that cannot be opened leaves the destination
alone, a failure shows in the exit status, and without one the source has been copied. -/
structure NoSilentLoss (env : Env) (old new : Bytes) (before : FileSys) (run : Run) : Prop where
  kept : ¬ CanOpen env before old → run.fs new = before new
  reported : run.failures ≠ [] → run.status ≠ 0
  copied : CanOpen env before old → run.failures = [] → run.fs new = before old

/-- What has to be the case for that. With the name `--help` nothing is copied. -/
def Harmless (env : Env) (bufSize : Nat) (old new : Bytes) (fs : FileSys) : Prop :=
  if old = bytesOf "--help" then CanOpen env fs old → fs new = fs old
  else CanOpen env fs old ∧ env.opensOutput = true ∧
    Undisturbed env.reads env.writes bufSize ((fs old).getD []).length

section Main

variable {env : Env} {bufSize : Nat} {prog old new : Bytes} {fs : FileSys}

/-- The destination is emptied, whether it existed or not. -/
theorem openOutput_eq (h : env.opensOutput = true) (fs : FileSys) (new : Bytes) :
    openOutput env fs new = some (outputAt new 0, Function.update fs new (some [])) := by
  have hcreat : outputFlags &&& O_CREAT ≠ 0 := by decide
  have htrunc : outputFlags &&& O_TRUNC ≠ 0 := by decide
  rw [openOutput, if_pos h, openFlags]
  cases fs new with
  | none => exact if_neg hcreat
  | some c => exact if_neg htrunc

theorem openInput_some {content : Bytes} (h : env.opensInput = true)
    (hold : fs old = some content) :
    openInput env fs old = some (inputAt old 0) := by
  have htrunc : O_RDONLY &&& O_TRUNC = 0 := by decide
  rw [openInput, if_pos h, openFlags, hold]
  dsimp only
  rw [if_pos htrunc]
  rfl

theorem openInput_none (h : ¬ CanOpen env fs old) : openInput env fs old = none := by
  rw [openInput]
  split
  · next hopens =>
    have hold : fs old = none := by
      by_contra hne
      exact h ⟨hopens, hne⟩
    have hcreat : O_RDONLY &&& O_CREAT = 0 := by decide
    rw [openFlags, hold]
    dsimp only
    rw [if_pos hcreat]
    rfl
  · rfl

theorem not_noSilentLoss {run : Run} (hstatus : run.status = 0) (hfail : run.failures ≠ []) :
    ¬ NoSilentLoss env old new fs run := fun h => h.reported hfail hstatus

theorem main_no_output (hhelp : old ≠ bytesOf "--help") (hout : openOutput env fs new = none) :
    main env bufSize [prog, old, new] fs =
      .ok { status := 0, fs,
            failures := (if (openInput env fs old).isNone then [.openInput] else []) ++
              [.openOutput] } := by
  rw [main, if_neg hhelp]
  dsimp only
  rw [hout]

theorem main_output (hhelp : old ≠ bytesOf "--help") {outputFd : OpenFile} {fs₁ fs₂ : FileSys}
    {failures : List Failure} (hout : openOutput env fs new = some (outputFd, fs₁))
    (hloop : copyLoop bufSize (((fs₁ old).getD []).length + 1) env.reads env.writes
      (openInput env fs old) outputFd fs₁ = .ok (failures, fs₂)) :
    main env bufSize [prog, old, new] fs =
      .ok { status := 0, fs := fs₂,
            failures := (if (openInput env fs old).isNone then [.openInput] else []) ++
              failures } := by
  rw [main, if_neg hhelp]
  dsimp only
  rw [hout]
  dsimp only
  rw [hloop]
  rfl

theorem main_opened (hhelp : old ≠ bytesOf "--help") (hne : old ≠ new) (hbuf : 0 < bufSize)
    (hopens : env.opensOutput = true) (hcan : CanOpen env fs old) :
    ∃ failures fs₂,
      main env bufSize [prog, old, new] fs = .ok { status := 0, failures, fs := fs₂ } ∧
      (failures = [] ↔ Undisturbed env.reads env.writes bufSize ((fs old).getD []).length) ∧
      (failures = [] → fs₂ new = fs old) := by
  obtain ⟨content, hold⟩ := Option.ne_none_iff_exists'.mp hcan.2
  have hinput : openInput env fs old = some (inputAt old 0) := openInput_some hcan.1 hold
  have hold' : Function.update fs new (some []) old = some content := by
    rw [Function.update_of_ne hne, hold]
  obtain ⟨failures, fs₂, hloop, hclean, hdest⟩ :=
    copyLoop_spec hne hbuf (Nat.lt_succ_self (content.length - 0)) hold'
      (Function.update_self new (some []) fs)
  refine ⟨failures, fs₂, ?_, ?_, ?_⟩
  · have hloop' : copyLoop bufSize (((Function.update fs new (some []) old).getD []).length + 1)
        env.reads env.writes (openInput env fs old) (outputAt new 0)
        (Function.update fs new (some [])) = .ok (failures, fs₂) := by
      rw [hold', hinput]
      exact hloop
    rw [main_output hhelp (openOutput_eq hopens fs new) hloop', hinput]
    rfl
  · rw [hold]
    exact hclean
  · intro h
    rw [hdest h, hold]
    rfl

theorem main_no_input (hhelp : old ≠ bytesOf "--help") (hopens : env.opensOutput = true)
    (hcan : ¬ CanOpen env fs old) :
    main env bufSize [prog, old, new] fs =
      .ok { status := 0, failures := [.openInput, .read],
            fs := Function.update fs new (some []) } := by
  have hinput : openInput env fs old = none := openInput_none hcan
  have hloop : copyLoop bufSize (((Function.update fs new (some []) old).getD []).length + 1)
      env.reads env.writes (openInput env fs old) (outputAt new 0)
      (Function.update fs new (some [])) = .ok ([.read], Function.update fs new (some [])) := by
    rw [hinput]
    rfl
  rw [main_output hhelp (openOutput_eq hopens fs new) hloop, hinput]
  rfl

/-- **Data is not lost silently** exactly when nothing goes wrong. -/
theorem noSilentLoss_iff (env : Env) (bufSize : Nat) (hbuf : 0 < bufSize) (prog old new : Bytes)
    (hne : old ≠ new) (fs : FileSys) :
    ∃ run, main env bufSize [prog, old, new] fs = .ok run ∧
      (NoSilentLoss env old new fs run ↔ Harmless env bufSize old new fs) := by
  rw [Harmless]
  split
  · next hhelp =>
    refine ⟨{ status := 0, failures := [], fs }, if_pos hhelp, fun h hcan => h.copied hcan rfl, ?_⟩
    intro h
    exact ⟨fun _ => rfl, fun hfail => absurd rfl hfail, fun hcan _ => h hcan⟩
  · next hhelp =>
    by_cases hopens : env.opensOutput = true
    · by_cases hcan : CanOpen env fs old
      · obtain ⟨failures, fs₂, hmain, hclean, hdest⟩ :=
          @main_opened env bufSize prog old new fs hhelp hne hbuf hopens hcan
        refine ⟨_, hmain, ?_⟩
        rw [← hclean]
        constructor
        · intro h
          refine ⟨hcan, hopens, ?_⟩
          by_contra hfail
          exact h.reported hfail rfl
        · rintro ⟨-, -, hempty⟩
          exact ⟨fun hnot => absurd hcan hnot, fun hfail => absurd hempty hfail, fun _ => hdest⟩
      · refine ⟨_, main_no_input hhelp hopens hcan, iff_of_false ?_ fun h => hcan h.1⟩
        exact not_noSilentLoss rfl (List.cons_ne_nil _ _)
    · refine ⟨_, main_no_output hhelp (if_neg hopens), iff_of_false ?_ fun h => hopens h.2.1⟩
      exact not_noSilentLoss rfl (List.append_ne_nil_of_right_ne_nil _ (List.cons_ne_nil _ _))

end Main

/-- A system on which every call succeeds and transfers all it is asked for. -/
def plainEnv : Env where
  opensInput := true
  opensOutput := true
  reads _ := some 1024
  writes _ := some 1024

/-- A single file `b`. -/
def onlyB : FileSys := fun name => if name = bytesOf "b" then some (bytesOf "data") else none

/-- A file copied to a name that does not exist. -/
theorem noSilentLoss_plain :
    ∃ run, main plainEnv 1024 [bytesOf "copy", bytesOf "b", bytesOf "a"] onlyB = .ok run ∧
      (NoSilentLoss plainEnv (bytesOf "b") (bytesOf "a") onlyB run ↔
        Harmless plainEnv 1024 (bytesOf "b") (bytesOf "a") onlyB) :=
  noSilentLoss_iff plainEnv 1024 (by decide) (bytesOf "copy") (bytesOf "b") (bytesOf "a")
    (by decide) onlyB

/-- Copying a file that does not exist to one that does: the old contents are gone, and the exit
status is 0. -/
theorem not_noSilentLoss_missing :
    ¬ ∀ (env : Env) (bufSize : Nat) (prog old new : Bytes) (fs : FileSys) (run : Run),
      0 < bufSize → old ≠ new → main env bufSize [prog, old, new] fs = .ok run →
      NoSilentLoss env old new fs run := by
  intro h
  have hcan : ¬ CanOpen plainEnv onlyB (bytesOf "a") := fun hcan => hcan.2 (by decide)
  have hloss := h plainEnv 1024 (bytesOf "copy") (bytesOf "a") (bytesOf "b") onlyB _ (by decide)
    (by decide) (main_no_input (by decide) rfl hcan)
  exact absurd (hloss.kept hcan) (by decide)

end Tlpi.Copy
