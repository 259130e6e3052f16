import Tlpi.Lib.Stdio
import Tlpi.Lib.CString

/-!
# `tee`

`04-file-io-universal-io-model/tee.c` opens the files named on the command line, copies one input
stream to standard output and to all of them in blocks of at most 100 bytes, and closes them. The
input stream is not standard input: the program opens the file `tee.c`. A `Schedule` gives the sizes
of the blocks that `fread` returns and says how much of what it holds back the library writes out
after each block; a name stands for a file.

The program copies its standard input exactly when `tee.c` holds the same bytes and is not one of
the files it writes to, apart from two cases with no input (`copies_iff`).

The array of open files has room for 20, which is not checked, and the clean-up closes as many files
as there are arguments, also when one of them could not be opened (`setUpSafe_iff`).
-/

namespace Tlpi.Tee

open Tlpi.Lib

/-- The file that `main` reads. -/
def teeC : Bytes := bytesOf "tee.c"

/-- `sizeof(buf)` -/
def bufSize : Nat := 100

/-- The length of the array `files`. -/
def filesMax : Nat := 20

/-- What is left open by the program: the size of the `k`-th block that `fread` returns, when there
is that much, and how many bytes the library writes out to a file after it. -/
structure Schedule where
  block : Nat → Nat
  block_pos : ∀ k, 0 < block k
  block_le : ∀ k, block k ≤ bufSize
  sync : Nat → Bytes → Nat

/-- `getopt(argc, argv, "a")` called until it returns `-1`: the option characters it meets, and the
arguments that are left from `optind` on. The arguments that are not options are moved behind the
others. -/
def getopt : (argv : List Bytes) → Bytes × List Bytes
  | [] => ([], [])
  | arg :: argv =>
    if arg = bytesOf "--" then ([], argv)
    else if bytesOf "-" <+: arg ∧ 1 < arg.length then
      let (opts, rest) := getopt argv
      (arg.tail ++ opts, rest)
    else
      let (opts, rest) := getopt argv
      (opts, arg :: rest)

/-- The loop of `parse_args` over the option characters: `append_mode` after it, or `none` when it
returns 1. -/
def parseArgs : Bytes → Bool → Option Bool
  | [], appendMode => some appendMode
  | c :: opts, _ => if [c] = bytesOf "a" then parseArgs opts true else none

/-- The loop that opens the files: `files` is the array as far as it is assigned, and `canOpen k`
says whether the `k`-th `fopen` succeeds. The first component is false when the loop ends with
`goto main_cleanup`. -/
def openFiles (canOpen : Nat → Bool) (mode : Mode) :
    List Bytes → List Stream → FileSys → Except Fault (Bool × List Stream × FileSys)
  | [], files, fs => .ok (true, files, fs)
  | name :: names, files, fs =>
    if canOpen files.length then
      let (pFile, fs) := fopen fs name mode
      if files.length < filesMax then openFiles canOpen mode names (files ++ [pFile]) fs
      else .error .outOfBounds
    else .ok (false, files, fs)

/-- The loop that writes a block to the files. -/
def fwriteAll (sync : Bytes → Nat) (buf : Bytes) : List Stream → FileSys → List Stream × FileSys
  | [], fs => ([], fs)
  | f :: files, fs =>
    let (f, fs) := (f.fwrite buf).sync (sync f.name) fs
    let (files, fs) := fwriteAll sync buf files fs
    (f :: files, fs)

/-- The variables of the copy loop. -/
structure State where
  notStdin : Fd
  stdout : Bytes
  files : List Stream
  fs : FileSys

/-- The `while` loop from the `k`-th block on. -/
def copyLoop (sched : Schedule) : (fuel : Nat) → Nat → State → Except Fault State
  | 0, _, _ => .error .outOfFuel
  | fuel + 1, k, s =>
    let (buf, notStdin) := s.notStdin.read ((s.fs teeC).getD []) (sched.block k)
    if buf.length > 0 then
      let (files, fs) := fwriteAll (sched.sync k) buf s.files s.fs
      copyLoop sched fuel (k + 1) { notStdin, stdout := s.stdout ++ buf, files, fs }
    else .ok s

/-- The loop after `main_cleanup`: the streams that it closes, and the files after it. -/
def closeFiles : (numFiles : Nat) → List Stream → FileSys → Except Fault (List Stream × FileSys)
  | 0, _, fs => .ok ([], fs)
  | _ + 1, [], _ => .error .uninitialised
  | numFiles + 1, f :: files, fs => do
    let (closed, fs) ← closeFiles numFiles files (f.fclose fs)
    return (f :: closed, fs)

/-- From `fopen("tee.c", "r")` on. Without that file `fread` is handed a null pointer. -/
def copy (sched : Schedule) (fuel : Nat) (s : State) : Except Fault State :=
  match s.fs teeC with
  | none => .error .outOfBounds
  | some _ => copyLoop sched fuel 0 s

/-- From `main_cleanup` on: standard output and the files in the end. -/
def cleanup (numFiles : Nat) (s : State) : Except Fault (Bytes × FileSys) := do
  let (_, fs) ← closeFiles numFiles s.files s.fs
  return (s.stdout, fs)

/-- `main` from `file_mode` on, with the arguments `args` from `optind` on. -/
def tee (appendMode : Bool) (canOpen : Nat → Bool) (args : List Bytes) (fs : FileSys)
    (sched : Schedule) (fuel : Nat) : Except Fault (Bytes × FileSys) := do
  let fileMode := if appendMode then .append else .write
  let (opened, files, fs) ← openFiles canOpen fileMode args [] fs
  let start : State := ⟨{ offset := 0, append := false }, [], files, fs⟩
  if opened then
    let s ← copy sched fuel start
    cleanup args.length s
  else cleanup args.length start

def main (canOpen : Nat → Bool) (argv : List Bytes) (fs : FileSys) (sched : Schedule)
    (fuel : Nat) : Except Fault (Bytes × FileSys) :=
  match parseArgs (getopt argv).1 false with
  | none => .ok ([], fs)
  | some appendMode => tee appendMode canOpen (getopt argv).2 fs sched fuel

/-! ## Files -/

/-- Every stream carries what its file held when it was opened and `d` after that. -/
def Carry (base : Bytes → Bytes) (d : Bytes) (files : List Stream) (fs : FileSys) : Prop :=
  ∀ f ∈ files, f.Carries fs (base f.name ++ d)

def names (files : List Stream) : List Bytes := files.map Stream.name

section Files

variable {base : Bytes → Bytes} {d : Bytes} {files : List Stream} {fs fs' : FileSys}

theorem Carry.congr (h : Carry base d files fs) (hfs : ∀ name ∈ names files, fs' name = fs name) :
    Carry base d files fs' := fun f hf => (h f hf).congr (hfs _ (List.mem_map_of_mem hf))

theorem carry_cons {f : Stream} :
    Carry base d (f :: files) fs ↔ f.Carries fs (base f.name ++ d) ∧ Carry base d files fs :=
  List.forall_mem_cons

theorem fwriteAll_cons (sync : Bytes → Nat) (buf : Bytes) (f : Stream) (files : List Stream)
    (fs : FileSys) :
    fwriteAll sync buf (f :: files) fs =
      let (f, fs) := (f.fwrite buf).sync (sync f.name) fs
      (f :: (fwriteAll sync buf files fs).1, (fwriteAll sync buf files fs).2) := rfl

theorem fwriteAll_spec (sync : Bytes → Nat) (buf : Bytes) (hnodup : (names files).Nodup)
    (h : Carry base d files fs) :
    names (fwriteAll sync buf files fs).1 = names files ∧
      Carry base (d ++ buf) (fwriteAll sync buf files fs).1 (fwriteAll sync buf files fs).2 ∧
      ∀ name ∉ names files, (fwriteAll sync buf files fs).2 name = fs name := by
  induction files generalizing fs with
  | nil => exact ⟨rfl, nofun, fun _ _ => rfl⟩
  | cons f files ih =>
    obtain ⟨hmem, hnodup⟩ := List.nodup_cons.mp hnodup
    obtain ⟨hf, hfiles⟩ := carry_cons.mp h
    have hf1 := (hf.fwrite buf).sync (sync f.name)
    have hname := (f.fwrite buf).sync_name (sync f.name) fs
    have hother : ∀ name, name ≠ f.name →
        ((f.fwrite buf).sync (sync f.name) fs).2 name = fs name :=
      fun name hne => Stream.sync_other _ hne
    rw [fwriteAll_cons]
    generalize (f.fwrite buf).sync (sync f.name) fs = r at *
    obtain ⟨f1, fs1⟩ := r
    dsimp only at *
    obtain ⟨hnames, hcarry, hframe⟩ := ih hnodup
      (hfiles.congr fun name hin => hother name fun heq => hmem (heq ▸ hin))
    refine ⟨?_, carry_cons.mpr ⟨?_, hcarry⟩, fun name hout => ?_⟩
    · show f1.name :: names _ = f.name :: names files
      rw [hname, hnames]
      rfl
    · rw [hname, ← List.append_assoc]
      refine hf1.congr (hframe _ ?_)
      rw [hname]
      exact hmem
    · obtain ⟨hne, hout⟩ := not_or.mp (mt List.mem_cons.mpr hout)
      rw [hframe name hout, hother name hne]

theorem fwriteAll_pending {n : Nat} {buf : Bytes} (hbuf : buf.length ≤ n)
    (h : ∀ f ∈ files, f.pending = []) :
    ∀ f ∈ (fwriteAll (fun _ => n) buf files fs).1, f.pending = [] := by
  induction files generalizing fs with
  | nil => exact nofun
  | cons f files ih =>
    obtain ⟨hf, hfiles⟩ := List.forall_mem_cons.mp h
    refine List.forall_mem_cons.mpr ⟨?_, ih hfiles⟩
    show (f.pending ++ buf).drop n = []
    rw [hf, List.nil_append, List.drop_of_length_le hbuf]

theorem closeFiles_spec (hnodup : (names files).Nodup) (h : Carry base d files fs) :
    ∃ fs', closeFiles files.length files fs = .ok (files, fs') ∧
      (∀ name ∈ names files, fs' name = some (base name ++ d)) ∧
      ∀ name ∉ names files, fs' name = fs name := by
  induction files generalizing fs with
  | nil => exact ⟨fs, rfl, nofun, fun _ _ => rfl⟩
  | cons f files ih =>
    obtain ⟨hmem, hnodup⟩ := List.nodup_cons.mp hnodup
    obtain ⟨hf, hfiles⟩ := carry_cons.mp h
    have hother : ∀ name, name ≠ f.name → f.fclose fs name = fs name :=
      fun name hne => Stream.fclose_other hne
    obtain ⟨fs', hclose, hin, hout⟩ := ih hnodup
      (hfiles.congr fun name hin => hother name fun heq => hmem (heq ▸ hin))
    refine ⟨fs', by rw [List.length_cons, closeFiles, hclose]; rfl, fun name hname => ?_,
      fun name hname => ?_⟩
    · rcases List.mem_cons.mp hname with rfl | hname
      · rw [hout _ hmem, hf.fclose]
      · exact hin name hname
    · obtain ⟨hne, hname⟩ := not_or.mp (mt List.mem_cons.mpr hname)
      rw [hout name hname, hother name hne]

theorem base_congr (mode : Mode) {fs0 : FileSys} {name : Bytes} (h : fs name = fs0 name) :
    mode.base fs name = mode.base fs0 name := by
  cases mode with
  | write => rfl
  | append => rw [Mode.base, Mode.base, h]

theorem names_add (files : List Stream) (fs : FileSys) (name : Bytes) (mode : Mode) :
    names (files ++ [(fopen fs name mode).1]) = names files ++ [name] := by
  rw [names, List.map_append]
  rfl

theorem Carry.add {mode : Mode} {fs0 : FileSys} {name : Bytes}
    (h : Carry (mode.base fs0) [] files fs) (hname : fs name = fs0 name)
    (hnot : name ∉ names files) :
    Carry (mode.base fs0) [] (files ++ [(fopen fs name mode).1]) (fopen fs name mode).2 := by
  refine List.forall_mem_append.mpr ⟨h.congr fun other hin => ?_, List.forall_mem_singleton.mpr ?_⟩
  · exact fopen_other mode fun heq => hnot (heq ▸ hin)
  · have hfile := Stream.carries_fopen fs name mode
    rw [base_congr mode hname] at hfile
    rw [List.append_nil]
    exact hfile

theorem openFiles_spec {canOpen : Nat → Bool} (mode : Mode) {args : List Bytes} {fs0 : FileSys}
    (hopen : ∀ k < args.length, canOpen (files.length + k) = true)
    (hroom : files.length + args.length ≤ filesMax)
    (hnodup : (names files ++ args).Nodup) (hfs : ∀ name ∈ args, fs name = fs0 name)
    (h : Carry (mode.base fs0) [] files fs) (hpending : ∀ f ∈ files, f.pending = []) :
    ∃ files' fs', openFiles canOpen mode args files fs = .ok (true, files', fs') ∧
      names files' = names files ++ args ∧ Carry (mode.base fs0) [] files' fs' ∧
      (∀ f ∈ files', f.pending = []) ∧ ∀ name ∉ args, fs' name = fs name := by
  induction args generalizing files fs with
  | nil => exact ⟨files, fs, rfl, (List.append_nil _).symm, h, hpending, fun _ _ => rfl⟩
  | cons name args ih =>
    have hcan : canOpen files.length = true := hopen 0 (Nat.succ_pos _)
    obtain ⟨hname, hfs⟩ := List.forall_mem_cons.mp hfs
    rw [List.length_cons] at hroom
    have hlen : (files ++ [(fopen fs name mode).1]).length = files.length + 1 := List.length_append
    have hopen1 : ∀ k < args.length,
        canOpen ((files ++ [(fopen fs name mode).1]).length + k) = true := by
      intro k hk
      rw [hlen, Nat.add_assoc, Nat.add_comm 1]
      exact hopen (k + 1) (Nat.succ_lt_succ hk)
    have hdisj := List.nodup_append.mp hnodup
    have hnot : name ∉ names files := fun hin => hdisj.2.2 _ hin _ List.mem_cons_self rfl
    have hsplit : names files ++ name :: args =
        names (files ++ [(fopen fs name mode).1]) ++ args := by
      rw [names_add, List.append_assoc]
      rfl
    rw [hsplit] at hnodup ⊢
    have hfs1 : ∀ other ∈ args, (fopen fs name mode).2 other = fs0 other := by
      intro other ho
      have hne : other ≠ name := ne_of_mem_of_not_mem ho (List.nodup_cons.mp hdisj.2.1).1
      rw [fopen_other mode hne, hfs other ho]
    have hpending1 : ∀ g ∈ files ++ [(fopen fs name mode).1], g.pending = [] :=
      List.forall_mem_append.mpr ⟨hpending, List.forall_mem_singleton.mpr rfl⟩
    obtain ⟨files', fs', hrun, hnames', hcarry', hpending', hframe⟩ := ih hopen1
      (by rw [hlen]; omega) hnodup hfs1 (h.add hname hnot)
      hpending1
    refine ⟨files', fs', ?_, hnames', hcarry', hpending', fun other ho => ?_⟩
    · rw [openFiles, if_pos hcan]
      dsimp only
      rw [if_pos (by omega), hrun]
    · obtain ⟨hne, ho⟩ := not_or.mp (mt List.mem_cons.mpr ho)
      rw [hframe other ho, fopen_other mode hne]

end Files

/-! ## The copy loop -/

/-- The `k`-th block. -/
def State.buf (sched : Schedule) (k : Nat) (s : State) : Bytes :=
  (s.notStdin.read ((s.fs teeC).getD []) (sched.block k)).1

/-- The variables after the `k`-th block. -/
def State.next (sched : Schedule) (k : Nat) (s : State) : State where
  notStdin := (s.notStdin.read ((s.fs teeC).getD []) (sched.block k)).2
  stdout := s.stdout ++ s.buf sched k
  files := (fwriteAll (sched.sync k) (s.buf sched k) s.files s.fs).1
  fs := (fwriteAll (sched.sync k) (s.buf sched k) s.files s.fs).2

theorem copyLoop_succ (sched : Schedule) (fuel k : Nat) (s : State) :
    copyLoop sched (fuel + 1) k s =
      if 0 < (s.buf sched k).length then copyLoop sched fuel (k + 1) (s.next sched k)
      else .ok s := rfl

/-- The bytes `d` have been read and copied to standard output and to the files `args`. -/
structure Copied (base : Bytes → Bytes) (args : List Bytes) (d : Bytes) (s : State) : Prop where
  files : names s.files = args
  carry : Carry base d s.files s.fs
  stdout : s.stdout = d
  offset : s.notStdin.offset = d.length

section Loop

variable {base : Bytes → Bytes} {args : List Bytes} {src d : Bytes} {s : State} {sched : Schedule}
  {k : Nat}

theorem Copied.buf_eq (h : Copied base args d s) (sched : Schedule) (k : Nat) {c : Bytes}
    (hc : s.fs teeC = some c) : s.buf sched k = pread c d.length (sched.block k) := by
  rw [State.buf, hc, Fd.read, h.offset]
  rfl

theorem Copied.next (h : Copied base args d s) (hnodup : args.Nodup) (sched : Schedule) (k : Nat) :
    Copied base args (d ++ s.buf sched k) (s.next sched k) ∧
      ∀ name ∉ args, (s.next sched k).fs name = s.fs name := by
  obtain ⟨hnames, hcarry, hframe⟩ := fwriteAll_spec (sched.sync k) (s.buf sched k)
    (h.files ▸ hnodup) h.carry
  refine ⟨⟨hnames.trans h.files, hcarry, ?_, ?_⟩, fun name hname => hframe name (h.files ▸ hname)⟩
  · rw [State.next, h.stdout]
  · show s.notStdin.offset + (s.buf sched k).length = _
    rw [h.offset, List.length_append]

/-- The loop copies `src`, of which `d` is done: nothing that it writes is read again. -/
structure Feeds (base : Bytes → Bytes) (args : List Bytes) (src d : Bytes) (s : State) : Prop where
  copied : Copied base args d s
  source : s.fs teeC = some src
  fixed : teeC ∉ args ∨ src = []
  rest : d ++ src.drop d.length = src

theorem Feeds.next (h : Feeds base args src d s) (hnodup : args.Nodup)
    (hbuf : 0 < (s.buf sched k).length) :
    Feeds base args src (d ++ s.buf sched k) (s.next sched k) := by
  have hbuf_eq := h.copied.buf_eq sched k h.source
  obtain ⟨hcopied, hframe⟩ := h.copied.next hnodup sched k
  have hnot : teeC ∉ args := by
    refine h.fixed.resolve_right fun hnil => ?_
    rw [hbuf_eq, hnil, length_pread] at hbuf
    simp at hbuf
  refine ⟨hcopied, (hframe teeC hnot).trans h.source, h.fixed, ?_⟩
  rw [List.append_assoc, List.length_append, hbuf_eq, pread_append_drop, h.rest]

theorem Feeds.done (h : Feeds base args src d s) (hbuf : ¬ 0 < (s.buf sched k).length) :
    d = src := by
  have hpos := sched.block_pos k
  rw [h.copied.buf_eq sched k h.source, length_pread] at hbuf
  have hdrop : src.drop d.length = [] := List.drop_of_length_le (by omega)
  rw [← h.rest, hdrop, List.append_nil]

/-- **The loop ends only when everything is copied.** -/
theorem Feeds.of_copyLoop {fuel : Nat} {t : State} (h : Feeds base args src d s)
    (hnodup : args.Nodup) (hrun : copyLoop sched fuel k s = .ok t) : Copied base args src t := by
  induction fuel generalizing k d s with
  | zero => cases hrun
  | succ fuel ih =>
    rw [copyLoop_succ] at hrun
    split at hrun
    · next hbuf => exact ih (h.next hnodup hbuf) hrun
    · next hbuf =>
      obtain rfl := Except.ok.inj hrun
      rw [← h.done hbuf]
      exact h.copied

theorem Feeds.copyLoop_ends {fuel : Nat} (h : Feeds base args src d s) (hnodup : args.Nodup)
    (hfuel : src.length - d.length < fuel) : ∃ t, copyLoop sched fuel k s = .ok t := by
  induction fuel generalizing k d s with
  | zero => omega
  | succ fuel ih =>
    rw [copyLoop_succ]
    split
    · next hbuf =>
      have hlen := h.copied.buf_eq sched k h.source ▸ hbuf
      refine ih (h.next hnodup hbuf) ?_
      rw [length_pread] at hlen
      rw [List.length_append]
      omega
    · exact ⟨s, rfl⟩

/-- Blocks of one byte, each written out at once. -/
def eager : Schedule where
  block := fun _ => 1
  block_pos := fun _ => Nat.one_pos
  block_le := fun _ => by decide
  sync := fun _ _ => 1

/-- **A file that is read and appended to never ends.** -/
theorem Copied.copyLoop_never (h : Copied base args d s) (hnodup : args.Nodup) (hmem : teeC ∈ args)
    (hbase : base teeC ≠ []) (hpending : ∀ f ∈ s.files, f.pending = []) (fuel : Nat) :
    copyLoop eager fuel k s = .error .outOfFuel := by
  induction fuel generalizing k d s with
  | zero => rfl
  | succ fuel ih =>
    have hfile : s.fs teeC = some (base teeC ++ d) := by
      obtain ⟨f, hf, hname⟩ := List.mem_map.mp (h.files ▸ hmem)
      rw [← hname]
      exact (h.carry f hf).of_pending_nil (hpending f hf)
    have hlen : (s.buf eager k).length = 1 := by
      have hpos : 0 < (base teeC).length := List.length_pos_iff.mpr hbase
      rw [h.buf_eq eager k hfile, length_pread, List.length_append]
      show min 1 _ = 1
      omega
    rw [copyLoop_succ, if_pos (by omega)]
    exact ih (h.next hnodup eager k).1 (fwriteAll_pending hlen.le hpending)

end Loop

/-! ## The program -/

/-- The command line `argv` asks for the files `args`. -/
def Selects (argv : List Bytes) (appendMode : Bool) (args : List Bytes) : Prop :=
  parseArgs (getopt argv).1 false = some appendMode ∧ (getopt argv).2 = args

/-- After every run with the files `args` the input has been copied to standard output and to all
of them. -/
def Copies (appendMode : Bool) (canOpen : Nat → Bool) (args : List Bytes) (fs : FileSys)
    (stdin : Bytes) : Prop :=
  ∀ argv, Selects argv appendMode args → ∀ sched, ∃ fuel r,
    main canOpen argv fs sched fuel = .ok r ∧ r.1 = stdin ∧
      ∀ name ∈ args, r.2 name = some (if appendMode then (fs name).getD [] ++ stdin else stdin)

section Program

variable {appendMode : Bool} {canOpen : Nat → Bool} {args : List Bytes} {fs : FileSys}

theorem selects_dashes (appendMode : Bool) (args : List Bytes) :
    Selects ((if appendMode then [bytesOf "-a"] else []) ++ bytesOf "--" :: args)
      appendMode args := by
  have hdashes : getopt (bytesOf "--" :: args) = ([], args) := by rw [getopt, if_pos rfl]
  cases appendMode with
  | false =>
    show Selects (bytesOf "--" :: args) false args
    rw [Selects, hdashes]
    exact ⟨rfl, rfl⟩
  | true =>
    show Selects (bytesOf "-a" :: bytesOf "--" :: args) true args
    rw [Selects, getopt, if_neg (by decide), if_pos (by decide), hdashes]
    exact ⟨rfl, rfl⟩

theorem Selects.main_eq {argv : List Bytes} (h : Selects argv appendMode args) (sched : Schedule)
    (fuel : Nat) : main canOpen argv fs sched fuel = tee appendMode canOpen args fs sched fuel := by
  obtain ⟨hmode, hargs⟩ := h
  rw [main, hmode, hargs]

theorem copies_iff_tee {stdin : Bytes} :
    Copies appendMode canOpen args fs stdin ↔
      ∀ sched, ∃ fuel r, tee appendMode canOpen args fs sched fuel = .ok r ∧ r.1 = stdin ∧
        ∀ name ∈ args,
          r.2 name = some (if appendMode then (fs name).getD [] ++ stdin else stdin) := by
  constructor
  · intro h
    have hselects := selects_dashes appendMode args
    simpa only [hselects.main_eq] using h _ hselects
  · intro h argv hselects
    simpa only [hselects.main_eq] using h

/-- What a file holds when the copy loop begins. -/
def base (appendMode : Bool) (fs : FileSys) : Bytes → Bytes :=
  Mode.base (if appendMode then .append else .write) fs

theorem base_append (name stdin : Bytes) :
    base appendMode fs name ++ stdin =
      if appendMode then (fs name).getD [] ++ stdin else stdin := by
  cases appendMode <;> rfl

theorem tee_eq (hlen : args.length ≤ filesMax) (hnodup : args.Nodup)
    (hopen : ∀ k < args.length, canOpen k = true) :
    ∃ start : State, Copied (base appendMode fs) args [] start ∧
      (∀ f ∈ start.files, f.pending = []) ∧ (∀ name ∉ args, start.fs name = fs name) ∧
      ∀ sched fuel, tee appendMode canOpen args fs sched fuel =
        copy sched fuel start >>= cleanup args.length := by
  have hstart : Carry (base appendMode fs) [] [] fs := nofun
  have hnodup' : (names [] ++ args).Nodup := hnodup
  have hopen' : ∀ k < args.length, canOpen (([] : List Stream).length + k) = true := by
    simpa using hopen
  obtain ⟨files, fs1, hrun, hnames, hcarry, hpending, hframe⟩ := openFiles_spec
    (if appendMode then .append else .write) hopen' (by simpa using hlen) hnodup' (fun _ _ => rfl)
    hstart nofun
  refine ⟨⟨{ offset := 0, append := false }, [], files, fs1⟩, ⟨hnames, hcarry, rfl, rfl⟩, hpending,
    hframe, fun sched fuel => ?_⟩
  rw [tee, hrun]
  rfl

theorem Copied.cleanup {src : Bytes} {t : State} (ht : Copied (base appendMode fs) args src t)
    (hnodup : args.Nodup) :
    ∃ fs', Tee.cleanup args.length t = .ok (src, fs') ∧
      ∀ name ∈ args, fs' name = some (base appendMode fs name ++ src) := by
  obtain ⟨fs', hrun, hin, -⟩ := closeFiles_spec (ht.files ▸ hnodup) ht.carry
  have hlen : args.length = t.files.length := by rw [← ht.files, names, List.length_map]
  refine ⟨fs', ?_, ht.files ▸ hin⟩
  rw [Tee.cleanup, hlen, hrun, ht.stdout]
  rfl

/-- The runs when nothing that is written is read again: they end, and `src` is what they copy. -/
theorem Feeds.run {start : State} {src : Bytes} (h : Feeds (base appendMode fs) args src [] start)
    (hnodup : args.Nodup) (sched : Schedule) :
    (∃ fuel r, (copy sched fuel start >>= Tee.cleanup args.length) = .ok r) ∧
      ∀ fuel r, (copy sched fuel start >>= Tee.cleanup args.length) = .ok r →
        r.1 = src ∧ ∀ name ∈ args, r.2 name = some (base appendMode fs name ++ src) := by
  have hcopy : ∀ fuel, copy sched fuel start = copyLoop sched fuel 0 start := fun fuel => by
    rw [copy, h.source]
  simp only [hcopy]
  constructor
  · obtain ⟨t, ht⟩ : ∃ t, copyLoop sched (src.length + 1) 0 start = .ok t :=
      h.copyLoop_ends hnodup (Nat.lt_succ_self _)
    obtain ⟨fs', hrun, -⟩ := (h.of_copyLoop hnodup ht).cleanup hnodup
    exact ⟨src.length + 1, (src, fs'), bind_eq_ok.mpr ⟨t, ht, hrun⟩⟩
  · intro fuel r hr
    obtain ⟨t, ht, hr⟩ := bind_eq_ok.mp hr
    obtain ⟨fs', hrun, hin⟩ := (h.of_copyLoop hnodup ht).cleanup hnodup
    obtain rfl := Except.ok.inj (hrun.symm.trans hr)
    exact ⟨rfl, hin⟩

theorem Feeds.copies_iff_source_eq {start : State} {src stdin : Bytes}
    (h : Feeds (base appendMode fs) args src [] start) (hnodup : args.Nodup)
    (htee : ∀ sched fuel, tee appendMode canOpen args fs sched fuel =
      copy sched fuel start >>= Tee.cleanup args.length) :
    Copies appendMode canOpen args fs stdin ↔ src = stdin := by
  rw [copies_iff_tee]
  constructor
  · intro hcopies
    obtain ⟨fuel, r, hr, hout, -⟩ := hcopies eager
    rw [htee] at hr
    rw [← hout]
    exact ((h.run hnodup eager).2 fuel r hr).1.symm
  · rintro rfl sched
    obtain ⟨⟨fuel, r, hr⟩, hspec⟩ := h.run hnodup sched
    obtain ⟨hout, hfiles⟩ := hspec fuel r hr
    refine ⟨fuel, r, by rw [htee, hr], hout, fun name hname => ?_⟩
    rw [hfiles name hname, base_append]

theorem not_copies_of_error {start : State} {stdin : Bytes} {e : Fault}
    (htee : ∀ sched fuel, tee appendMode canOpen args fs sched fuel =
      copy sched fuel start >>= Tee.cleanup args.length)
    (herror : ∀ fuel, copy eager fuel start = .error e) :
    ¬ Copies appendMode canOpen args fs stdin := by
  intro hcopies
  obtain ⟨fuel, r, hr, -⟩ := copies_iff_tee.mp hcopies eager
  rw [htee, herror] at hr
  cases hr

end Program

/-- **When `tee` copies its standard input**: exactly when the file `tee.c` holds the same bytes and
is not written to, or when there is no input and `tee.c`, being written to, is empty once it is
open. -/
theorem copies_iff (appendMode : Bool) (canOpen : Nat → Bool) (args : List Bytes) (fs : FileSys)
    (stdin : Bytes) (hlen : args.length ≤ 20) (hnodup : args.Nodup)
    (hopen : ∀ k < args.length, canOpen k = true) :
    Copies appendMode canOpen args fs stdin ↔
      (teeC ∉ args ∧ fs teeC = some stdin) ∨
      (teeC ∈ args ∧ stdin = [] ∧ (appendMode = true → (fs teeC).getD [] = [])) := by
  obtain ⟨start, hcopied, hpending, hframe, htee⟩ := tee_eq hlen hnodup hopen
  by_cases hmem : teeC ∈ args
  · have hsource : start.fs teeC = some (base appendMode fs teeC) := by
      obtain ⟨f, hf, hname⟩ := List.mem_map.mp (hcopied.files ▸ hmem)
      have hcarries := (hcopied.carry f hf).of_pending_nil (hpending f hf)
      rwa [hname, List.append_nil] at hcarries
    have hbase : base appendMode fs teeC = [] ↔ (appendMode = true → (fs teeC).getD [] = []) := by
      cases appendMode <;> simp [base, Mode.base]
    rw [← hbase]
    by_cases hnil : base appendMode fs teeC = []
    · rw [hnil] at hsource
      have hfeeds : Feeds (base appendMode fs) args [] [] start := ⟨hcopied, hsource, .inr rfl, rfl⟩
      rw [hfeeds.copies_iff_source_eq hnodup htee]
      simp [hmem, hnil, eq_comm]
    · refine iff_of_false (not_copies_of_error (e := .outOfFuel) htee fun fuel => ?_) ?_
      · rw [copy, hsource]
        exact hcopied.copyLoop_never hnodup hmem hnil hpending fuel
      · simp [hmem, hnil]
  · have hsource := hframe teeC hmem
    cases hfile : fs teeC with
    | none =>
      rw [hfile] at hsource
      refine iff_of_false (not_copies_of_error (e := .outOfBounds) htee fun fuel => ?_)
        (by simp [hmem])
      rw [copy, hsource]
    | some src =>
      have hfeeds : Feeds (base appendMode fs) args src [] start :=
        ⟨hcopied, hsource.trans hfile, .inl hmem, rfl⟩
      rw [hfeeds.copies_iff_source_eq hnodup htee]
      simp [hmem]

/-- A `tee.c` with the bytes of standard input is copied to two files. -/
theorem copies_same_bytes : Copies false (fun _ => true) [[97], [98]]
    (fun name => if name = teeC then some [1, 2] else none) [1, 2] :=
  (copies_iff false (fun _ => true) [[97], [98]] _ [1, 2] (by decide) (by decide)
    (fun _ _ => rfl)).mpr (.inl (by decide))

/-- With another input the file `tee.c` is copied in its place. -/
theorem not_copies_other_input : ¬ ∀ (appendMode : Bool) (canOpen : Nat → Bool)
    (args : List Bytes) (fs : FileSys) (stdin : Bytes), args.length ≤ 20 → args.Nodup →
    (∀ k < args.length, canOpen k = true) → Copies appendMode canOpen args fs stdin := by
  intro h
  have hcopies := h false (fun _ => true) []
    (fun name => if name = teeC then some [1] else none) [2] (by decide) .nil nofun
  obtain ⟨start, hcopied, -, hframe, htee⟩ := @tee_eq false (fun _ => true) []
    (fun name => if name = teeC then some [1] else none) (by decide) .nil nofun
  have hfeeds : Feeds (base false _) [] [1] [] start :=
    ⟨hcopied, (hframe teeC List.not_mem_nil).trans (if_pos rfl), .inl List.not_mem_nil, rfl⟩
  exact absurd ((hfeeds.copies_iff_source_eq .nil htee).mp hcopies) (by decide)

/-! ## Set-up and clean-up -/

/-- The names of the files that are opened: those before the first `fopen` that fails, where the
first of `args` is the `k`-th to be opened. -/
def opened (canOpen : Nat → Bool) : (k : Nat) → (args : List Bytes) → List Bytes
  | _, [] => []
  | k, name :: args => if canOpen k then name :: opened canOpen (k + 1) args else []

/-- Every store is inside `files`. These are the streams that were opened, and whatever is written
to them before, the clean-up closes each of them once and nothing else. -/
def SetUpSafe (canOpen : Nat → Bool) (mode : Mode) (args : List Bytes) (fs : FileSys) : Prop :=
  ∃ all files fs₁, openFiles canOpen mode args [] fs = .ok (all, files, fs₁) ∧
    names files = opened canOpen 0 args ∧
    ∀ files' fs₂, names files' = names files →
      ∃ fs₃, closeFiles args.length files' fs₂ = .ok (files', fs₃)

section SetUp

variable {canOpen : Nat → Bool} {mode : Mode} {args : List Bytes} {files : List Stream}
  {fs : FileSys}

theorem length_opened_le (k : Nat) (args : List Bytes) :
    (opened canOpen k args).length ≤ args.length := by
  induction args generalizing k with
  | nil => exact Nat.le_refl 0
  | cons name args ih =>
    rw [opened]
    split
    · exact Nat.succ_le_succ (ih (k + 1))
    · exact Nat.zero_le _

theorem length_opened_eq_iff (k : Nat) (args : List Bytes) :
    (opened canOpen k args).length = args.length ↔ ∀ i < args.length, canOpen (k + i) = true := by
  induction args generalizing k with
  | nil => simp [opened]
  | cons name args ih =>
    rw [opened]
    split
    · next hcan =>
      rw [List.length_cons, List.length_cons, Nat.add_right_cancel_iff, ih, Nat.forall_lt_succ_left]
      simp only [Nat.add_zero, hcan, true_and, Nat.add_assoc, Nat.add_comm 1]
    · next hcan =>
      refine iff_of_false (Nat.succ_ne_zero _).symm fun hall => hcan ?_
      exact hall 0 (Nat.succ_pos _)

theorem openFiles_names
    (hroom : files.length + (opened canOpen files.length args).length ≤ filesMax) :
    ∃ all files' fs', openFiles canOpen mode args files fs = .ok (all, files', fs') ∧
      names files' = names files ++ opened canOpen files.length args := by
  induction args generalizing files fs with
  | nil => exact ⟨true, files, fs, rfl, (List.append_nil _).symm⟩
  | cons name args ih =>
    rw [opened] at hroom ⊢
    rw [openFiles]
    split at hroom
    · next hcan =>
      have hlen : (files ++ [(fopen fs name mode).1]).length = files.length + 1 :=
        List.length_append
      rw [List.length_cons] at hroom
      rw [if_pos hcan, if_pos hcan]
      dsimp only
      rw [if_pos (by omega)]
      obtain ⟨all, files', fs', hrun, hnames⟩ :=
        @ih (files ++ [(fopen fs name mode).1]) (fopen fs name mode).2 (by rw [hlen]; omega)
      refine ⟨all, files', fs', hrun, ?_⟩
      rw [hnames, names_add, hlen, List.append_assoc, List.singleton_append]
    · next hcan =>
      rw [if_neg hcan, if_neg hcan]
      exact ⟨false, files, fs, rfl, (List.append_nil _).symm⟩

/-- Without room the stream after the last element is stored. -/
theorem openFiles_overrun (hfiles : files.length ≤ filesMax)
    (hroom : filesMax < files.length + (opened canOpen files.length args).length) :
    openFiles canOpen mode args files fs = .error .outOfBounds := by
  induction args generalizing files fs with
  | nil =>
    rw [opened, List.length_nil] at hroom
    omega
  | cons name args ih =>
    rw [opened] at hroom
    rw [openFiles]
    split at hroom
    · next hcan =>
      have hlen : (files ++ [(fopen fs name mode).1]).length = files.length + 1 :=
        List.length_append
      rw [List.length_cons] at hroom
      rw [if_pos hcan]
      dsimp only
      split
      · exact ih (by rw [hlen]; omega) (by rw [hlen]; omega)
      · rfl
    · rw [List.length_nil] at hroom
      omega

theorem closeFiles_length (files : List Stream) (fs : FileSys) :
    ∃ fs', closeFiles files.length files fs = .ok (files, fs') := by
  induction files generalizing fs with
  | nil => exact ⟨fs, rfl⟩
  | cons f files ih =>
    obtain ⟨fs', hclose⟩ := ih (f.fclose fs)
    exact ⟨fs', by rw [List.length_cons, closeFiles, hclose]; rfl⟩

/-- A file that was not opened has no stream in the array. -/
theorem closeFiles_error {numFiles : Nat} (hlt : files.length < numFiles) :
    closeFiles numFiles files fs = .error .uninitialised := by
  induction numFiles generalizing files fs with
  | zero => exact absurd hlt (Nat.not_lt_zero _)
  | succ numFiles ih =>
    cases files with
    | nil => rfl
    | cons f files =>
      rw [closeFiles, ih (Nat.lt_of_succ_lt_succ hlt)]
      rfl

theorem setUpSafe_iff_length :
    SetUpSafe canOpen mode args fs ↔
      (opened canOpen 0 args).length ≤ filesMax ∧
        (opened canOpen 0 args).length = args.length := by
  constructor
  · rintro ⟨all, files, fs₁, hopen, hnames, hclose⟩
    have hlen : files.length = (opened canOpen 0 args).length := by
      rw [← hnames, names, List.length_map]
    constructor
    · by_contra hroom
      rw [openFiles_overrun (Nat.zero_le _) (by rw [List.length_nil]; omega)] at hopen
      cases hopen
    · by_contra hne
      have hlt : files.length < args.length :=
        hlen ▸ lt_of_le_of_ne (length_opened_le 0 args) hne
      obtain ⟨fs₃, hclosed⟩ := hclose files fs₁ rfl
      rw [closeFiles_error hlt] at hclosed
      cases hclosed
  · rintro ⟨hroom, hall⟩
    have hroom' : ([] : List Stream).length + (opened canOpen 0 args).length ≤ filesMax := by
      simpa using hroom
    obtain ⟨all, files, fs₁, hopen, hnames⟩ := @openFiles_names canOpen mode args [] fs hroom'
    refine ⟨all, files, fs₁, hopen, hnames, fun files' fs₂ hnames' => ?_⟩
    have hlen : args.length = files'.length := by
      have hmap : (names files').length = args.length := by rw [hnames', hnames]; exact hall
      rw [← hmap, names, List.length_map]
    rw [hlen]
    exact closeFiles_length files' fs₂

end SetUp

/-- **When `tee` sets up and cleans up safely**: exactly when there are at most 20 files and all of
them can be opened. -/
theorem setUpSafe_iff (canOpen : Nat → Bool) (mode : Mode) (args : List Bytes) (fs : FileSys) :
    SetUpSafe canOpen mode args fs ↔
      args.length ≤ 20 ∧ ∀ k < args.length, canOpen k = true := by
  have hall : (opened canOpen 0 args).length = args.length ↔
      ∀ k < args.length, canOpen k = true := by
    simpa only [Nat.zero_add] using length_opened_eq_iff 0 args
  rw [setUpSafe_iff_length, ← hall]
  refine and_congr_left fun hlen => ?_
  rw [hlen]
  rfl

/-- Of two files the second cannot be opened: the clean-up reads `files[1]`, which was never
assigned. -/
theorem not_setUpSafe_second_fails :
    ¬ ∀ (canOpen : Nat → Bool) (mode : Mode) (args : List Bytes) (fs : FileSys),
      SetUpSafe canOpen mode args fs := by
  intro h
  have hsafe := h (fun k => k = 0) .write [[97], [98]] fun _ => none
  cases (setUpSafe_iff_length.mp hsafe).2

end Tlpi.Tee
