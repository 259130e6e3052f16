import Tlpi.Proc.StatusFile
import Tlpi.Proc.Scan

/-!
# The fields of a status file

What `catalog_process`, `print_proc` and `check_dir` take from a well-formed status file. For each
key it is what they read of the last line that has it (`latest`), so a value with a colon in it is
cut short (`readsWhole_iff`). They use their variables whether or not a line has filled them: of
a process that vanishes while its file is read, `catalog_process` stores what happened to be in
memory (`catalogProcess_noGarbage_iff`).
-/

namespace Tlpi.Proc

open Tlpi.Lib

/-! ## The assignments -/

/-- The last line with a key. -/
def latest (key : String) (ls : List StatusLine) : Option StatusLine :=
  (ls.filter fun l => l.name = bytesOf key).getLast?

theorem latest_concat (key : String) (ls : List StatusLine) (l : StatusLine) :
    latest key (ls ++ [l]) = if l.name = bytesOf key then some l else latest key ls := by
  rw [latest, List.filter_append]
  by_cases hl : l.name = bytesOf key
  · simp [hl]
  · simp [hl, latest]

/-- A variable that is filled from the lines with a key. -/
def update (key : String) (old : Option Bytes) (l : StatusLine) : Option Bytes :=
  if l.name = bytesOf key then some l.cut else old

theorem foldl_update (key : String) (ls : List StatusLine) :
    ls.foldl (update key) none = (latest key ls).map StatusLine.cut := by
  induction ls using List.reverseRecOn with
  | nil => rfl
  | append_singleton ls l ih =>
    rw [List.foldl_concat, ih, latest_concat, update]
    split <;> rfl

/-- The value of a line with one of the keys fits an array of 32 bytes. -/
def Fits (keys : List String) (l : StatusLine) : Prop :=
  l.name ∈ keys.map bytesOf → l.cut.length < 32

instance (keys : List String) : DecidablePred (Fits keys) :=
  fun _ => inferInstanceAs (Decidable (_ → _))

theorem Fits.pid {l : StatusLine} (h : Fits ["Pid", "PPid"] l) : Fits ["Pid"] l := by
  intro hmem
  rw [List.map_singleton, List.mem_singleton] at hmem
  exact h (hmem ▸ List.mem_cons_self)

theorem StatusLine.length_cut {l : StatusLine} (h : l.name ∈ fieldNames) : l.cut.length < 256 := by
  have hlen : l.cut.length ≤ l.rest.length :=
    (length_strip_le _).trans (List.takeWhile_prefix _).length_le
  by_contra hlong
  exact (l.long (by omega)).2 h

theorem catalogAssign_line (v : Fields) (l : StatusLine) :
    catalogAssign v l.name l.cut =
      if Fits ["Pid", "PPid"] l then
        .ok { v with procname := update "Name" v.procname l, pid := update "Pid" v.pid l
                     ppid := update "PPid" v.ppid l }
      else .error .outOfBounds := by
  unfold catalogAssign Fits update strcpy
  by_cases hpid : l.name = bytesOf "Pid"
  · by_cases hlen : l.cut.length < 32
    · simp +decide [hpid, hlen]
    · simp +decide [hpid, hlen]
  by_cases hppid : l.name = bytesOf "PPid"
  · by_cases hlen : l.cut.length < 32
    · simp +decide [hppid, hlen]
    · simp +decide [hppid, hlen]
  by_cases hname : l.name = bytesOf "Name"
  · have hlen : l.cut.length < 256 := l.length_cut (by rw [hname]; decide)
    simp +decide [hname, hlen]
  · simp [hpid, hppid, hname]
    rfl

theorem printProcAssign_line (v : Fields) (l : StatusLine) :
    printProcAssign v l.name l.cut =
      if Fits ["Pid"] l then
        .ok { v with procname := update "Name" v.procname l, pid := update "Pid" v.pid l }
      else .error .outOfBounds := by
  unfold printProcAssign Fits update strcpy
  by_cases hpid : l.name = bytesOf "Pid"
  · by_cases hlen : l.cut.length < 32
    · simp +decide [hpid, hlen]
    · simp +decide [hpid, hlen]
  by_cases hname : l.name = bytesOf "Name"
  · have hlen : l.cut.length < 256 := l.length_cut (by rw [hname]; decide)
    simp +decide [hname, hlen]
  · simp [hpid, hname]
    rfl

/-- A line that makes `check_dir` print the process. -/
def Keeps (uidstr : Bytes) (l : StatusLine) : Prop := l.name = bytesOf "Uid" ∧ uidstr <:+: l.cut

instance (uidstr : Bytes) : DecidablePred (Keeps uidstr) :=
  fun _ => inferInstanceAs (Decidable (_ ∧ _))

theorem checkDirAssign_line (uidstr : Bytes) (v : Fields) (l : StatusLine) :
    checkDirAssign uidstr v l.name l.cut =
      if Fits ["Pid"] l then
        .ok { v with procname := update "Name" v.procname l, pid := update "Pid" v.pid l
                     keepme := v.keepme || decide (Keeps uidstr l) }
      else .error .outOfBounds := by
  unfold checkDirAssign Fits update strcpy Keeps
  by_cases hpid : l.name = bytesOf "Pid"
  · by_cases hlen : l.cut.length < 32
    · simp +decide [hpid, hlen]
    · simp +decide [hpid, hlen]
  by_cases hname : l.name = bytesOf "Name"
  · have hlen : l.cut.length < 256 := l.length_cut (by rw [hname]; decide)
    simp +decide [hname, hlen]
  · by_cases hkeep : l.name = bytesOf "Uid" ∧ uidstr <:+: l.cut
    · simp +decide [hkeep]
      rfl
    · simp [hpid, hname, hkeep]
      rfl

/-! ## The programs on a status file -/

theorem foldl_fields {f g h : Option Bytes → StatusLine → Option Bytes}
    {k : Bool → StatusLine → Bool} (ls : List StatusLine) (v : Fields) :
    ls.foldl (fun v l => ⟨f v.procname l, g v.pid l, h v.ppid l, k v.keepme l⟩) v =
      ⟨ls.foldl f v.procname, ls.foldl g v.pid, ls.foldl h v.ppid, ls.foldl k v.keepme⟩ := by
  induction ls generalizing v with
  | nil => rfl
  | cons l ls ih => exact ih _

theorem foldl_keepme (uidstr : Bytes) (ls : List StatusLine) (b : Bool) :
    ls.foldl (fun b l => b || decide (Keeps uidstr l)) b =
      (b || decide (∃ l ∈ ls, Keeps uidstr l)) := by
  induction ls generalizing b with
  | nil => simp
  | cons l ls ih => simp [ih, Bool.or_assoc]

/-- The state once the status file is open. -/
def State.opened (s : State) : State :=
  { s with table := { s.table with opened := s.table.opened + 1 } }

variable {ls : List StatusLine} {s s' : State}

theorem withStatus_statusText {assign : Fields → Bytes → Bytes → Except Fault Fields}
    {act : Fields → State → Except Fault State} (hroom : s.table.opened < s.table.limit)
    (hother : ∀ v key value, key ∉ fieldNames → assign v key value = .ok v) :
    withStatus assign act (some (statusText ls)) s =
      ls.foldlM (fun v l => assign v l.name l.cut) .start >>= fun v => act v s.opened := by
  have hopen : s.table.fopen (some (statusText ls)) =
      (some (statusText ls), { s.table with opened := s.table.opened + 1 }) := if_pos hroom
  rw [withStatus, hopen]
  dsimp only
  rw [readStatus_statusText hother]
  rfl

theorem notMem_fieldNames {key : Bytes} (h : key ∉ fieldNames) :
    key ≠ bytesOf "Name" ∧ key ≠ bytesOf "Uid" ∧ key ≠ bytesOf "Pid" ∧ key ≠ bytesOf "PPid" := by
  simpa only [fieldNames, List.mem_cons, List.not_mem_nil, or_false, not_or] using h

theorem catalogAssign_fields (ls : List StatusLine) :
    ls.foldlM (fun v l => catalogAssign v l.name l.cut) .start =
      if ∀ l ∈ ls, Fits ["Pid", "PPid"] l then
        .ok ⟨(latest "Name" ls).map StatusLine.cut, (latest "Pid" ls).map StatusLine.cut,
          (latest "PPid" ls).map StatusLine.cut, false⟩
      else .error .outOfBounds := by
  have hfields := foldl_fields (f := update "Name") (g := update "Pid") (h := update "PPid")
    (k := fun b _ => b) ls .start
  rw [foldlM_checked catalogAssign_line, hfields, ← foldl_update, ← foldl_update, ← foldl_update,
    List.foldl_fixed]
  rfl

/-- `catalog_process` adds a node exactly when there is a line for each variable and every value
has room. -/
theorem catalogProcess_ok (hroom : s.table.opened < s.table.limit) :
    catalogProcess (some (statusText ls)) s = .ok s' ↔
      (∀ l ∈ ls, Fits ["Pid", "PPid"] l) ∧
      ∃ n p pp, latest "Name" ls = some n ∧ latest "Pid" ls = some p ∧ latest "PPid" ls = some pp ∧
        n.cut.length < 128 ∧
        s' = { s.opened with
          heap := s.heap.llCreateAndInsert ⟨n.cut, atoi p.cut, atoi pp.cut⟩ } := by
  have hother : ∀ v key value, key ∉ fieldNames → catalogAssign v key value = .ok v := by
    intro v key value hkey
    obtain ⟨hname, -, hpid, hppid⟩ := notMem_fieldNames hkey
    rw [catalogAssign, if_neg hpid, if_neg hppid, if_neg hname]
    rfl
  rw [catalogProcess, withStatus_statusText hroom hother, catalogAssign_fields, ite_bind_eq_ok]
  refine and_congr_right fun _ => ?_
  simp only [bind_eq_ok, assigned_map_eq_ok, strcpy_eq_ok]
  constructor
  · rintro ⟨_, ⟨n, hn, rfl⟩, _, ⟨p, hp, rfl⟩, _, ⟨pp, hpp, rfl⟩, _, ⟨hlen, rfl⟩, h⟩
    exact ⟨n, p, pp, hn, hp, hpp, hlen, (Except.ok.inj h).symm⟩
  · rintro ⟨n, p, pp, hn, hp, hpp, hlen, rfl⟩
    exact ⟨_, ⟨n, hn, rfl⟩, _, ⟨p, hp, rfl⟩, _, ⟨pp, hpp, rfl⟩, _, ⟨hlen, rfl⟩, rfl⟩

theorem printProcAssign_fields (ls : List StatusLine) :
    ls.foldlM (fun v l => printProcAssign v l.name l.cut) .start =
      if ∀ l ∈ ls, Fits ["Pid"] l then
        .ok ⟨(latest "Name" ls).map StatusLine.cut, (latest "Pid" ls).map StatusLine.cut,
          none, false⟩
      else .error .outOfBounds := by
  have hfields := foldl_fields (f := update "Name") (g := update "Pid") (h := fun o _ => o)
    (k := fun b _ => b) ls .start
  rw [foldlM_checked printProcAssign_line, hfields, ← foldl_update, ← foldl_update,
    List.foldl_fixed, List.foldl_fixed]
  rfl

theorem printProc_ok (hroom : s.table.opened < s.table.limit) :
    printProc (some (statusText ls)) s = .ok s' ↔
      (∀ l ∈ ls, Fits ["Pid"] l) ∧
      ∃ n p, latest "Name" ls = some n ∧ latest "Pid" ls = some p ∧
        s' = { s.opened with
          out := s.out ++ n.cut ++ bytesOf " (pid: " ++ p.cut ++ bytesOf ")\n" } := by
  have hother : ∀ v key value, key ∉ fieldNames → printProcAssign v key value = .ok v := by
    intro v key value hkey
    obtain ⟨hname, -, hpid, -⟩ := notMem_fieldNames hkey
    rw [printProcAssign, if_neg hpid, if_neg hname]
    rfl
  rw [printProc, withStatus_statusText hroom hother, printProcAssign_fields, ite_bind_eq_ok]
  refine and_congr_right fun _ => ?_
  simp only [bind_eq_ok, assigned_map_eq_ok]
  constructor
  · rintro ⟨_, ⟨n, hn, rfl⟩, _, ⟨p, hp, rfl⟩, h⟩
    exact ⟨n, p, hn, hp, (Except.ok.inj h).symm⟩
  · rintro ⟨n, p, hn, hp, rfl⟩
    exact ⟨_, ⟨n, hn, rfl⟩, _, ⟨p, hp, rfl⟩, rfl⟩

theorem checkDirAssign_fields (uidstr : Bytes) (ls : List StatusLine) :
    ls.foldlM (fun v l => checkDirAssign uidstr v l.name l.cut) .start =
      if ∀ l ∈ ls, Fits ["Pid"] l then
        .ok ⟨(latest "Name" ls).map StatusLine.cut, (latest "Pid" ls).map StatusLine.cut, none,
          decide (∃ l ∈ ls, Keeps uidstr l)⟩
      else .error .outOfBounds := by
  have hfields := foldl_fields (f := update "Name") (g := update "Pid") (h := fun o _ => o)
    (k := fun b l => b || decide (Keeps uidstr l)) ls .start
  rw [foldlM_checked (checkDirAssign_line uidstr), hfields, ← foldl_update, ← foldl_update,
    List.foldl_fixed, foldl_keepme]
  rfl

/-- The digits that `check_dir` looks for. -/
def uidstr (uid : Nat) : Bytes := bytesOf (toString (toInt32 uid))

theorem checkDir_ok (uid : Nat) (hroom : s.table.opened < s.table.limit) :
    checkDir uid (some (statusText ls)) s = .ok s' ↔
      (∀ l ∈ ls, Fits ["Pid"] l) ∧
      if ∃ l ∈ ls, Keeps (uidstr uid) l then
        ∃ p n, latest "Pid" ls = some p ∧ latest "Name" ls = some n ∧
          s' = { s.opened with out := s.out ++ p.cut ++ bytesOf ": " ++ n.cut ++ bytesOf "\n" }
      else s' = s.opened := by
  have hother : ∀ v key value, key ∉ fieldNames →
      checkDirAssign (uidstr uid) v key value = .ok v := by
    intro v key value hkey
    obtain ⟨hname, huid, hpid, -⟩ := notMem_fieldNames hkey
    have hkeep : ¬ (key = bytesOf "Uid" ∧ uidstr uid <:+: value) := fun h => huid h.1
    rw [checkDirAssign, if_neg hkeep, if_neg hname]
    exact if_neg hpid
  rw [checkDir, ← uidstr, withStatus_statusText hroom hother, checkDirAssign_fields, ite_bind_eq_ok]
  refine and_congr_right fun _ => ?_
  by_cases hkeep : ∃ l ∈ ls, Keeps (uidstr uid) l
  · simp only [hkeep, decide_true, if_true, bind_eq_ok, assigned_map_eq_ok]
    constructor
    · rintro ⟨_, ⟨p, hp, rfl⟩, _, ⟨n, hn, rfl⟩, h⟩
      exact ⟨p, n, hp, hn, (Except.ok.inj h).symm⟩
    · rintro ⟨p, n, hp, hn, rfl⟩
      exact ⟨_, ⟨p, hp, rfl⟩, _, ⟨n, hn, rfl⟩, rfl⟩
  · simp only [hkeep, decide_false, if_false]
    exact ⟨fun h => (Except.ok.inj h).symm, fun h => by rw [h]; rfl⟩

/-! ## Whole values -/

theorem llCreateAndInsert_injective (h : PsTree.Heap) :
    Function.Injective h.llCreateAndInsert := by
  intro r r' heq
  have hnode := congrArg (fun h' : PsTree.Heap => (h'.node h.size).toRecord) heq
  simpa [PsTree.Heap.llCreateAndInsert, PsTree.Node.fresh] using hnode

/-- The node that is stored and the lines that are printed have the whole values of the lines `n`,
`p` and `pp`. -/
structure ReadsWhole (ls : List StatusLine) (n p pp : StatusLine) (s : State) : Prop where
  catalog : ∃ s', catalogProcess (some (statusText ls)) s = .ok s' ∧
    s'.heap = s.heap.llCreateAndInsert ⟨n.value, atoi p.value, atoi pp.value⟩
  print : ∃ s', printProc (some (statusText ls)) s = .ok s' ∧
    s'.out = s.out ++ n.value ++ bytesOf " (pid: " ++ p.value ++ bytesOf ")\n"
  check : ∀ uid, ∃ s', checkDir uid (some (statusText ls)) s = .ok s' ∧
    (s'.out = s.out ∨ s'.out = s.out ++ p.value ++ bytesOf ": " ++ n.value ++ bytesOf "\n")

section Whole

variable {n p pp : StatusLine}

theorem readsWhole_iff_cut (hroom : s.table.opened < s.table.limit) (hn : latest "Name" ls = some n)
    (hp : latest "Pid" ls = some p) (hpp : latest "PPid" ls = some pp) :
    ReadsWhole ls n p pp s ↔
      n.cut = n.value ∧ p.cut = p.value ∧ n.cut.length < 128 ∧
        ∀ l ∈ ls, Fits ["Pid", "PPid"] l := by
  constructor
  · rintro ⟨⟨s₁, hcatalog, hheap⟩, ⟨s₂, hprint, hout⟩, -⟩
    obtain ⟨hfits, n', p', pp', hn', hp', hpp', hlen, rfl⟩ := (catalogProcess_ok hroom).mp hcatalog
    obtain ⟨-, n'', p'', hn'', hp'', rfl⟩ := (printProc_ok hroom).mp hprint
    obtain rfl : n = n' := Option.some.inj (hn.symm.trans hn')
    obtain rfl : n = n'' := Option.some.inj (hn.symm.trans hn'')
    obtain rfl : p = p'' := Option.some.inj (hp.symm.trans hp'')
    have hname : n.cut = n.value :=
      congrArg PsTree.Record.name (llCreateAndInsert_injective _ hheap)
    have hpid : p.cut = p.value := by simpa [hname] using hout
    exact ⟨hname, hpid, hlen, hfits⟩
  · rintro ⟨hname, hpid, hlen, hfits⟩
    have hfits' : ∀ l ∈ ls, Fits ["Pid"] l := fun l hl => (hfits l hl).pid
    refine ⟨⟨_, (catalogProcess_ok hroom).mpr ⟨hfits, n, p, pp, hn, hp, hpp, hlen, rfl⟩, ?_⟩,
      ⟨_, (printProc_ok hroom).mpr ⟨hfits', n, p, hn, hp, rfl⟩, ?_⟩, fun uid => ?_⟩
    · rw [hname, p.atoi_cut, pp.atoi_cut]
    · rw [hname, hpid]
    · by_cases hkeep : ∃ l ∈ ls, Keeps (uidstr uid) l
      · refine ⟨{ s.opened with out := _ }, (checkDir_ok uid hroom).mpr ⟨hfits', ?_⟩, .inr rfl⟩
        rw [if_pos hkeep]
        exact ⟨p, n, hp, hn, by rw [hname, hpid]⟩
      · refine ⟨s.opened, (checkDir_ok uid hroom).mpr ⟨hfits', ?_⟩, .inl rfl⟩
        rw [if_neg hkeep]

end Whole

/-- **When the fields are read whole**: exactly when the values of the `Name` and `Pid` lines have
no colon and no NUL in them, the name fits its node and every pid and ppid its array. -/
theorem readsWhole_iff (ls : List StatusLine) (n p pp : StatusLine) (s : State)
    (hroom : s.table.opened < s.table.limit) (hn : latest "Name" ls = some n)
    (hp : latest "Pid" ls = some p) (hpp : latest "PPid" ls = some pp) :
    ReadsWhole ls n p pp s ↔
      (colon ∉ n.rest ∧ 0 ∉ n.rest) ∧ (colon ∉ p.rest ∧ 0 ∉ p.rest) ∧ n.value.length < 128 ∧
        ∀ l ∈ ls, Fits ["Pid", "PPid"] l := by
  rw [readsWhole_iff_cut hroom hn hp hpp, ← StatusLine.cut_eq_value_iff,
    ← StatusLine.cut_eq_value_iff]
  refine and_congr_right fun hname => ?_
  rw [hname]

/-- The lines for pid 7, a child of `init`. -/
def pidLine : StatusLine := .tabbed (bytesOf "Pid") (bytesOf "7") (by decide +kernel)
  (by decide) (by decide) (by decide)
def ppidLine : StatusLine := .tabbed (bytesOf "PPid") (bytesOf "1") (by decide +kernel)
  (by decide) (by decide) (by decide)

/-- A name without a colon, and one with a colon. -/
def shLine : StatusLine := .tabbed (bytesOf "Name") (bytesOf "sh") (by decide +kernel)
  (by decide) (by decide) (by decide)
def colonLine : StatusLine := .tabbed (bytesOf "Name") (bytesOf "a:b") (by decide +kernel)
  (by decide) (by decide) (by decide)

theorem readsWhole_sh :
    ReadsWhole [shLine, pidLine, ppidLine] shLine pidLine ppidLine ⟨.empty, [], ⟨4, 1024, 0⟩⟩ :=
  (readsWhole_iff [shLine, pidLine, ppidLine] shLine pidLine ppidLine ⟨.empty, [], ⟨4, 1024, 0⟩⟩
    (by decide) rfl rfl rfl).mpr (by decide)

/-- The process `a:b` is stored as `a`. -/
theorem not_readsWhole_colon : ¬ ∀ (ls : List StatusLine) (n p pp : StatusLine) (s : State),
    s.table.opened < s.table.limit → latest "Name" ls = some n → latest "Pid" ls = some p →
    latest "PPid" ls = some pp → ReadsWhole ls n p pp s := by
  intro h
  have hwhole := h [colonLine, pidLine, ppidLine] colonLine pidLine ppidLine
    ⟨.empty, [], ⟨4, 1024, 0⟩⟩ (by decide) rfl rfl rfl
  have hname := ((readsWhole_iff_cut (by decide) rfl rfl rfl).mp hwhole).1
  exact absurd hname (by decide)

/-! ## Vanishing processes -/

/-- The list is unchanged, or has a new node with the values of the `Pid` and `PPid` lines. -/
def NoGarbage (ls : List StatusLine) (s s' : State) : Prop :=
  s'.heap = s.heap ∨ ∃ p pp name, latest "Pid" ls = some p ∧ latest "PPid" ls = some pp ∧
    s'.heap = s.heap.llCreateAndInsert ⟨name, atoi p.value, atoi pp.value⟩

/-- **When a vanishing process adds no garbage**: exactly when the `Name`, `Pid` and `PPid` lines
have all been read before it vanishes, and their values have room. -/
theorem catalogProcess_noGarbage_iff (ls : List StatusLine) (s : State)
    (hroom : s.table.opened < s.table.limit) :
    (∃ s', catalogProcess (some (statusText ls)) s = .ok s' ∧ NoGarbage ls s s') ↔
      latest "Pid" ls ≠ none ∧ latest "PPid" ls ≠ none ∧
        (∃ n, latest "Name" ls = some n ∧ n.cut.length < 128) ∧
        ∀ l ∈ ls, Fits ["Pid", "PPid"] l := by
  constructor
  · rintro ⟨s', hok, -⟩
    obtain ⟨hfits, n, p, pp, hn, hp, hpp, hlen, -⟩ := (catalogProcess_ok hroom).mp hok
    refine ⟨?_, ?_, ⟨n, hn, hlen⟩, hfits⟩
    · rw [hp]
      exact Option.some_ne_none p
    · rw [hpp]
      exact Option.some_ne_none pp
  · rintro ⟨hpid, hppid, ⟨n, hn, hlen⟩, hfits⟩
    obtain ⟨p, hp⟩ := Option.ne_none_iff_exists'.mp hpid
    obtain ⟨pp, hpp⟩ := Option.ne_none_iff_exists'.mp hppid
    refine ⟨_, (catalogProcess_ok hroom).mpr ⟨hfits, n, p, pp, hn, hp, hpp, hlen, rfl⟩, .inr ?_⟩
    refine ⟨p, pp, n.cut, hp, hpp, ?_⟩
    rw [p.atoi_cut, pp.atoi_cut]

/-- A process that vanishes after the three lines have been read. -/
theorem noGarbage_sh :
    ∃ s', catalogProcess (some (statusText [shLine, pidLine, ppidLine]))
        ⟨.empty, [], ⟨4, 1024, 0⟩⟩ = .ok s' ∧
      NoGarbage [shLine, pidLine, ppidLine] ⟨.empty, [], ⟨4, 1024, 0⟩⟩ s' :=
  (catalogProcess_noGarbage_iff [shLine, pidLine, ppidLine] ⟨.empty, [], ⟨4, 1024, 0⟩⟩
    (by decide)).mpr ⟨nofun, nofun, ⟨shLine, rfl, by decide⟩, by decide⟩

/-- One that vanishes before the first line. -/
theorem catalogProcess_garbage : ¬ ∀ (ls : List StatusLine) (s : State),
    s.table.opened < s.table.limit →
    ∃ s', catalogProcess (some (statusText ls)) s = .ok s' ∧ NoGarbage ls s s' := by
  intro h
  have hroom : (⟨.empty, [], ⟨4, 1024, 0⟩⟩ : State).table.opened < 1024 := by decide
  obtain ⟨s', hok, -⟩ := h [] ⟨.empty, [], ⟨4, 1024, 0⟩⟩ hroom
  obtain ⟨-, n, -, -, hn, -⟩ := (catalogProcess_ok hroom).mp hok
  cases hn

end Tlpi.Proc
