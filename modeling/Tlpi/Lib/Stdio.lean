import Tlpi.Lib.File

/-!
# Buffered output streams

A `FileSys` maps names to the contents of regular files. A `Stream` is a file opened for writing: a
file description and the bytes that the library still holds back. `fwrite` only adds to these; when
they reach the file is up to the library, which may write out any number of them at any time
(`Stream.sync`), and `fclose` writes out the rest. `Stream.Carries f fs c`: once everything is
written out, the file holds `c`.
-/

namespace Tlpi.Lib

abbrev FileSys := Bytes → Option Bytes

/-- The modes `"w"` and `"a"` of `fopen`. -/
inductive Mode where
  | write
  | append
  deriving DecidableEq

structure Stream where
  name : Bytes
  fd : Fd
  pending : Bytes

/-- What a file holds after it has been opened: nothing, or what it held before. -/
def Mode.base (mode : Mode) (fs : FileSys) (name : Bytes) : Bytes :=
  match mode with
  | .write => []
  | .append => (fs name).getD []

/-- `fopen(name, mode)` of a file that may be written. -/
def fopen (fs : FileSys) (name : Bytes) (mode : Mode) : Stream × FileSys :=
  ({ name, fd := { offset := 0, append := decide (mode = .append) }, pending := [] },
    Function.update fs name (some (mode.base fs name)))

namespace Stream

/-- `fwrite(data, 1, n, f)` -/
def fwrite (f : Stream) (data : Bytes) : Stream := { f with pending := f.pending ++ data }

/-- The library writes out the first `n` of the bytes it holds back. -/
def sync (f : Stream) (n : Nat) (fs : FileSys) : Stream × FileSys :=
  let (fd, contents) := f.fd.write ((fs f.name).getD []) (f.pending.take n)
  ({ f with fd, pending := f.pending.drop n }, Function.update fs f.name (some contents))

/-- `fclose(f)` -/
def fclose (f : Stream) (fs : FileSys) : FileSys := (f.sync f.pending.length fs).2

/-- The file of `f` holds `c` once the bytes held back are written out. -/
def Carries (f : Stream) (fs : FileSys) (c : Bytes) : Prop :=
  ∃ w, c = w ++ f.pending ∧ fs f.name = some w ∧ (f.fd.append = true ∨ f.fd.offset = w.length)

variable {f : Stream} {fs fs' : FileSys} {c : Bytes}

theorem sync_name (f : Stream) (n : Nat) (fs : FileSys) : (f.sync n fs).1.name = f.name := rfl

theorem sync_pending (f : Stream) (n : Nat) (fs : FileSys) :
    (f.sync n fs).1.pending = f.pending.drop n := rfl

theorem sync_other {name : Bytes} (n : Nat) (h : name ≠ f.name) :
    (f.sync n fs).2 name = fs name := Function.update_of_ne h _ _

theorem Carries.congr (h : f.Carries fs c) (hfs : fs' f.name = fs f.name) : f.Carries fs' c := by
  obtain ⟨w, hc, hfile, hoff⟩ := h
  exact ⟨w, hc, hfs.trans hfile, hoff⟩

theorem Carries.fwrite (h : f.Carries fs c) (data : Bytes) :
    (f.fwrite data).Carries fs (c ++ data) := by
  obtain ⟨w, rfl, hfile, hoff⟩ := h
  exact ⟨w, List.append_assoc _ _ _, hfile, hoff⟩

theorem write_end {fd : Fd} {w : Bytes} (h : fd.append = true ∨ fd.offset = w.length)
    (data : Bytes) :
    fd.write w data = ({ fd with offset := w.length + data.length }, w ++ data) := by
  have hoff : (if fd.append then w.length else fd.offset) = w.length := by
    split
    · rfl
    · next hfalse => exact h.resolve_left hfalse
  have hwrite : pwrite w w.length data = w ++ data := by
    by_cases hd : data = []
    · rw [hd, pwrite_nil, List.append_nil]
    · simpa using pwrite_past_end w 0 hd
  simp only [Fd.write, hoff, hwrite]

theorem Carries.sync (h : f.Carries fs c) (n : Nat) :
    (f.sync n fs).1.Carries (f.sync n fs).2 c := by
  obtain ⟨w, rfl, hfile, hoff⟩ := h
  have hsync : f.sync n fs =
      ({ f with fd := { f.fd with offset := w.length + (f.pending.take n).length },
                pending := f.pending.drop n },
        Function.update fs f.name (some (w ++ f.pending.take n))) := by
    simp only [Stream.sync, hfile, Option.getD_some, write_end hoff]
  rw [hsync]
  refine ⟨w ++ f.pending.take n, ?_, Function.update_self _ _ _, .inr List.length_append.symm⟩
  rw [List.append_assoc, List.take_append_drop]

theorem Carries.of_pending_nil (h : f.Carries fs c) (hnil : f.pending = []) :
    fs f.name = some c := by
  obtain ⟨w, rfl, hfile, -⟩ := h
  rw [hfile, hnil, List.append_nil]

/-- **What `fclose` leaves in the file.** -/
theorem Carries.fclose (h : f.Carries fs c) : f.fclose fs f.name = some c := by
  refine (h.sync f.pending.length).of_pending_nil ?_
  rw [sync_pending, List.drop_length]

theorem fclose_other {name : Bytes} (h : name ≠ f.name) : f.fclose fs name = fs name :=
  sync_other _ h

theorem carries_fopen (fs : FileSys) (name : Bytes) (mode : Mode) :
    (fopen fs name mode).1.Carries (fopen fs name mode).2 (mode.base fs name) := by
  refine ⟨mode.base fs name, (List.append_nil _).symm, Function.update_self _ _ _, ?_⟩
  cases mode with
  | write => exact .inr rfl
  | append => exact .inl rfl

end Stream

theorem fopen_other {fs : FileSys} {name other : Bytes} (mode : Mode) (h : other ≠ name) :
    (fopen fs name mode).2 other = fs other := Function.update_of_ne h _ _

end Tlpi.Lib
