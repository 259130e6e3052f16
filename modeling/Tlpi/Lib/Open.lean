import Tlpi.Lib.Stdio

/-!
# Files opened with flags

`open(2)` with the numeric flags of Linux, over the file systems of `Tlpi.Lib.Stdio`. The access
mode is the two lowest bits of the flags, and a `write` on a descriptor whose mode is `O_RDONLY`
fails without any effect. `unlink` fails only for a name that does not exist.
-/

namespace Tlpi.Lib

def O_RDONLY : Nat := 0
def O_WRONLY : Nat := 1
def O_ACCMODE : Nat := 3
def O_CREAT : Nat := 0o100
def O_TRUNC : Nat := 0o1000

/-- An open file: its name, the flags that it was opened with and the offset. -/
structure OpenFile where
  name : Bytes
  flags : Nat
  fd : Fd

/-- `open(name, flags)` where nothing but a missing file keeps it from being opened. -/
def openFlags (fs : FileSys) (name : Bytes) (flags : Nat) : Option (OpenFile × FileSys) :=
  let file : OpenFile := { name, flags, fd := { offset := 0, append := false } }
  match fs name with
  | none =>
    if flags &&& O_CREAT = 0 then none else some (file, Function.update fs name (some []))
  | some _ =>
    if flags &&& O_TRUNC = 0 then some (file, fs)
    else some (file, Function.update fs name (some []))

/-- `write(fd, data, n)`, or `none` when it fails. -/
def OpenFile.write (f : OpenFile) (fs : FileSys) (data : Bytes) : Option (OpenFile × FileSys) :=
  if f.flags &&& O_ACCMODE = O_RDONLY then none
  else
    let (fd, contents) := f.fd.write ((fs f.name).getD []) data
    some ({ f with fd }, Function.update fs f.name (some contents))

/-- `read(fd, buf, n)`, or `none` when it fails. -/
def OpenFile.read (f : OpenFile) (fs : FileSys) (n : Nat) : Option (Bytes × OpenFile) :=
  if f.flags &&& O_ACCMODE = O_WRONLY then none
  else
    let (data, fd) := f.fd.read ((fs f.name).getD []) n
    some (data, { f with fd })

/-- `unlink(name)`, or `none` when it fails. -/
def unlink (fs : FileSys) (name : Bytes) : Option FileSys :=
  match fs name with
  | none => none
  | some _ => some (Function.update fs name none)

variable {fs : FileSys} {name : Bytes}

theorem openFlags_new (h : fs name = none) {flags : Nat} (hflags : flags &&& O_CREAT ≠ 0) :
    openFlags fs name flags =
      some ({ name, flags, fd := { offset := 0, append := false } },
        Function.update fs name (some [])) := by
  rw [openFlags, h]
  exact if_neg hflags

theorem OpenFile.write_rdonly {f : OpenFile} (h : f.flags &&& O_ACCMODE = O_RDONLY) (fs : FileSys)
    (data : Bytes) : f.write fs data = none := if_pos h

theorem OpenFile.write_end {f : OpenFile} {w : Bytes} (hflags : f.flags &&& O_ACCMODE ≠ O_RDONLY)
    (hfile : fs f.name = some w) (hoff : f.fd.append = true ∨ f.fd.offset = w.length)
    (data : Bytes) :
    f.write fs data =
      some ({ f with fd := { f.fd with offset := w.length + data.length } },
        Function.update fs f.name (some (w ++ data))) := by
  rw [OpenFile.write, if_neg hflags, hfile, Option.getD_some, Stream.write_end hoff]

theorem OpenFile.read_eq {f : OpenFile} {w : Bytes} (hflags : f.flags &&& O_ACCMODE ≠ O_WRONLY)
    (hfile : fs f.name = some w) (n : Nat) :
    f.read fs n = some ((f.fd.read w n).1, { f with fd := (f.fd.read w n).2 }) := by
  rw [OpenFile.read, if_neg hflags, hfile]
  rfl

theorem unlink_of_ne_none (h : fs name ≠ none) :
    unlink fs name = some (Function.update fs name none) := by
  obtain ⟨c, hc⟩ := Option.ne_none_iff_exists'.mp h
  rw [unlink, hc]

end Tlpi.Lib
