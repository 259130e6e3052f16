import Tlpi.Lib.CString

/-!
# Descriptors that deliver as they like

What the reads of a descriptor will find, one event after the other: a byte, a gap in which nothing
has arrived, a signal handler that interrupts, an error. A `read` waits for the first byte and then
takes what is there without a gap, up to the number asked for. The end of the list is the end of the
file. `read_spec` says what one `read` leaves of the events, in each of its outcomes.
-/

namespace Tlpi.Lib

inductive Event where
  | byte (b : UInt8)
  /-- What follows arrives later. -/
  | gap
  /-- A signal handler interrupts the call. -/
  | intr
  | error
  deriving DecidableEq

/-- The bytes among them. -/
def content : List Event → List UInt8
  | [] => []
  | .byte b :: es => b :: content es
  | .gap :: es | .intr :: es | .error :: es => content es

/-- What `read` returns: bytes, none of them at the end of the file, or -1 with `EINTR` or another
error. -/
inductive ReadResult where
  | data (bs : List UInt8)
  | intr
  | error

/-- The bytes in front, `n` of them at most. -/
def takeBytes : Nat → List Event → List UInt8 × List Event
  | n + 1, .byte b :: es => (b :: (takeBytes n es).1, (takeBytes n es).2)
  | _, es => ([], es)

def read (n : Nat) : List Event → ReadResult × List Event
  | [] => (.data [], [])
  | .byte b :: es => (.data (takeBytes n (.byte b :: es)).1, (takeBytes n (.byte b :: es)).2)
  | .gap :: es => read n es
  | .intr :: es => (.intr, es)
  | .error :: es => (.error, es)

variable {n : Nat} {es es' : List Event} {bs : List UInt8}

theorem takeBytes_spec (n : Nat) (es : List Event) :
    es = (takeBytes n es).1.map .byte ++ (takeBytes n es).2 ∧ (takeBytes n es).1.length ≤ n := by
  induction n generalizing es with
  | zero => simp [takeBytes]
  | succ n ih =>
    match es with
    | .byte b :: es =>
      obtain ⟨h1, h2⟩ := ih es
      refine ⟨?_, Nat.succ_le_succ h2⟩
      simp only [takeBytes, List.map_cons, List.cons_append]
      exact congrArg _ h1
    | [] | .gap :: es | .intr :: es | .error :: es => simp [takeBytes]

@[simp] theorem content_append (es es' : List Event) :
    content (es ++ es') = content es ++ content es' := by
  induction es with
  | nil => rfl
  | cons e es ih => cases e <;> simp [content, ih]

@[simp] theorem content_bytes (bs : List UInt8) : content (bs.map .byte) = bs := by
  induction bs with
  | nil => rfl
  | cons b bs ih => rw [List.map_cons, content, ih]

/-- Gaps in front of something. -/
def gaps (k : Nat) (es : List Event) : List Event := List.replicate k .gap ++ es

@[simp] theorem content_gaps (k : Nat) (es : List Event) : content (gaps k es) = content es := by
  induction k with
  | zero => rfl
  | succ k ih => exact ih

@[simp] theorem mem_gaps {e : Event} (he : e ≠ .gap) (k : Nat) : e ∈ gaps k es ↔ e ∈ es := by
  simp [gaps, he]

@[simp] theorem length_gaps (k : Nat) (es : List Event) : (gaps k es).length = k + es.length := by
  simp [gaps]

/-- The ways a `read` can go. -/
inductive ReadStep (n : Nat) : List Event → ReadResult → List Event → Prop where
  | eof (k : Nat) : ReadStep n (gaps k []) (.data []) []
  | data (k : Nat) {bs : List UInt8} {es : List Event} (hbs : bs ≠ []) (hle : bs.length ≤ n) :
      ReadStep n (gaps k (bs.map .byte ++ es)) (.data bs) es
  | intr (k : Nat) {es : List Event} : ReadStep n (gaps k (.intr :: es)) .intr es
  | error (k : Nat) {es : List Event} : ReadStep n (gaps k (.error :: es)) .error es

theorem ReadStep.gap {r : ReadResult} (h : ReadStep n es r es') :
    ReadStep n (.gap :: es) r es' := by
  cases h with
  | eof k => exact .eof (k + 1)
  | data k hbs hle => exact .data (k + 1) hbs hle
  | intr k => exact .intr (k + 1)
  | error k => exact .error (k + 1)

theorem read_spec (hn : 0 < n) (es : List Event) :
    ReadStep n es (read n es).1 (read n es).2 := by
  induction es with
  | nil => exact .eof 0
  | cons e es ih =>
    cases e with
    | byte b =>
      obtain ⟨n, rfl⟩ := Nat.exists_eq_succ_of_ne_zero (Nat.pos_iff_ne_zero.mp hn)
      obtain ⟨h1, h2⟩ := takeBytes_spec (n + 1) (.byte b :: es)
      have hne : (takeBytes (n + 1) (.byte b :: es)).1 ≠ [] := by simp [takeBytes]
      have hstep : ReadStep (n + 1) (gaps 0 _) (.data _) (takeBytes (n + 1) (.byte b :: es)).2 :=
        .data 0 hne h2
      rw [gaps, List.replicate_zero, List.nil_append, ← h1] at hstep
      exact hstep
    | gap => exact ih.gap
    | intr => exact .intr 0
    | error => exact .error 0

theorem ReadStep.length_lt {r : ReadResult} (h : ReadStep n es r es') (hr : r ≠ .data []) :
    es'.length < es.length := by
  cases h with
  | eof k => exact absurd rfl hr
  | data k hbs hle =>
    have := List.length_pos_iff.mpr hbs
    simp
    omega
  | intr k | error k =>
    simp
    omega

theorem read_lt {r : ReadResult} (hn : 0 < n) (h : read n es = (r, es')) (hr : r ≠ .data []) :
    es'.length < es.length := by
  have hs := read_spec hn es
  rw [h] at hs
  exact hs.length_lt hr

end Tlpi.Lib
