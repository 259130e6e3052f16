import Tlpi.Lib.Lts
import Tlpi.Lib.File

/-!
# A filter in a child process

`tlpi-dist/pipes/change_case.c`: the parent sends its standard input through one pipe to a child,
and reads it back in upper case through another. A pipe holds up to `PIPE_SIZE` bytes; a write of
`PIPE_BUF` bytes or fewer waits for room and is not divided, a read waits for the first byte and
then takes what there is. Who writes to a pipe without a reader is killed.

The two take turns (`Phase`): the child gives back all that it is given, because `BUF_SIZE` bytes
are written and read in one piece. So the output is a prefix of the input in upper case at every
moment, nobody is killed or waits for ever, and the output is complete in the end
(`change_case_correct`).
-/

namespace Tlpi.ChangeCase

open Tlpi.Lib

def BUF_SIZE : Nat := 100
def PIPE_BUF : Nat := 4096
def PIPE_SIZE : Nat := 65536

/-- `toupper`, in the C locale. -/
def toupper (c : UInt8) : UInt8 := if 97 ≤ c ∧ c ≤ 122 then c - 32 else c

inductive Parent where
  /-- At `read(STDIN_FILENO, ..)`. -/
  | input
  | send (buf : Bytes)
  /-- At `read(inbound[0], ..)`. -/
  | receive
  | print (buf : Bytes)
  | killed
  | exited
  deriving DecidableEq

inductive Child where
  /-- At `read(outbound[0], ..)`. -/
  | receive
  | send (buf : Bytes)
  | killed
  | exited
  deriving DecidableEq

structure State where
  stdin : Bytes
  parent : Parent
  outbound : Bytes
  child : Child
  inbound : Bytes
  stdout : Bytes

def State.parentGone (s : State) : Bool := s.parent = .killed ∨ s.parent = .exited
def State.childGone (s : State) : Bool := s.child = .killed ∨ s.child = .exited

inductive Act where
  /-- The parent; a `read` of its standard input returns `k` bytes. -/
  | parent (k : Nat)
  | child

/-- A write of `PIPE_BUF` bytes or fewer has room. -/
def Fits (pipe buf : Bytes) : Prop := buf.length ≤ PIPE_BUF ∧ pipe.length + buf.length ≤ PIPE_SIZE

instance (pipe buf : Bytes) : Decidable (Fits pipe buf) := inferInstanceAs (Decidable (_ ∧ _))

/-- `read` of standard input may return `k` bytes. -/
def Reads (stdin : Bytes) (k : Nat) : Prop :=
  if stdin = [] then k = 0 else 0 < k ∧ k ≤ BUF_SIZE ∧ k ≤ stdin.length

instance (stdin : Bytes) (k : Nat) : Decidable (Reads stdin k) :=
  inferInstanceAs (Decidable (ite _ _ _))

def exec (s : State) : Act → Option State
  | .parent k =>
    match s.parent with
    | .input =>
      if Reads s.stdin k then
        if k = 0 then some { s with parent := .exited }
        else some { s with parent := .send (s.stdin.take k), stdin := s.stdin.drop k }
      else none
    | .send buf =>
      if s.childGone then some { s with parent := .killed }
      else if Fits s.outbound buf then
        some { s with parent := .receive, outbound := s.outbound ++ buf }
      else none
    | .receive =>
      if s.inbound ≠ [] then
        some { s with
          parent := .print (s.inbound.take BUF_SIZE), inbound := s.inbound.drop BUF_SIZE }
      else if s.childGone then some { s with parent := .input }
      else none
    | .print buf => some { s with parent := .input, stdout := s.stdout ++ buf }
    | .killed | .exited => none
  | .child =>
    match s.child with
    | .receive =>
      if s.outbound ≠ [] then
        some { s with
          child := .send ((s.outbound.take BUF_SIZE).map toupper)
          outbound := s.outbound.drop BUF_SIZE }
      else if s.parentGone then some { s with child := .exited }
      else none
    | .send buf =>
      if s.parentGone then some { s with child := .killed }
      else if Fits s.inbound buf then some { s with child := .receive, inbound := s.inbound ++ buf }
      else none
    | .killed | .exited => none

def Step (s : State) (a : Act) (t : State) : Prop := exec s a = some t

def start (input : Bytes) : State where
  stdin := input
  parent := .input
  outbound := []
  child := .receive
  inbound := []
  stdout := []

def Final (s : State) : Prop := s.parent = .exited ∧ s.child = .exited

/-! ## Turns -/

/-- Bytes that go to the child and back in one piece. -/
def Chunk (buf : Bytes) : Prop := buf ≠ [] ∧ buf.length ≤ BUF_SIZE

/-- Where the bytes are that have been read and not printed, `buf`: nowhere but in one place, and
there are none when the parent reads. -/
inductive Phase : (buf : Bytes) → Parent → (outbound : Bytes) → Child →
    (inbound : Bytes) → Prop where
  | input : Phase [] .input [] .receive []
  | send {buf : Bytes} (h : Chunk buf) : Phase buf (.send buf) [] .receive []
  | outbound {buf : Bytes} (h : Chunk buf) : Phase buf .receive buf .receive []
  | child {buf : Bytes} (h : Chunk buf) : Phase buf .receive [] (.send (buf.map toupper)) []
  | inbound {buf : Bytes} (h : Chunk buf) : Phase buf .receive [] .receive (buf.map toupper)
  | print {buf : Bytes} (h : Chunk buf) : Phase buf (.print (buf.map toupper)) [] .receive []
  | exited : Phase [] .exited [] .receive []
  | final : Phase [] .exited [] .exited []

structure Inv (input : Bytes) (s : State) : Prop where
  phase : ∃ buf, Phase buf s.parent s.outbound s.child s.inbound ∧
    s.stdout ++ buf.map toupper ++ s.stdin.map toupper = input.map toupper
  rest : s.parent = .exited → s.stdin = []

variable {input : Bytes} {s t : State}

theorem fits_nil {buf : Bytes} (h : buf.length ≤ BUF_SIZE) : Fits [] buf := by
  have : BUF_SIZE ≤ PIPE_BUF := by decide
  have : BUF_SIZE ≤ PIPE_SIZE := by decide
  refine ⟨by omega, ?_⟩
  rw [List.length_nil]
  omega

theorem Chunk.map {buf : Bytes} (h : Chunk buf) : Chunk (buf.map toupper) :=
  ⟨by simpa using h.1, by simpa using h.2⟩

theorem Chunk.take {buf : Bytes} (h : Chunk buf) :
    buf.take BUF_SIZE = buf ∧ buf.drop BUF_SIZE = [] :=
  ⟨List.take_of_length_le h.2, List.drop_of_length_le h.2⟩

theorem chunk_take {stdin : Bytes} {k : Nat} (hk : Reads stdin k) (h0 : k ≠ 0) :
    Chunk (stdin.take k) := by
  unfold Reads at hk
  split at hk
  · exact absurd hk h0
  · refine ⟨fun hn => ?_, ?_⟩
    · have := congrArg List.length hn
      rw [List.length_take, List.length_nil] at this
      omega
    · rw [List.length_take]
      omega

/-- Steps still to come: eight for every byte that is not read yet. -/
def left (s : State) : Nat :=
  8 * s.stdin.length +
    match s.parent, s.child with
    | .send _, _ => 8
    | .receive, .send _ => 6
    | .receive, _ => if s.outbound = [] then 5 else 7
    | .print _, _ => 4
    | .input, _ => 2
    | .exited, .receive => 1
    | _, _ => 0

/-- What a step does in a phase: the parent reads, or the one whose turn it is goes on. -/
theorem step_phase {buf stdin : Bytes} {parent : Parent} {outbound : Bytes} {child : Child}
    {inbound stdout : Bytes} (hp : Phase buf parent outbound child inbound) {a : Act}
    (hs : Step ⟨stdin, parent, outbound, child, inbound, stdout⟩ a t) :
    ∃ buf', Phase buf' t.parent t.outbound t.child t.inbound ∧
      t.stdout ++ buf'.map toupper ++ t.stdin.map toupper =
        stdout ++ buf.map toupper ++ stdin.map toupper ∧
      (t.parent = .exited → parent = .exited ∧ t.stdin = stdin ∨ t.stdin = []) ∧
      left t < left ⟨stdin, parent, outbound, child, inbound, stdout⟩ := by
  cases hp with
  | input =>
    cases a with
    | parent k =>
      obtain ⟨hk, hs⟩ := Option.ite_none_right_eq_some.mp hs
      have hk : Reads stdin k := hk
      split at hs <;> cases hs
      · next h0 =>
        subst h0
        have hnil : stdin = [] := by
          by_contra hne
          rw [Reads, if_neg hne] at hk
          exact absurd hk.1 (Nat.lt_irrefl 0)
        exact ⟨[], .exited, rfl, fun _ => .inr hnil, by simp [left]⟩
      · next h0 =>
        refine ⟨stdin.take k, .send (chunk_take hk h0), ?_, by simp, ?_⟩
        · simp
        · have hlt : k ≤ stdin.length ∧ 0 < k := by
            unfold Reads at hk
            split at hk <;> omega
          simp only [left, List.length_drop]
          omega
    | child => simp [Step, exec, State.parentGone] at hs
  | send h =>
    cases a with
    | parent k =>
      simp only [Step, exec, State.childGone, fits_nil h.2] at hs
      cases hs
      exact ⟨buf, .outbound h, rfl, by simp, by simp [left, h.1]⟩
    | child => simp [Step, exec, State.parentGone] at hs
  | outbound h =>
    cases a with
    | parent k => simp [Step, exec, State.childGone] at hs
    | child =>
      simp only [Step, exec, ne_eq, h.1, not_false_eq_true, if_true, h.take] at hs
      cases hs
      exact ⟨buf, .child h, rfl, by simp, by simp [left, h.1]⟩
  | child h =>
    cases a with
    | parent k => simp [Step, exec, State.childGone] at hs
    | child =>
      simp only [Step, exec, State.parentGone, fits_nil h.map.2] at hs
      cases hs
      exact ⟨buf, .inbound h, rfl, by simp, by simp [left]⟩
  | inbound h =>
    cases a with
    | parent k =>
      simp only [Step, exec, ne_eq, h.map.1, not_false_eq_true, if_true, h.map.take] at hs
      cases hs
      exact ⟨buf, .print h, rfl, by simp, by simp [left]⟩
    | child => simp [Step, exec, State.parentGone] at hs
  | print h =>
    cases a with
    | parent k =>
      cases hs
      exact ⟨[], .input, by simp, by simp, by simp [left]⟩
    | child => simp [Step, exec, State.parentGone] at hs
  | exited =>
    cases a with
    | parent k => cases hs
    | child =>
      cases hs
      exact ⟨[], .final, rfl, fun _ => .inl ⟨rfl, rfl⟩, by simp [left]⟩
  | final => cases a <;> cases hs

theorem inv_start (input : Bytes) : Inv input (start input) :=
  ⟨⟨[], .input, rfl⟩, fun h => by cases h⟩

theorem Inv.step {a : Act} (h : Inv input s) (hs : Step s a t) : Inv input t ∧ left t < left s := by
  obtain ⟨⟨buf, hp, hdata⟩, hrest⟩ := h
  obtain ⟨buf', hp', hdata', hrest', hlt⟩ := step_phase hp hs
  refine ⟨⟨⟨buf', hp', hdata'.trans hdata⟩, fun ht => ?_⟩, hlt⟩
  obtain ⟨h1, h2⟩ | h2 := hrest' ht
  · rw [h2, hrest h1]
  · exact h2

theorem Inv.next (h : Inv input s) : Final s ∨ ∃ a t, Step s a t := by
  obtain ⟨stdin, parent, outbound, child, inbound, stdout⟩ := s
  obtain ⟨⟨buf, hp, -⟩, -⟩ := h
  simp only at hp
  cases hp with
  | input =>
    by_cases hs : stdin = []
    · subst hs
      exact .inr ⟨.parent 0, _, rfl⟩
    · have hk : Reads stdin 1 := by
        rw [Reads, if_neg hs]
        exact ⟨Nat.one_pos, by decide, List.length_pos_of_ne_nil hs⟩
      exact .inr ⟨.parent 1, _, if_pos hk⟩
  | send h => exact .inr ⟨.parent 0, _, if_pos (fits_nil h.2)⟩
  | outbound h => exact .inr ⟨.child, _, if_pos h.1⟩
  | child h => exact .inr ⟨.child, _, if_pos (fits_nil h.map.2)⟩
  | inbound h => exact .inr ⟨.parent 0, _, if_pos h.map.1⟩
  | print => exact .inr ⟨.parent 0, _, rfl⟩
  | exited => exact .inr ⟨.child, _, rfl⟩
  | final => exact .inl ⟨rfl, rfl⟩

/-- **Any input, arriving as it likes, in any interleaving of the two**: nobody is killed by writing
to a pipe that is not read; what has been printed is at every moment a prefix of the input in upper
case; no run goes on for ever or gets stuck; and when the parent has exited everything has been
printed. -/
theorem change_case_correct (input : Bytes) :
    (∀ as s, Run Step (start input) as s →
      s.parent ≠ .killed ∧ s.child ≠ .killed ∧ s.stdout <+: input.map toupper ∧
      (s.parent = .exited → s.stdout = input.map toupper)) ∧
    Ends Step (start input) Final := by
  refine ⟨fun as s hr => ?_, Ends.of_measure (I := Inv input) (μ := left)
    (fun s a t h (hs : Step s a t) => h.step hs) (fun s h => h.next) (inv_start input)⟩
  have h : Inv input s :=
    hr.invariant (fun s a t h (hs : Step s a t) => (h.step hs).1) (inv_start input)
  obtain ⟨⟨buf, hp, hdata⟩, hrest⟩ := h
  obtain ⟨stdin, parent, outbound, child, inbound, stdout⟩ := s
  simp only at hp hdata hrest ⊢
  refine ⟨?_, ?_, ⟨_, by rw [← hdata, List.append_assoc]⟩, fun he => ?_⟩
  · rintro rfl
    cases hp
  · rintro rfl
    cases hp
  · have hbuf : buf = [] := by
      subst he
      cases hp <;> rfl
    rw [← hdata, hrest he, hbuf]
    simp

end Tlpi.ChangeCase
