import Tlpi.Lib.Input
import Tlpi.Lib.File

/-!
# Reading lines, with and without a buffer

`readLine` of `tlpi-dist/lib/read_line.c`, which reads one character at a time, and `readLineBuf` of
`tlpi-dist/sockets/read_line_buf.c`, which reads ahead. Both return the next line of the input, cut
to the size of the buffer, however the input arrives (`readLines_eq`, `readLineBufLoop_eq`); so one
call of the one after the other gives the same as the other (`readLineBuf_refines`). They differ
where a signal handler interrupts: `readLine` starts over, `readLineBuf` fails (`fails_iff`).
-/

namespace Tlpi.ReadLine

open Tlpi.Lib

/-- What a call returns, and what it has stored in the buffer. -/
structure Line where
  ret : Int
  stored : Bytes
  deriving DecidableEq

/-- `ch` is stored if there is room for it. -/
def put (n : Nat) (buf : Bytes) (ch : UInt8) : Bytes := if buf.length < n then buf ++ [ch] else buf

/-- The loop of `readLine`; the length of `buf` is `totRead`. -/
def readLineLoop (n : Nat) (buf : Bytes) (es : List Event) : Line × List Event :=
  match h : read 1 es with
  | (.intr, es') => readLineLoop n buf es'
  | (.error, es') => (⟨-1, buf⟩, es')
  | (.data [], es') => (if buf = [] then ⟨0, []⟩ else ⟨buf.length, buf ++ [0]⟩, es')
  | (.data (ch :: _), es') =>
    let buf := put (n - 1) buf ch
    if ch = newline then (⟨buf.length, buf ++ [0]⟩, es') else readLineLoop n buf es'
termination_by es.length
decreasing_by all_goals exact read_lt Nat.one_pos h (by simp)

def readLine (n : Nat) (es : List Event) : Line × List Event :=
  if n = 0 then (⟨-1, []⟩, es) else readLineLoop n [] es

def RL_MAX_BUF : Nat := 10

/-- `struct ReadLineBuf`, without the descriptor. -/
structure ReadLineBuf where
  buf : Bytes
  next : Nat
  len : Int

/-- `readLineBufInit` -/
def readLineBufInit (buf : Bytes) : ReadLineBuf := { buf := buf, next := 0, len := 0 }

inductive Fill where
  /-- There is a character at `next`. -/
  | ready (rlbuf : ReadLineBuf) (es : List Event)
  | eof (rlbuf : ReadLineBuf) (es : List Event)
  | fail (rlbuf : ReadLineBuf) (es : List Event)

/-- The beginning of the loop of `readLineBuf`: further input if there is no more in the buffer. -/
def fill (rlbuf : ReadLineBuf) (es : List Event) : Fill :=
  if rlbuf.len ≤ rlbuf.next then
    match read RL_MAX_BUF es with
    | (.intr, es') | (.error, es') => .fail { rlbuf with len := -1 } es'
    | (.data [], es') => .eof { rlbuf with len := 0 } es'
    | (.data bs, es') =>
      .ready { buf := bs ++ rlbuf.buf.drop bs.length, next := 0, len := bs.length } es'
  else .ready rlbuf es

/-- Characters that are still to come, in the buffer and behind it. -/
def ahead (rlbuf : ReadLineBuf) (es : List Event) : Nat :=
  (rlbuf.len - rlbuf.next).toNat + es.length

theorem ahead_fill {rlbuf rlbuf' : ReadLineBuf} {es es' : List Event}
    (h : fill rlbuf es = .ready rlbuf' es') :
    ahead { rlbuf' with next := rlbuf'.next + 1 } es' < ahead rlbuf es := by
  unfold fill at h
  split at h
  · have hs := read_spec (n := RL_MAX_BUF) (by decide) es
    split at h <;> cases h
    next bs _ hne hr =>
    rw [hr] at hs
    cases hs with
    | eof k => exact absurd rfl hne
    | data k hbs =>
      simp only [ahead, length_gaps, List.length_append, List.length_map]
      have := List.length_pos_iff.mpr hbs
      omega
  · cases h
    simp only [ahead]
    omega

/-- The loop of `readLineBuf`; the length of `buffer` is `cnt`. -/
def readLineBufLoop (n : Nat) (buffer : Bytes) (rlbuf : ReadLineBuf) (es : List Event) :
    Line × ReadLineBuf × List Event :=
  match h : fill rlbuf es with
  | .fail rlbuf' es' => (⟨-1, buffer⟩, rlbuf', es')
  | .eof rlbuf' es' => (⟨buffer.length, buffer⟩, rlbuf', es')
  | .ready rlbuf' es' =>
    let c := rlbuf'.buf.getD rlbuf'.next 0
    let rlbuf' := { rlbuf' with next := rlbuf'.next + 1 }
    let buffer := put n buffer c
    if c = newline then (⟨buffer.length, buffer⟩, rlbuf', es')
    else readLineBufLoop n buffer rlbuf' es'
termination_by ahead rlbuf es
decreasing_by exact ahead_fill h

def readLineBuf (n : Nat) (rlbuf : ReadLineBuf) (es : List Event) :
    Line × ReadLineBuf × List Event :=
  if n = 0 then (⟨-1, []⟩, rlbuf, es) else readLineBufLoop n [] rlbuf es

/-! ## The next line -/

/-- How a line ends: with a newline, at the end of the file, or nowhere. -/
inductive Outcome where
  | line (l : Bytes)
  | eof (l : Bytes)
  | fail (l : Bytes)
  deriving DecidableEq

def Outcome.push (b : UInt8) : Outcome → Outcome
  | .line l => .line (b :: l)
  | .eof l => .eof (b :: l)
  | .fail l => .fail (b :: l)

/-- The next line of the input, by a reader that `restarts` when it is interrupted. -/
def nextLine (restarts : Bool) : List Event → Outcome × List Event
  | [] => (.eof [], [])
  | .byte b :: es =>
    if b = newline then (.line [b], es)
    else ((nextLine restarts es).1.push b, (nextLine restarts es).2)
  | .gap :: es => nextLine restarts es
  | .intr :: es => if restarts then nextLine restarts es else (.fail [], es)
  | .error :: es => (.fail [], es)

/-- What `readLine` makes of it, with `buf` already stored. -/
def Outcome.readLine (n : Nat) (buf : Bytes) : Outcome → Line
  | .line l => ⟨((buf ++ l).take (n - 1)).length, (buf ++ l).take (n - 1) ++ [0]⟩
  | .eof l =>
    if (buf ++ l).take (n - 1) = [] then ⟨0, []⟩
    else ⟨((buf ++ l).take (n - 1)).length, (buf ++ l).take (n - 1) ++ [0]⟩
  | .fail l => ⟨-1, (buf ++ l).take (n - 1)⟩

/-- What `readLineBuf` makes of it. -/
def Outcome.readLineBuf (n : Nat) (buffer : Bytes) : Outcome → Line
  | .line l | .eof l => ⟨((buffer ++ l).take n).length, (buffer ++ l).take n⟩
  | .fail l => ⟨-1, (buffer ++ l).take n⟩

section next

variable {n : Nat} {buf : Bytes} {r : Bool}

@[simp] theorem nextLine_gaps (k : Nat) (es : List Event) :
    nextLine r (gaps k es) = nextLine r es := by
  induction k with
  | zero => rfl
  | succ k ih => exact ih

theorem put_eq_take (h : buf.length ≤ n) (ch : UInt8) : put n buf ch = (buf ++ [ch]).take n := by
  unfold put
  split
  · next hlt => rw [List.take_of_length_le (by simp; omega)]
  · next hge => rw [List.take_append_of_le_length (by omega), List.take_of_length_le h]

theorem length_put_le (h : buf.length ≤ n) (ch : UInt8) : (put n buf ch).length ≤ n := by
  rw [put_eq_take h]
  exact List.length_take_le _ _

theorem take_put (h : buf.length ≤ n) (ch : UInt8) (l : Bytes) :
    (put n buf ch ++ l).take n = (buf ++ ch :: l).take n := by
  unfold put
  split
  · rw [List.append_assoc]
    rfl
  · rw [List.take_append_of_le_length (by omega), List.take_append_of_le_length (by omega)]

theorem readLine_put (h : buf.length ≤ n - 1) (ch : UInt8) (o : Outcome) :
    o.readLine n (put (n - 1) buf ch) = (o.push ch).readLine n buf := by
  cases o <;> simp only [Outcome.readLine, Outcome.push, take_put h]

theorem readLineBuf_put (h : buf.length ≤ n) (ch : UInt8) (o : Outcome) :
    o.readLineBuf n (put n buf ch) = (o.push ch).readLineBuf n buf := by
  cases o <;> simp only [Outcome.readLineBuf, Outcome.push, take_put h]

theorem read_one {es es' : List Event} {res : ReadResult} (hr : read 1 es = (res, es')) :
    match res with
    | .intr => ∃ k, es = gaps k (.intr :: es')
    | .error => ∃ k, es = gaps k (.error :: es')
    | .data [] => ∃ k, es = gaps k [] ∧ es' = []
    | .data (ch :: _) => ∃ k, es = gaps k (.byte ch :: es') := by
  have hs := read_spec Nat.one_pos es
  rw [hr] at hs
  cases hs with
  | eof k => exact ⟨k, rfl, rfl⟩
  | @data k bs es' hbs hle =>
    match bs with
    | [] => exact absurd rfl hbs
    | [ch] => exact ⟨k, rfl⟩
    | _ :: _ :: _ => simp at hle
  | intr k | error k => exact ⟨k, rfl⟩

/-- **`readLine` returns the next line.** -/
theorem readLineLoop_eq (h : buf.length ≤ n - 1) (es : List Event) :
    readLineLoop n buf es =
      ((nextLine true es).1.readLine n buf, (nextLine true es).2) := by
  fun_induction readLineLoop n buf es with
  | case1 buf es es' hr ih =>
    obtain ⟨k, rfl⟩ := read_one hr
    rw [ih h, nextLine_gaps]
    rfl
  | case2 buf es es' hr =>
    obtain ⟨k, rfl⟩ := read_one hr
    simp [nextLine, Outcome.readLine, List.take_of_length_le h]
  | case3 buf es es' hr =>
    obtain ⟨k, rfl, rfl⟩ := read_one hr
    simp [nextLine, Outcome.readLine, List.take_of_length_le h]
  | case4 buf es tail es' hr buf' =>
    obtain ⟨k, rfl⟩ := read_one hr
    simp [nextLine, Outcome.readLine, buf', put_eq_take h]
  | case5 buf es ch tail es' hr buf' hnl ih =>
    obtain ⟨k, rfl⟩ := read_one hr
    rw [ih (length_put_le h ch), nextLine_gaps, nextLine, if_neg hnl, readLine_put h]

/-! ## The buffer -/

/-- What has been read ahead. -/
def ReadLineBuf.rest (rlbuf : ReadLineBuf) : Bytes :=
  (rlbuf.buf.take rlbuf.len.toNat).drop rlbuf.next

/-- What `readLineBuf` will find. -/
def view (rlbuf : ReadLineBuf) (es : List Event) : List Event := rlbuf.rest.map .byte ++ es

/-- The characters that count are in the array. -/
def ReadLineBuf.Ok (rlbuf : ReadLineBuf) : Prop := rlbuf.len ≤ rlbuf.buf.length

theorem rest_of_le {rlbuf : ReadLineBuf} (h : rlbuf.len ≤ rlbuf.next) : rlbuf.rest = [] := by
  unfold ReadLineBuf.rest
  rw [List.drop_eq_nil_iff, List.length_take]
  omega

theorem rest_of_lt {rlbuf : ReadLineBuf} (hok : rlbuf.Ok) (h : rlbuf.next < rlbuf.len) :
    rlbuf.rest = rlbuf.buf.getD rlbuf.next 0 :: { rlbuf with next := rlbuf.next + 1 }.rest := by
  unfold ReadLineBuf.Ok at hok
  have hlt : rlbuf.next < (rlbuf.buf.take rlbuf.len.toNat).length := by
    rw [List.length_take]
    omega
  unfold ReadLineBuf.rest
  rw [List.drop_eq_getElem_cons hlt, List.getElem_take, List.getD_eq_getElem]

theorem fill_spec {rlbuf : ReadLineBuf} (hok : rlbuf.Ok) (es : List Event) :
    match fill rlbuf es with
    | .ready rlbuf' es' => rlbuf'.Ok ∧ ∃ k, view rlbuf es =
        gaps k (.byte (rlbuf'.buf.getD rlbuf'.next 0) ::
          view { rlbuf' with next := rlbuf'.next + 1 } es')
    | .eof rlbuf' es' => rlbuf'.Ok ∧ (∃ k, view rlbuf es = gaps k []) ∧ view rlbuf' es' = []
    | .fail rlbuf' es' => rlbuf'.Ok ∧ ∃ k e, (e = .intr ∨ e = .error) ∧
        view rlbuf es = gaps k (e :: view rlbuf' es') := by
  by_cases hlt : rlbuf.next < rlbuf.len
  · rw [fill, if_neg (not_le.mpr hlt)]
    exact ⟨hok, 0, by rw [view, rest_of_lt hok hlt]; rfl⟩
  · have hrest : rlbuf.rest = [] := rest_of_le (not_lt.mp hlt)
    have hempty : ∀ len : Int, len ≤ 0 → { rlbuf with len := len }.rest = [] := fun len hle =>
      rest_of_le (by simp only; omega)
    have hfail : { rlbuf with len := -1 }.Ok := by
      show (-1 : Int) ≤ rlbuf.buf.length
      omega
    have hs := read_spec (n := RL_MAX_BUF) (by decide) es
    simp only [fill, if_pos (not_lt.mp hlt), view, hrest, List.map_nil, List.nil_append]
    generalize read RL_MAX_BUF es = p at hs ⊢
    obtain ⟨res, es'⟩ := p
    cases hs with
    | eof k => exact ⟨by simp [ReadLineBuf.Ok], ⟨k, rfl⟩, by simp [hempty 0 le_rfl]⟩
    | intr k =>
      exact ⟨hfail, k, .intr, .inl rfl, by rw [hempty (-1) (by decide)]; rfl⟩
    | error k =>
      exact ⟨hfail, k, .error, .inr rfl, by rw [hempty (-1) (by decide)]; rfl⟩
    | @data k bs _ hbs hle =>
      obtain ⟨ch, bs, rfl⟩ := List.exists_cons_of_ne_nil hbs
      have hnew : ({ buf := (ch :: bs) ++ rlbuf.buf.drop (ch :: bs).length, next := 0
                     len := (ch :: bs).length } : ReadLineBuf).Ok := by
        simp [ReadLineBuf.Ok]
      have hall := rest_of_lt hnew (by simp only [List.length_cons]; omega)
      have hbs : (ch :: bs).map Event.byte ++ es' = .byte
          (((ch :: bs) ++ rlbuf.buf.drop (ch :: bs).length).getD 0 0) ::
          ({ buf := (ch :: bs) ++ rlbuf.buf.drop (ch :: bs).length, next := 0 + 1
             len := (ch :: bs).length } : ReadLineBuf).rest.map .byte ++ es' := by
        rw [← List.map_cons, ← hall]
        simp [ReadLineBuf.rest]
      exact ⟨hnew, k, congrArg _ hbs⟩

/-- **`readLineBuf` returns the next line** of what it has read ahead and what is left. -/
theorem readLineBufLoop_eq {rlbuf : ReadLineBuf} (hok : rlbuf.Ok) (h : buf.length ≤ n)
    (es : List Event) :
    (readLineBufLoop n buf rlbuf es).1 = (nextLine false (view rlbuf es)).1.readLineBuf n buf ∧
    view (readLineBufLoop n buf rlbuf es).2.1 (readLineBufLoop n buf rlbuf es).2.2 =
      (nextLine false (view rlbuf es)).2 ∧
    (readLineBufLoop n buf rlbuf es).2.1.Ok := by
  fun_induction readLineBufLoop n buf rlbuf es with
  | case1 buf rlbuf es rlbuf' es' hf =>
    have hfill := fill_spec hok es
    rw [hf] at hfill
    obtain ⟨hok', k, e, he, hv⟩ := hfill
    rw [hv, nextLine_gaps]
    rcases he with rfl | rfl <;>
      simp [nextLine, Outcome.readLineBuf, List.take_of_length_le h, hok']
  | case2 buf rlbuf es rlbuf' es' hf =>
    have hfill := fill_spec hok es
    rw [hf] at hfill
    obtain ⟨hok', ⟨k, hv⟩, hv'⟩ := hfill
    rw [hv, nextLine_gaps]
    simp [nextLine, Outcome.readLineBuf, List.take_of_length_le h, hok', hv']
  | case3 buf rlbuf es rlbuf' es' hf c next buf' hc =>
    have hfill := fill_spec hok es
    rw [hf] at hfill
    obtain ⟨hok', k, hv⟩ := hfill
    rw [hv, nextLine_gaps, nextLine, if_pos hc]
    refine ⟨?_, rfl, hok'⟩
    simp only [Outcome.readLineBuf, buf', put_eq_take h, c]
  | case4 buf rlbuf es rlbuf' es' hf c next buf' hc ih =>
    have hfill := fill_spec hok es
    rw [hf] at hfill
    obtain ⟨hok', k, hv⟩ := hfill
    rw [hv, nextLine_gaps, nextLine, if_neg hc, ← readLineBuf_put h]
    exact ih hok' (length_put_le h c)

end next

/-! ## Line after line -/

/-- Calls of `readLine` one after the other, with buffers of the sizes `ns`. -/
def readLines : List Nat → List Event → List Line
  | [], _ => []
  | n :: ns, es => (readLine n es).1 :: readLines ns (readLine n es).2

def readLineBufs : List Nat → ReadLineBuf → List Event → List Line
  | [], _, _ => []
  | n :: ns, rlbuf, es =>
    (readLineBuf n rlbuf es).1 ::
      readLineBufs ns (readLineBuf n rlbuf es).2.1 (readLineBuf n rlbuf es).2.2

/-- What a reader of lines finds, `ls` being those left. -/
def outcome : List Bytes → Outcome
  | [] => .eof []
  | l :: _ => if newline ∈ l then .line l else .eof l

/-- The lines, cut to buffers of the sizes `ns`. -/
def cutLines : List Nat → List Bytes → List Line
  | [], _ => []
  | n :: ns, ls =>
    if n = 0 then ⟨-1, []⟩ :: cutLines ns ls else (outcome ls).readLine n [] :: cutLines ns ls.tail

/-- No event stops the reader. -/
def Clean (restarts : Bool) (es : List Event) : Prop :=
  .error ∉ es ∧ (restarts = false → .intr ∉ es)

section calls

variable {n : Nat} {r : Bool}

theorem Clean.of_cons {e : Event} {es : List Event} (h : Clean r (e :: es)) : Clean r es :=
  ⟨fun he => h.1 (List.mem_cons_of_mem _ he), fun hr he => h.2 hr (List.mem_cons_of_mem _ he)⟩

theorem outcome_cons {b : UInt8} (hb : b ≠ newline) (s : Bytes) :
    outcome (lines (b :: s)) = (outcome (lines s)).push b ∧
      (lines (b :: s)).tail = (lines s).tail := by
  rw [lines, if_neg hb]
  cases lines s with
  | nil => simp [outcome, Outcome.push, Ne.symm hb]
  | cons l ls =>
    simp only [outcome, List.mem_cons, Ne.symm hb, false_or, List.tail_cons, and_true]
    split <;> rfl

/-- **A reader that nothing stops finds the lines of the content**, however they arrive. -/
theorem nextLine_clean {es : List Event} (h : Clean r es) :
    (nextLine r es).1 = outcome (lines (content es)) ∧
    lines (content (nextLine r es).2) = (lines (content es)).tail ∧ Clean r (nextLine r es).2 := by
  induction es with
  | nil => exact ⟨rfl, rfl, h⟩
  | cons e es ih =>
    have ih := ih h.of_cons
    cases e with
    | byte b =>
      by_cases hb : b = newline
      · rw [nextLine, if_pos hb, content, lines, if_pos hb, hb]
        exact ⟨by simp [outcome], rfl, h.of_cons⟩
      · rw [nextLine, if_neg hb, content, (outcome_cons hb _).1, (outcome_cons hb _).2]
        exact ⟨congrArg (Outcome.push b) ih.1, ih.2⟩
    | gap => exact ih
    | intr =>
      cases r with
      | true => exact ih
      | false => exact absurd List.mem_cons_self (h.2 rfl)
    | error => exact absurd List.mem_cons_self h.1

/-- **What `readLine` returns, call after call**: the lines of the input, each cut to its buffer,
however they arrive and whatever interrupts. -/
theorem readLines_eq {es : List Event} (h : .error ∉ es) (ns : List Nat) :
    readLines ns es = cutLines ns (lines (content es)) := by
  induction ns generalizing es with
  | nil => rfl
  | cons n ns ih =>
    rw [readLines, cutLines, readLine]
    split
    · rw [ih h]
    · obtain ⟨h1, h2, h3⟩ := nextLine_clean (r := true) ⟨h, by simp⟩
      rw [readLineLoop_eq (Nat.zero_le _), h1, ih h3.1, h2]

theorem readLines_eq_chunks :
    readLines [4, 4] [.byte 97, .intr, .byte 10, .gap, .byte 98] =
      [⟨2, [97, 10, 0]⟩, ⟨1, [98, 0]⟩] :=
  (readLines_eq (by decide) _).trans (by decide)

/-- `readLine`, without the byte that ends the string. -/
def Line.bare (l : Line) : Line := { l with stored := l.stored.take l.ret.toNat }

theorem bare_string (b : Bytes) : Line.bare ⟨b.length, b ++ [0]⟩ = ⟨b.length, b⟩ := by
  simp [Line.bare]

theorem readLineBuf_eq_bare (n : Nat) (ls : List Bytes) :
    (outcome ls).readLineBuf n [] = ((outcome ls).readLine (n + 1) []).bare := by
  cases ls with
  | nil => simp [outcome, Outcome.readLineBuf, Outcome.readLine, Line.bare]
  | cons l ls =>
    simp only [outcome]
    split
    · simp only [Outcome.readLineBuf, Outcome.readLine, Nat.add_sub_cancel, bare_string]
    · simp only [Outcome.readLineBuf, Outcome.readLine, List.nil_append, Nat.add_sub_cancel]
      split
      · next h => simp [h, Line.bare]
      · rw [bare_string]

theorem readLineBufs_eq {rlbuf : ReadLineBuf} (hok : rlbuf.Ok) {es es' : List Event}
    (h : Clean false (view rlbuf es)) (h' : Clean true es')
    (hc : lines (content (view rlbuf es)) = lines (content es')) {ns : List Nat}
    (hn : ∀ n ∈ ns, 0 < n) :
    readLineBufs ns rlbuf es = (readLines (ns.map (· + 1)) es').map Line.bare := by
  induction ns generalizing rlbuf es es' with
  | nil => rfl
  | cons n ns ih =>
    obtain ⟨hn0, hn⟩ := List.forall_mem_cons.mp hn
    obtain ⟨h1, h2, h3⟩ := nextLine_clean h
    obtain ⟨h1', h2', h3'⟩ := nextLine_clean h'
    have hlen : ([] : Bytes).length ≤ n := Nat.zero_le n
    obtain ⟨e1, e2, e3⟩ := readLineBufLoop_eq hok hlen es
    rw [readLineBufs, List.map_cons, readLines, List.map_cons, readLineBuf,
      if_neg (Nat.pos_iff_ne_zero.mp hn0), readLine, if_neg (Nat.succ_ne_zero n),
      readLineLoop_eq (Nat.zero_le _), e1, h1, h1', hc, readLineBuf_eq_bare]
    refine congrArg _ (ih e3 (e2 ▸ h3) h3' ?_ hn)
    rw [e2, h2, h2', hc]

theorem readLineBufInit_ok (buf : Bytes) : (readLineBufInit buf).Ok := by
  simp [readLineBufInit, ReadLineBuf.Ok]

theorem view_init (buf : Bytes) (es : List Event) : view (readLineBufInit buf) es = es := by
  simp [view, readLineBufInit, ReadLineBuf.rest]

/-- **`readLineBuf` refines `readLine`**: if nothing interrupts it, it returns the same lines, call
after call, however its input arrives, as `readLine` with one byte more for the end of the
string. -/
theorem readLineBuf_refines (es es' : List Event) (h : Clean false es) (h' : Clean true es')
    (hc : content es = content es') (ns : List Nat) (hn : ∀ n ∈ ns, 0 < n) (buf : Bytes) :
    readLineBufs ns (readLineBufInit buf) es = (readLines (ns.map (· + 1)) es').map Line.bare := by
  exact readLineBufs_eq (readLineBufInit_ok buf) (by rwa [view_init]) h' (by rw [view_init, hc]) hn

instance (r : Bool) (es : List Event) : Decidable (Clean r es) :=
  inferInstanceAs (Decidable (_ ∧ _))

theorem readLineBuf_refines_chunks :
    readLineBufs [4] (readLineBufInit []) [.byte 97, .gap, .byte 10] =
      (readLines [5] [.byte 97, .intr, .byte 10]).map Line.bare :=
  readLineBuf_refines [.byte 97, .gap, .byte 10] [.byte 97, .intr, .byte 10] (by decide) (by decide)
    rfl [4] (by decide) []

/-! ## Interruptions -/

/-- An event before the end of the line stops the reader. -/
def Stops (r : Bool) (es : List Event) : Prop :=
  ∃ p e q, es = p ++ e :: q ∧ newline ∉ content p ∧ (e = .error ∨ (r = false ∧ e = .intr))

theorem stops_cons {e : Event} {es : List Event} (he : e ≠ .byte newline)
    (hs : ¬ (e = .error ∨ (r = false ∧ e = .intr))) : Stops r (e :: es) ↔ Stops r es := by
  refine ⟨?_, ?_⟩
  · rintro ⟨p, x, q, heq, hp, hx⟩
    cases p with
    | nil =>
      cases heq
      exact absurd hx hs
    | cons y p =>
      cases heq
      refine ⟨p, x, q, rfl, fun hm => hp ?_, hx⟩
      cases e <;> simp [content, hm]
  · rintro ⟨p, x, q, rfl, hp, hx⟩
    refine ⟨e :: p, x, q, rfl, ?_, hx⟩
    cases e with
    | byte b => simpa [content, hp, eq_comm] using he
    | gap | intr | error => exact hp

theorem stops_now {e : Event} (es : List Event) (hs : e = .error ∨ (r = false ∧ e = .intr)) :
    Stops r (e :: es) := ⟨[], e, es, rfl, by simp [content], hs⟩

theorem not_stops_newline (es : List Event) : ¬ Stops r (.byte newline :: es) := by
  rintro ⟨p, x, q, heq, hp, hx⟩
  cases p with
  | nil =>
    cases heq
    simp at hx
  | cons y p =>
    cases heq
    simp [content] at hp

theorem push_fail_iff {b : UInt8} {o : Outcome} :
    (∃ l, o.push b = .fail l) ↔ ∃ l, o = .fail l := by
  cases o <;> simp [Outcome.push]

theorem nextLine_fail_iff (es : List Event) :
    (∃ l, (nextLine r es).1 = .fail l) ↔ Stops r es := by
  induction es with
  | nil => simp [nextLine, Stops]
  | cons e es ih =>
    cases e with
    | byte b =>
      by_cases hb : b = newline
      · rw [nextLine, if_pos hb, hb]
        simp [not_stops_newline]
      · rw [nextLine, if_neg hb, push_fail_iff, ih, stops_cons (by simpa using hb) (by simp)]
    | gap => rw [nextLine, ih, stops_cons (by simp) (by simp)]
    | intr =>
      cases r with
      | true => rw [nextLine, if_pos rfl, ih, stops_cons (by simp) (by simp)]
      | false => simp [nextLine, stops_now]
    | error => simp [nextLine, stops_now]

theorem readLine_ret_iff (o : Outcome) : (o.readLine n []).ret = -1 ↔ ∃ l, o = .fail l := by
  cases o with
  | line l => simp [Outcome.readLine]; omega
  | eof l =>
    simp only [Outcome.readLine]
    split <;> simp
    omega
  | fail l => simp [Outcome.readLine]

theorem readLineBuf_ret_iff (o : Outcome) : (o.readLineBuf n []).ret = -1 ↔ ∃ l, o = .fail l := by
  cases o with
  | line l | eof l => simp [Outcome.readLineBuf]; omega
  | fail l => simp [Outcome.readLineBuf]

/-- **Where the two differ**: `readLine` fails when an error comes before the end of the line,
`readLineBuf` also when an interruption does. -/
theorem fails_iff (hn : 0 < n) {rlbuf : ReadLineBuf} (hok : rlbuf.Ok) (es : List Event) :
    ((readLine n es).1.ret = -1 ↔ Stops true es) ∧
    ((readLineBuf n rlbuf es).1.ret = -1 ↔ Stops false (view rlbuf es)) := by
  have hn0 : n ≠ 0 := Nat.pos_iff_ne_zero.mp hn
  have hlen : ([] : Bytes).length ≤ n := Nat.zero_le n
  refine ⟨?_, ?_⟩
  · rw [readLine, if_neg hn0, readLineLoop_eq (Nat.zero_le _), readLine_ret_iff, nextLine_fail_iff]
  · rw [readLineBuf, if_neg hn0, (readLineBufLoop_eq hok hlen es).1, readLineBuf_ret_iff,
      nextLine_fail_iff]

theorem fails_iff_intr : (readLineBuf 4 (readLineBufInit []) [.byte 97, .intr]).1.ret = -1 :=
  (fails_iff (by decide) (readLineBufInit_ok []) [.byte 97, .intr]).2.mpr
    ⟨[.byte 97], .intr, [], rfl, by decide, by decide⟩

end calls

end Tlpi.ReadLine
