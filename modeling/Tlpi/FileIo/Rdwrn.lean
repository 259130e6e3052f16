import Tlpi.Lib.Input
import Tlpi.Lib.File

/-!
# Reading and writing all of it

`readn` and `writen` of `tlpi-dist/lib/rdwrn.c`: calls of `read` and `write` until `n` bytes have
moved, whatever part of them each call moves and however often it is interrupted. What
`writen` has put into a pipe in several calls, `readn` takes out in the same pieces
(`readn_writen`).
-/

namespace Tlpi.Rdwrn

open Tlpi.Lib

/-! ## The functions -/

/-- What a call returns, and the bytes that it has moved. -/
structure Moved where
  ret : Int
  bytes : Bytes
  deriving DecidableEq

/-- `readn`, the length of `buf` being `totRead`. -/
def readn (n : Nat) (buf : Bytes) (es : List Event) : Moved × List Event :=
  if buf.length < n then
    match h : read (n - buf.length) es with
    | (.data [], es') => (⟨buf.length, buf⟩, es')
    | (.intr, es') => readn n buf es'
    | (.error, es') => (⟨-1, buf⟩, es')
    | (.data (b :: bs), es') => readn n (buf ++ b :: bs) es'
  else (⟨buf.length, buf⟩, es)
termination_by es.length
decreasing_by all_goals exact read_lt (Nat.sub_pos_of_lt ‹buf.length < n›) h (by simp)

/-- What the next `write` will do: take so many bytes at most, or fail. -/
inductive Accept where
  | upTo (k : Nat)
  | intr
  | error
  deriving DecidableEq

/-- `writen`, with `buf` still to be written after `done`. When the list is at its end the
descriptor takes everything. -/
def writen (done buf : Bytes) : List Accept → Moved × List Accept
  | [] => (⟨(done ++ buf).length, done ++ buf⟩, [])
  | a :: as =>
    if buf = [] then (⟨done.length, done⟩, a :: as)
    else match a with
      | .intr => writen done buf as
      | .error | .upTo 0 => (⟨-1, done⟩, as)
      | .upTo (k + 1) => writen (done ++ buf.take (k + 1)) (buf.drop (k + 1)) as

/-! ## One call -/

/-- The bytes that arrive before an error, and whether there is one. -/
def beforeError : List Event → Bytes × Bool
  | [] => ([], false)
  | .byte b :: es => (b :: (beforeError es).1, (beforeError es).2)
  | .gap :: es | .intr :: es => beforeError es
  | .error :: _ => ([], true)

/-- The bytes that the descriptor takes before it fails. -/
def room : List Accept → ℕ∞
  | [] => ⊤
  | .intr :: as => room as
  | .error :: _ | .upTo 0 :: _ => 0
  | .upTo (k + 1) :: as => (k + 1 : Nat) + room as

variable {n : Nat}

@[simp] theorem beforeError_gaps (k : Nat) (es : List Event) :
    beforeError (gaps k es) = beforeError es := by
  induction k with
  | zero => rfl
  | succ k ih => exact ih

@[simp] theorem beforeError_bytes (bs : Bytes) (es : List Event) :
    beforeError (bs.map .byte ++ es) = (bs ++ (beforeError es).1, (beforeError es).2) := by
  induction bs with
  | nil => rfl
  | cons b bs ih => rw [List.map_cons, List.cons_append, beforeError, ih]; rfl

theorem read_cases (hn : 0 < n) {es es' : List Event} {res : ReadResult}
    (hr : read n es = (res, es')) :
    match res with
    | .intr => ∃ k, es = gaps k (.intr :: es')
    | .error => ∃ k, es = gaps k (.error :: es')
    | .data bs => (bs = [] ∧ ∃ k, es = gaps k [] ∧ es' = []) ∨
        (bs ≠ [] ∧ bs.length ≤ n ∧ ∃ k, es = gaps k (bs.map .byte ++ es')) := by
  have hs := read_spec hn es
  rw [hr] at hs
  cases hs with
  | eof k => exact .inl ⟨rfl, k, rfl, rfl⟩
  | data k hbs hle => exact .inr ⟨hbs, hle, k, rfl⟩
  | intr k | error k => exact ⟨k, rfl⟩

/-- What `readn` makes of the bytes that arrive and of what ends them. -/
def readOutcome (n : Nat) (bs : Bytes) (failed : Bool) : Moved :=
  if n ≤ bs.length then ⟨n, bs.take n⟩ else if failed then ⟨-1, bs⟩ else ⟨bs.length, bs⟩

/-- **`readn` reads what it is asked for**, or what there is before the end of the file; it fails
when an error comes first. -/
theorem readn_eq {buf : Bytes} (h : buf.length ≤ n) (es : List Event) :
    (readn n buf es).1 = readOutcome n (buf ++ (beforeError es).1) (beforeError es).2 := by
  fun_induction readn n buf es with
  | case1 buf es hlt es' hr =>
    obtain ⟨-, k, rfl, rfl⟩ | ⟨hne, -⟩ := read_cases (Nat.sub_pos_of_lt hlt) hr
    · rw [beforeError_gaps]
      simp [beforeError, readOutcome, hlt]
    · exact absurd rfl hne
  | case2 buf es hlt es' hr ih =>
    obtain ⟨k, rfl⟩ := read_cases (Nat.sub_pos_of_lt hlt) hr
    rw [ih h, beforeError_gaps]
    rfl
  | case3 buf es hlt es' hr =>
    obtain ⟨k, rfl⟩ := read_cases (Nat.sub_pos_of_lt hlt) hr
    rw [beforeError_gaps]
    simp [beforeError, readOutcome, hlt]
  | case4 buf es hlt b bs es' hr ih =>
    obtain ⟨hb, -⟩ | ⟨-, hle, k, rfl⟩ := read_cases (Nat.sub_pos_of_lt hlt) hr
    · cases hb
    · rw [ih (by rw [List.length_append]; omega), beforeError_gaps, beforeError_bytes,
        List.append_assoc]
  | case5 buf es hge =>
    have hn : buf.length = n := by omega
    rw [readOutcome, if_pos (by rw [List.length_append]; omega),
      List.take_append_of_le_length hn.ge, List.take_of_length_le h, hn]

theorem readn_rest {buf : Bytes} (h : buf.length ≤ n) {es : List Event} (hclean : .error ∉ es) :
    content (readn n buf es).2 = (buf ++ content es).drop n ∧ .error ∉ (readn n buf es).2 := by
  fun_induction readn n buf es with
  | case1 buf es hlt es' hr =>
    obtain ⟨-, k, rfl, rfl⟩ | ⟨hne, -⟩ := read_cases (Nat.sub_pos_of_lt hlt) hr
    · rw [content_gaps]
      simp [content, h]
    · exact absurd rfl hne
  | case2 buf es hlt es' hr ih =>
    obtain ⟨k, rfl⟩ := read_cases (Nat.sub_pos_of_lt hlt) hr
    rw [content_gaps]
    exact ih h (by simpa using hclean)
  | case3 buf es hlt es' hr =>
    obtain ⟨k, rfl⟩ := read_cases (Nat.sub_pos_of_lt hlt) hr
    simp at hclean
  | case4 buf es hlt b bs es' hr ih =>
    obtain ⟨hb, -⟩ | ⟨-, hle, k, rfl⟩ := read_cases (Nat.sub_pos_of_lt hlt) hr
    · cases hb
    · rw [content_gaps, content_append, content_bytes, ← List.append_assoc]
      exact ih (by rw [List.length_append]; omega) (by simpa using hclean)
  | case5 buf es hge =>
    have hn : buf.length = n := by omega
    exact ⟨by rw [← hn, List.drop_left], hclean⟩

theorem beforeError_clean {es : List Event} (h : .error ∉ es) :
    beforeError es = (content es, false) := by
  induction es with
  | nil => rfl
  | cons e es ih =>
    have ih := ih fun he => h (List.mem_cons_of_mem _ he)
    cases e with
    | byte b => rw [beforeError, ih]; rfl
    | gap | intr => exact ih
    | error => exact absurd List.mem_cons_self h

/-- **`writen` writes everything**, or what the descriptor takes before it fails. -/
theorem writen_eq (done buf : Bytes) (as : List Accept) :
    (writen done buf as).1 =
      if (buf.length : ℕ∞) ≤ room as then ⟨(done ++ buf).length, done ++ buf⟩
      else ⟨-1, done ++ buf.take (room as).toNat⟩ := by
  fun_induction writen done buf as with
  | case1 done buf => simp [room]
  | case2 done a as => simp
  | case3 done buf as hne ih => exact ih
  | case4 done buf as hne | case5 done buf as hne =>
    have : ¬ ((buf.length : ℕ∞) ≤ 0) := by simpa using hne
    simp [room, this]
  | case6 done buf as hne k ih =>
    rw [ih, List.append_assoc, List.take_append_drop, List.append_assoc, room]
    cases room as with
    | top => simp
    | coe r =>
      have hiff : ((buf.drop (k + 1)).length : ℕ∞) ≤ r ↔ (buf.length : ℕ∞) ≤ (k + 1 : Nat) + r := by
        rw [List.length_drop, ← Nat.cast_add, Nat.cast_le, Nat.cast_le]
        omega
      simp only [hiff, ← Nat.cast_add, ENat.toNat_natCast, List.take_add]

/-! ## Messages through a pipe -/

/-- Messages written one after the other: what `writen` returns for each, and all the bytes that are
in the pipe then. -/
def writens : List Bytes → List Accept → List Int × Bytes
  | [], _ => ([], [])
  | m :: ms, as =>
    let r := writen [] m as
    (r.1.ret :: (writens ms r.2).1, r.1.bytes ++ (writens ms r.2).2)

def readns : List Nat → List Event → List Moved
  | [], _ => []
  | n :: ns, es => (readn n [] es).1 :: readns ns (readn n [] es).2

theorem writens_bytes {ms : List Bytes} {as : List Accept}
    (h : ∀ ret ∈ (writens ms as).1, ret ≠ -1) : (writens ms as).2 = ms.flatten := by
  induction ms generalizing as with
  | nil => rfl
  | cons m ms ih =>
    obtain ⟨h1, h2⟩ := List.forall_mem_cons.mp h
    have hm := writen_eq [] m as
    split at hm
    · simp only [writens, hm, ih h2]
      rfl
    · rw [hm] at h1
      exact absurd rfl h1

/-- **What has been written is read, message for message**: if no `writen` fails, then however the
pipe cuts the bytes and whatever interrupts the calls, `readn` returns each message again. -/
theorem readn_writen (ms : List Bytes) (as : List Accept) (es : List Event)
    (hw : ∀ ret ∈ (writens ms as).1, ret ≠ -1) (hr : .error ∉ es)
    (hpipe : content es = (writens ms as).2) :
    readns (ms.map List.length) es = ms.map fun m => ⟨m.length, m⟩ := by
  rw [writens_bytes hw] at hpipe
  clear hw
  induction ms generalizing es with
  | nil => rfl
  | cons m ms ih =>
    have hlen : ([] : Bytes).length ≤ m.length := Nat.zero_le _
    obtain ⟨hrest, hclean⟩ := readn_rest hlen hr
    rw [List.map_cons, readns, List.map_cons, readn_eq hlen, beforeError_clean hr, hpipe]
    refine congrArg₂ _ ?_ (ih _ hclean ?_)
    · simp [readOutcome]
    · rw [hrest, hpipe]
      simp

theorem readn_writen_interrupted :
    readns [2, 1] [.byte 7, .intr, .gap, .byte 8, .byte 9] = [⟨2, [7, 8]⟩, ⟨1, [9]⟩] :=
  readn_writen [[7, 8], [9]] [.upTo 1, .intr, .upTo 5] [.byte 7, .intr, .gap, .byte 8, .byte 9]
    (by decide) (by decide) rfl

end Tlpi.Rdwrn
