import Tlpi.Lib.Strtol

/-!
# Semaphore operations on the command line

`parseOps` of `tlpi-dist/svsem/svsem_op.c`: operations such as `0+1,1-2un,2=0n`, as a list of
`struct sembuf`. A string is the list of its bytes before the NUL. What is accepted is a list of
items of the documented form, of which there are at most 1000 (`parseOps_eq_ok_iff`); the numbers
go through a `short`, so `0=65536` is one of them. Whatever `semop` can be asked for can be written
so (`parseOps_text`).
-/

namespace Tlpi.SemOps

open Tlpi.Lib

abbrev Bytes := List UInt8

def MAX_SEMOPS : Nat := 1000
def IPC_NOWAIT : Nat := 0o4000
def SEM_UNDO : Nat := 0x1000

/-- `struct sembuf` -/
structure Sembuf where
  sem_num : Nat
  sem_op : Int
  sem_flg : Nat
  deriving DecidableEq

inductive OpsError where
  | tooMany
  | empty
  | initialDigit
  | sign
  | digitAfter (c : UInt8)
  | expectedZero
  | badTrailing (c : UInt8)
  deriving DecidableEq

/-- The message, without the prefix that `fatal` or `cmdLineErr` gives it. -/
def OpsError.text (arg : Bytes) : OpsError → Bytes
  | .tooMany => bytesOf "Too many operations (maximum=1000): \"" ++ arg ++ bytesOf "\"\n"
  | .empty => bytesOf "Trailing comma or empty argument: \"" ++ arg ++ bytesOf "\""
  | .initialDigit => bytesOf "Expected initial digit: \"" ++ arg ++ bytesOf "\"\n"
  | .sign => bytesOf "Expected '+', '-', or '=' in \"" ++ arg ++ bytesOf "\"\n"
  | .digitAfter c =>
    bytesOf "Expected digit after '" ++ c :: bytesOf "' in \"" ++ arg ++ bytesOf "\"\n"
  | .expectedZero => bytesOf "Expected \"=0\" in \"" ++ arg ++ bytesOf "\"\n"
  | .badTrailing c =>
    bytesOf "Bad trailing character (" ++ c :: bytesOf ") in \"" ++ arg ++ bytesOf "\"\n"

/-- Conversions to `unsigned short` and `short`. -/
def toUInt16 (n : Int) : Nat := (n % 2 ^ 16).toNat
def toInt16 (n : Int) : Int := Int.bmod n (2 ^ 16)

def startsDigit : Bytes → Bool
  | [] => false
  | b :: _ => isdigit b

def parseFlags (flg : Nat) : Bytes → Nat × Bytes
  | 110 :: t => parseFlags (flg ||| IPC_NOWAIT) t
  | 117 :: t => parseFlags (flg ||| SEM_UNDO) t
  | t => (flg, t)

/-- The body of the loop of `parseOps`: an operation, and where its flags end. -/
def parseOp (remaining : Bytes) : Except OpsError (Sembuf × Bytes) :=
  if remaining = [] then .error .empty
  else if startsDigit remaining = false then .error .initialDigit
  else
    let num := strtol remaining 10
    match num.endptr with
    | [] => .error .sign
    | sign :: t =>
      if sign ≠ 43 ∧ sign ≠ 45 ∧ sign ≠ 61 then .error .sign
      else if startsDigit t = false then .error (.digitAfter sign)
      else
        let val := strtol t 10
        let sem_op := toInt16 val.val
        if sign = 61 ∧ sem_op ≠ 0 then .error .expectedZero
        else
          let sem_op := if sign = 45 then toInt16 (-sem_op) else sem_op
          let (sem_flg, flags) := parseFlags 0 val.endptr
          match flags with
          | [] | 44 :: _ => .ok (⟨toUInt16 num.val, sem_op, sem_flg⟩, flags)
          | c :: _ => .error (.badTrailing c)

/-- What follows the first comma. -/
def afterComma : Bytes → Option Bytes
  | [] => none
  | b :: s => if b = 44 then some s else afterComma s

theorem length_afterComma {s r : Bytes} (h : afterComma s = some r) : r.length < s.length := by
  induction s with
  | nil => cases h
  | cons b s ih =>
    rw [afterComma] at h
    split at h
    · cases h
      exact Nat.lt_succ_self _
    · exact Nat.lt_succ_of_lt (ih h)

/-- The loop of `parseOps`. -/
def parseOpsFrom (numOps : Nat) (remaining : Bytes) : Except OpsError (List Sembuf) :=
  if MAX_SEMOPS ≤ numOps then .error .tooMany
  else
    match parseOp remaining with
    | .error e => .error e
    | .ok (sop, _) =>
      match _h : afterComma remaining with
      | none => .ok [sop]
      | some remaining' =>
        match parseOpsFrom (numOps + 1) remaining' with
        | .error e => .error e
        | .ok sops => .ok (sop :: sops)
termination_by remaining.length
decreasing_by exact length_afterComma _h

def parseOps (arg : Bytes) : Except OpsError (List Sembuf) := parseOpsFrom 0 arg

/-! ## Items -/

inductive Sign where
  | plus
  | minus
  | eq
  deriving DecidableEq

def Sign.char : Sign → UInt8
  | .plus => 43
  | .minus => 45
  | .eq => 61

inductive Flag where
  | n
  | u
  deriving DecidableEq

def Flag.char : Flag → UInt8
  | .n => 110
  | .u => 117

def Flag.bit : Flag → Nat
  | .n => IPC_NOWAIT
  | .u => SEM_UNDO

/-- `<sem#>{+|-|=}<value>` and flags, as they are written. -/
structure Item where
  num : Bytes
  sign : Sign
  value : Bytes
  flags : List Flag

def Digits (s : Bytes) : Prop := s ≠ [] ∧ ∀ b ∈ s, isdigit b = true

/-- The value that a `short` takes from digits. -/
def shortValue (s : Bytes) : Int := toInt16 (clampLong (decimalValue s))

/-- The items that are accepted. -/
structure Item.Ok (i : Item) : Prop where
  num : Digits i.num
  value : Digits i.value
  eq : i.sign = .eq → shortValue i.value = 0

def Item.text (i : Item) : Bytes := i.num ++ i.sign.char :: (i.value ++ i.flags.map Flag.char)

def Item.sembuf (i : Item) : Sembuf where
  sem_num := toUInt16 (clampLong (decimalValue i.num))
  sem_op := if i.sign = .minus then toInt16 (-shortValue i.value) else shortValue i.value
  sem_flg := i.flags.foldl (fun flg f => flg ||| f.bit) 0

/-- Items with commas between them. -/
def textOf : List Item → Bytes
  | [] => []
  | [i] => i.text
  | i :: is => i.text ++ 44 :: textOf is

/-! ## One item -/

theorem startsDigit_append {s : Bytes} (h : Digits s) (t : Bytes) :
    startsDigit (s ++ t) = true := by
  obtain ⟨b, s, rfl⟩ := List.exists_cons_of_ne_nil h.1
  exact h.2 b List.mem_cons_self

theorem digits_takeWhile {s : Bytes} (h : startsDigit s = true) : Digits (s.takeWhile isdigit) := by
  cases s with
  | nil => cases h
  | cons b s =>
    have hb : isdigit b = true := h
    exact ⟨by simp [hb], fun _ hb => List.mem_takeWhile_imp hb⟩

theorem noDigit_dropWhile (s : Bytes) : NoDigit (s.dropWhile isdigit) := by
  induction s with
  | nil => simp [NoDigit]
  | cons b s ih =>
    by_cases hb : isdigit b = true
    · rwa [List.dropWhile_cons_of_pos hb]
    · rw [List.dropWhile_cons_of_neg hb]
      simpa [NoDigit] using hb

theorem strtol_takeWhile {s : Bytes} (h : startsDigit s = true) :
    (strtol s 10).val = clampLong (decimalValue (s.takeWhile isdigit)) ∧
      (strtol s 10).endptr = s.dropWhile isdigit := by
  have hd := digits_takeWhile h
  have := strtol_digits hd.1 hd.2 (noDigit_dropWhile s)
  rwa [List.takeWhile_append_dropWhile] at this

/-- The end of an item: that of the string, or a comma. -/
def AtEnd (rest : Bytes) : Prop := rest = [] ∨ ∃ r, rest = 44 :: r

theorem parseFlags_map (flags : List Flag) (flg : Nat) {rest : Bytes} (h : AtEnd rest) :
    parseFlags flg (flags.map Flag.char ++ rest) =
      (flags.foldl (fun flg f => flg ||| f.bit) flg, rest) := by
  induction flags generalizing flg with
  | nil => obtain rfl | ⟨r, rfl⟩ := h <;> rfl
  | cons f flags ih => cases f <;> exact ih _

theorem exists_flags (s : Bytes) (flg : Nat) :
    ∃ flags : List Flag, s = flags.map Flag.char ++ (parseFlags flg s).2 ∧
      (parseFlags flg s).1 = flags.foldl (fun flg f => flg ||| f.bit) flg := by
  fun_induction parseFlags flg s with
  | case1 flg t ih =>
    obtain ⟨flags, h1, h2⟩ := ih
    exact ⟨.n :: flags, congrArg (List.cons 110) h1, h2⟩
  | case2 flg t ih =>
    obtain ⟨flags, h1, h2⟩ := ih
    exact ⟨.u :: flags, congrArg (List.cons 117) h1, h2⟩
  | case3 => exact ⟨[], rfl, rfl⟩

theorem noDigit_flags (flags : List Flag) {rest : Bytes} (h : AtEnd rest) :
    NoDigit (flags.map Flag.char ++ rest) := by
  intro b hb
  cases flags with
  | nil =>
    obtain rfl | ⟨r, rfl⟩ := h
    · cases hb
    · cases hb
      rfl
  | cons f flags =>
    cases f <;> cases hb <;> rfl

theorem parseOp_text {i : Item} (h : i.Ok) {rest : Bytes} (hrest : AtEnd rest) :
    parseOp (i.text ++ rest) = .ok (i.sembuf, rest) := by
  have htext : i.text ++ rest =
      i.num ++ i.sign.char :: (i.value ++ (i.flags.map Flag.char ++ rest)) := by
    simp [Item.text]
  have hsign : NoDigit (i.sign.char :: (i.value ++ (i.flags.map Flag.char ++ rest))) := by
    intro b hb
    cases hb
    cases i.sign <;> rfl
  obtain ⟨hn1, hn2⟩ := strtol_digits h.num.1 h.num.2 hsign
  obtain ⟨hv1, hv2⟩ := strtol_digits h.value.1 h.value.2 (noDigit_flags i.flags hrest)
  have hchar : ¬ (i.sign.char ≠ 43 ∧ i.sign.char ≠ 45 ∧ i.sign.char ≠ 61) := by
    cases i.sign <;> decide
  have heq : ¬ (i.sign.char = 61 ∧ toInt16 (clampLong (decimalValue i.value)) ≠ 0) := by
    rintro ⟨hc, hne⟩
    refine hne (h.eq ?_)
    revert hc
    cases i.sign <;> decide
  have hminus : i.sign.char = 45 ↔ i.sign = .minus := by cases i.sign <;> decide
  rw [htext, parseOp, if_neg (by simp [h.num.1]), if_neg (by simp [startsDigit_append h.num])]
  simp only [hn1, hn2, hv1, hv2]
  rw [if_neg hchar, if_neg (by simp [startsDigit_append h.value]), if_neg heq,
    parseFlags_map i.flags 0 hrest]
  simp only [hminus, Item.sembuf, shortValue]
  obtain rfl | ⟨r, rfl⟩ := hrest <;> rfl

theorem flags_end {v w : Sembuf} {flags rest : Bytes}
    (h : (match flags with
      | [] | 44 :: _ => .ok (v, flags)
      | c :: _ => .error (.badTrailing c) : Except OpsError (Sembuf × Bytes)) = .ok (w, rest)) :
    w = v ∧ rest = flags ∧ AtEnd flags := by
  split at h <;> cases h
  · exact ⟨rfl, rfl, .inl rfl⟩
  · exact ⟨rfl, rfl, .inr ⟨_, rfl⟩⟩

theorem parseOp_ok {s : Bytes} {sop : Sembuf} {rest : Bytes} (h : parseOp s = .ok (sop, rest)) :
    ∃ i : Item, i.Ok ∧ s = i.text ++ rest ∧ sop = i.sembuf ∧ AtEnd rest := by
  rw [parseOp] at h
  obtain ⟨-, h⟩ := ite_error_eq_ok.mp h
  obtain ⟨hs, h⟩ := ite_error_eq_ok.mp h
  have hs : startsDigit s = true := by simpa using hs
  obtain ⟨hn1, hn2⟩ := strtol_takeWhile hs
  simp only [hn1, hn2] at h
  cases ht : s.dropWhile isdigit with
  | nil => simp [ht] at h
  | cons c t =>
    simp only [ht] at h
    obtain ⟨hc, h⟩ := ite_error_eq_ok.mp h
    obtain ⟨ht', h⟩ := ite_error_eq_ok.mp h
    have ht' : startsDigit t = true := by simpa using ht'
    obtain ⟨hv1, hv2⟩ := strtol_takeWhile ht'
    simp only [hv1, hv2] at h
    obtain ⟨hz, h⟩ := ite_error_eq_ok.mp h
    obtain ⟨flags, hf1, hf2⟩ := exists_flags (t.dropWhile isdigit) 0
    obtain ⟨sign, rfl⟩ : ∃ sign : Sign, c = sign.char := by
      by_contra hne
      simp only [not_exists] at hne
      exact hc ⟨hne .plus, hne .minus, hne .eq⟩
    generalize parseFlags 0 (t.dropWhile isdigit) = p at h hf1 hf2
    obtain ⟨flg, rest'⟩ := p
    obtain ⟨rfl, rfl, hend⟩ := flags_end h
    refine ⟨⟨s.takeWhile isdigit, sign, t.takeWhile isdigit, flags⟩, ⟨digits_takeWhile hs,
      digits_takeWhile ht', fun he => ?_⟩, ?_, ?_, hend⟩
    · subst he
      simpa [Sign.char, shortValue] using hz
    · calc s = s.takeWhile isdigit ++ s.dropWhile isdigit := List.takeWhile_append_dropWhile.symm
        _ = s.takeWhile isdigit ++ sign.char :: (t.takeWhile isdigit ++ t.dropWhile isdigit) := by
          rw [ht, List.takeWhile_append_dropWhile]
        _ = _ := by
          rw [hf1]
          simp [Item.text]
    · have hminus : sign.char = 45 ↔ sign = .minus := by cases sign <;> decide
      simp only [Item.sembuf, shortValue, hminus] at hf2 ⊢
      rw [hf2]

/-! ## All of them -/

theorem textOf_cons (i j : Item) (is : List Item) :
    textOf (i :: j :: is) = i.text ++ 44 :: textOf (j :: is) := rfl

theorem afterComma_append {s : Bytes} (h : 44 ∉ s) (t : Bytes) :
    afterComma (s ++ t) = afterComma t := by
  induction s with
  | nil => rfl
  | cons b s ih =>
    rw [List.mem_cons, not_or] at h
    rw [List.cons_append, afterComma, if_neg (Ne.symm h.1), ih h.2]

theorem Item.Ok.no_comma {i : Item} (h : i.Ok) : 44 ∉ i.text := by
  have hdigit : ∀ s : Bytes, Digits s → 44 ∉ s := fun s hs hm => by
    have := hs.2 44 hm
    revert this
    decide
  simp only [Item.text, List.mem_append, List.mem_cons, List.mem_map, not_or, not_exists, not_and]
  refine ⟨hdigit _ h.num, ?_, hdigit _ h.value, fun f _ => ?_⟩
  · cases i.sign <;> decide
  · cases f <;> decide

theorem parseOpsFrom_none {numOps : Nat} {s rest : Bytes} {sop : Sembuf} (hn : numOps < MAX_SEMOPS)
    (hop : parseOp s = .ok (sop, rest)) (hc : afterComma s = none) :
    parseOpsFrom numOps s = .ok [sop] := by
  rw [parseOpsFrom, if_neg (Nat.not_le.mpr hn), hop]
  dsimp only
  split
  · rfl
  · next h => cases hc.symm.trans h

theorem parseOpsFrom_some {numOps : Nat} {s rest r : Bytes} {sop : Sembuf}
    (hn : numOps < MAX_SEMOPS) (hop : parseOp s = .ok (sop, rest)) (hc : afterComma s = some r) :
    parseOpsFrom numOps s = (parseOpsFrom (numOps + 1) r).map (sop :: ·) := by
  rw [parseOpsFrom, if_neg (Nat.not_le.mpr hn), hop]
  dsimp only
  split
  · next h => cases hc.symm.trans h
  · next h =>
    cases hc.symm.trans h
    split <;> next h => rw [h]; rfl

theorem parseOpsFrom_error {numOps : Nat} {s : Bytes} {e : OpsError} (hop : parseOp s = .error e) :
    ∃ e, parseOpsFrom numOps s = .error e := by
  rw [parseOpsFrom]
  split
  · exact ⟨_, rfl⟩
  · rw [hop]
    exact ⟨e, rfl⟩

theorem parseOpsFrom_textOf {is : List Item} (hok : ∀ i ∈ is, i.Ok) (hne : is ≠ []) {numOps : Nat}
    (hn : numOps + is.length ≤ MAX_SEMOPS) :
    parseOpsFrom numOps (textOf is) = .ok (is.map Item.sembuf) := by
  induction is generalizing numOps with
  | nil => exact absurd rfl hne
  | cons i is ih =>
    obtain ⟨hi, hok⟩ := List.forall_mem_cons.mp hok
    rw [List.length_cons] at hn
    cases is with
    | nil =>
      have hop := parseOp_text hi (.inl rfl)
      have hc := afterComma_append hi.no_comma []
      rw [List.append_nil] at hop hc
      exact parseOpsFrom_none (by omega) hop hc
    | cons j is =>
      have hop : parseOp (i.text ++ 44 :: textOf (j :: is)) =
          .ok (i.sembuf, 44 :: textOf (j :: is)) :=
        parseOp_text hi (.inr ⟨_, rfl⟩)
      have hc := afterComma_append hi.no_comma (44 :: textOf (j :: is))
      rw [textOf_cons, parseOpsFrom_some (by omega) hop (hc.trans (if_pos rfl)),
        ih hok (List.cons_ne_nil j is) (by omega)]
      rfl

/-- By induction on what remains: an item is read off its front, up to the comma that the loop
goes on from. -/
theorem of_parseOpsFrom {numOps : Nat} {s : Bytes} {sops : List Sembuf}
    (h : parseOpsFrom numOps s = .ok sops) :
    ∃ is : List Item, is ≠ [] ∧ numOps + is.length ≤ MAX_SEMOPS ∧ (∀ i ∈ is, i.Ok) ∧
      s = textOf is ∧ sops = is.map Item.sembuf := by
  generalize hs : s.length = len
  induction len using Nat.strongRecOn generalizing numOps s sops with
  | _ len ih =>
    have hn : numOps < MAX_SEMOPS := by
      by_contra hn
      rw [parseOpsFrom, if_pos (Nat.not_lt.mp hn)] at h
      cases h
    cases hop : parseOp s with
    | error e =>
      obtain ⟨e, he⟩ := parseOpsFrom_error hop
      cases he.symm.trans h
    | ok p =>
      obtain ⟨sop, rest⟩ := p
      obtain ⟨i, hi, hsi, rfl, rfl | ⟨r, rfl⟩⟩ := parseOp_ok hop
      · rw [List.append_nil] at hsi
        have hc : afterComma s = none := by
          simpa [hsi, afterComma] using afterComma_append hi.no_comma []
        cases (parseOpsFrom_none hn hop hc).symm.trans h
        exact ⟨[i], List.cons_ne_nil _ _, hn, by simpa using hi, hsi, rfl⟩
      · have hc : afterComma s = some r := by
          rw [hsi, afterComma_append hi.no_comma]
          exact if_pos rfl
        rw [parseOpsFrom_some hn hop hc] at h
        cases hr : parseOpsFrom (numOps + 1) r with
        | error e => simp [hr, Except.map] at h
        | ok sops' =>
          obtain ⟨is, hne, hlen, hok, rfl, rfl⟩ :=
            ih r.length (hs ▸ length_afterComma hc) hr rfl
          rw [hr] at h
          cases h
          refine ⟨i :: is, List.cons_ne_nil _ _, ?_, ?_, ?_, rfl⟩
          · rw [List.length_cons]
            omega
          · exact List.forall_mem_cons.mpr ⟨hi, hok⟩
          · obtain ⟨j, is, rfl⟩ := List.exists_cons_of_ne_nil hne
            exact hsi

/-- An argument is accepted when it is a list of items, of which there are not too many. -/
theorem parseOps_eq_ok_iff (arg : Bytes) (sops : List Sembuf) :
    parseOps arg = .ok sops ↔
      ∃ is : List Item, is ≠ [] ∧ is.length ≤ MAX_SEMOPS ∧ (∀ i ∈ is, i.Ok) ∧
        arg = textOf is ∧ sops = is.map Item.sembuf := by
  refine ⟨fun h => ?_, ?_⟩
  · obtain ⟨is, hne, hlen, h⟩ := of_parseOpsFrom h
    exact ⟨is, hne, by omega, h⟩
  · rintro ⟨is, hne, hlen, hok, rfl, rfl⟩
    exact parseOpsFrom_textOf hok hne (by omega)

/-! ## Whatever `semop` can be asked for -/

/-- A `struct sembuf` with no other flags than the two that can be written. -/
structure Sembuf.Ok (sop : Sembuf) : Prop where
  num : sop.sem_num < 2 ^ 16
  op : -2 ^ 15 ≤ sop.sem_op ∧ sop.sem_op < 2 ^ 15
  flg : sop.sem_flg ∈ [0, IPC_NOWAIT, SEM_UNDO, IPC_NOWAIT ||| SEM_UNDO]

def flagsOf (flg : Nat) : List Flag :=
  (if flg &&& IPC_NOWAIT = 0 then [] else [.n]) ++ if flg &&& SEM_UNDO = 0 then [] else [.u]

def Sembuf.item (sop : Sembuf) : Item where
  num := decimal sop.sem_num
  sign := if sop.sem_op = 0 then .eq else if 0 < sop.sem_op then .plus else .minus
  value := decimal sop.sem_op.natAbs
  flags := flagsOf sop.sem_flg

theorem digits_decimal (n : Nat) : Digits (decimal n) :=
  ⟨decimal_ne_nil n, fun b hb => by
    have := mem_decimal hb
    simpa [isdigit, UInt8.le_iff_toNat_le] using this⟩

theorem clampLong_of_lt {n : Nat} (h : n ≤ 2 ^ 16) : clampLong n = n := by
  simp only [clampLong, LONG_MIN, LONG_MAX]
  omega

theorem shortValue_decimal {n : Nat} (h : n ≤ 2 ^ 16) : shortValue (decimal n) = toInt16 n := by
  rw [shortValue, decimalValue_decimal, clampLong_of_lt h]

theorem foldl_flagsOf {flg : Nat} (h : flg ∈ [0, IPC_NOWAIT, SEM_UNDO, IPC_NOWAIT ||| SEM_UNDO]) :
    (flagsOf flg).foldl (fun flg f => flg ||| f.bit) 0 = flg := by
  revert flg
  decide

theorem Sembuf.item_ok (sop : Sembuf) : sop.item.Ok where
  num := digits_decimal _
  value := digits_decimal _
  eq he := by
    have h0 : sop.sem_op = 0 := by
      by_contra hne
      simp only [Sembuf.item, if_neg hne] at he
      split at he <;> cases he
    simp only [Sembuf.item, h0]
    decide

theorem toInt16_neg {n : Int} (h1 : -2 ^ 15 ≤ n) (h2 : n < 2 ^ 15) :
    toInt16 (-toInt16 (-n)) = n := by
  simp only [toInt16, Int.bmod_def]
  split_ifs <;> omega

/-- The least `short` is written with a minus like the others, and reversed to itself. -/
theorem Sembuf.Ok.sembuf_item {sop : Sembuf} (h : sop.Ok) : sop.item.sembuf = sop := by
  obtain ⟨num, op, flg⟩ := sop
  obtain ⟨hnum, hop, hflg⟩ := h
  simp only at hnum hop hflg
  have hop' : op.natAbs ≤ 2 ^ 16 := by omega
  simp only [Item.sembuf, Sembuf.item, foldl_flagsOf hflg, shortValue_decimal hop',
    decimalValue_decimal, clampLong_of_lt hnum.le, Sembuf.mk.injEq, and_true]
  refine ⟨?_, ?_⟩
  · rw [toUInt16]
    omega
  · obtain hneg | rfl | hpos := lt_trichotomy op 0
    · have habs : (op.natAbs : Int) = -op := by omega
      rw [if_neg hneg.ne, if_neg hneg.not_gt, if_pos rfl, habs, toInt16_neg (by omega) hop.2]
    · rfl
    · have habs : (op.natAbs : Int) = op := by omega
      rw [if_neg hpos.ne', if_pos hpos, if_neg (by decide), habs, toInt16, Int.bmod_def]
      omega

/-- Whatever `semop` can be asked for in one call can be written as an argument, and is read back
from it. -/
theorem parseOps_text (sops : List Sembuf) (hne : sops ≠ []) (hlen : sops.length ≤ MAX_SEMOPS)
    (hok : ∀ sop ∈ sops, sop.Ok) :
    parseOps (textOf (sops.map Sembuf.item)) = .ok sops := by
  have hitems : ∀ i ∈ sops.map Sembuf.item, i.Ok :=
    List.forall_mem_map.mpr fun sop _ => sop.item_ok
  rw [parseOps, parseOpsFrom_textOf hitems (by simpa using hne) (by simpa using hlen), List.map_map]
  refine congrArg Except.ok ((List.map_congr_left fun sop hsop => ?_).trans (List.map_id sops))
  exact (hok sop hsop).sembuf_item

theorem parseOps_text_two :
    parseOps (textOf ([⟨0, 1, 0⟩, ⟨1, -2, IPC_NOWAIT ||| SEM_UNDO⟩].map Sembuf.item)) =
      .ok [⟨0, 1, 0⟩, ⟨1, -2, IPC_NOWAIT ||| SEM_UNDO⟩] :=
  parseOps_text _ (by decide) (by decide) <| by
    rintro sop (_ | ⟨_, _ | ⟨_, _ | _⟩⟩) <;> exact ⟨by decide, by decide, by decide⟩

end Tlpi.SemOps
