import Tlpi.Attr.AclUpdate

/-!
# Entries of access control lists in text

`parseACL` and `parseEntrySpec` of `tlpi-dist/acl/acl_update.c`, with the functions of
`tlpi-dist/lib/ugid_functions.c` that they use for names. What is accepted is a list of entries
`tag:[qualifier][:[perms]]` with commas between them (`parseACL_eq_ok_iff`): the letters of the
permissions may be in any order and repeated, and a qualifier of `other` or `mask` is not looked at.
Whatever an ACL can hold can be written so (`parseACL_text`).
-/

namespace Tlpi.AclUpdate

open Tlpi.Lib

def MAX_ENTRIES : Nat := 10000

def colon : UInt8 := 58
def comma : UInt8 := 44

/-- -1 as an id. -/
def noId : Nat := 2 ^ 32 - 1

inductive ParseError where
  | missingColon
  | permsGiven
  | permsMissing
  | badTag (tag : Bytes)
  | badUser (user : Bytes)
  | badGroup (group : Bytes)
  | badChar (c : UInt8)
  | tooMany
  deriving DecidableEq

/-- The message for an entry. -/
def ParseError.text (entryStr : Bytes) : ParseError → Bytes
  | .missingColon => bytesOf "Missing initial colon in ACL entry: " ++ entryStr ++ [newline]
  | .permsGiven => bytesOf "Cannot specify permissions here\n"
  | .permsMissing => bytesOf "Must specify permissions\n"
  | .badTag tag => bytesOf "Bad tag: " ++ tag ++ [newline]
  | .badUser user => bytesOf "Bad user ID: " ++ user ++ [newline]
  | .badGroup group => bytesOf "Bad group ID: " ++ group ++ [newline]
  | .badChar c => bytesOf "Bad character in permissions string: " ++ [c, newline]
  | .tooMany => bytesOf "Too many entries in ACL\n"

/-- The user and group databases: ids by name. -/
structure Names where
  getpwnam : Bytes → Option Nat
  getgrnam : Bytes → Option Nat

/-- A number, or a name in a database. -/
def idFromName (database : Bytes → Option Nat) (name : Bytes) : Nat :=
  if name = [] then noId
  else
    let u := strtol name 10
    if u.endptr = [] then (u.val % 2 ^ 32).toNat else (database name).getD noId

def userIdFromName (names : Names) : Bytes → Nat := idFromName names.getpwnam
def groupIdFromName (names : Names) : Bytes → Nat := idFromName names.getgrnam

/-- The parts of a string before and after the first `c`. -/
def cut (c : UInt8) : Bytes → Option (Bytes × Bytes)
  | [] => none
  | b :: s => if b = c then some ([], s) else (cut c s).map fun (x, y) => (b :: x, y)

/-- The tag for a tag string. -/
def tagOf (hasQual : Bool) (tagStr : Bytes) : Option Tag :=
  if tagStr = bytesOf "u" ∨ tagStr = bytesOf "user" then some (if hasQual then .user else .userObj)
  else if tagStr = bytesOf "g" ∨ tagStr = bytesOf "group" then
    some (if hasQual then .group else .groupObj)
  else if tagStr = bytesOf "o" ∨ tagStr = bytesOf "other" then some .other
  else if tagStr = bytesOf "m" ∨ tagStr = bytesOf "mask" then some .mask
  else none

/-- The loop over the permissions. -/
def parsePerms (perms : Nat) : Bytes → Except ParseError Nat
  | [] => .ok perms
  | 114 :: p => parsePerms (perms ||| ACL_READ) p
  | 119 :: p => parsePerms (perms ||| ACL_WRITE) p
  | 120 :: p => parsePerms (perms ||| ACL_EXECUTE) p
  | 45 :: p => parsePerms perms p
  | c :: _ => .error (.badChar c)

/-- The qualifier for a tag. -/
def qualOf (names : Names) (tag : Tag) (qualStr : Bytes) : Nat :=
  match tag with
  | .user => userIdFromName names qualStr
  | .group => groupIdFromName names qualStr
  | _ => 0

/-- Without permissions `perms` is left unassigned, and nothing reads it; here it is 0. -/
def parseEntrySpec (names : Names) (entryStr : Bytes) (permsReqd : Bool) :
    Except ParseError AccessControlEntry :=
  match cut colon entryStr with
  | none => .error .missingColon
  | some (tagStr, rest) =>
    let hasQual := rest ≠ [] ∧ rest.head? ≠ some colon
    let (qualStr, permStr) :=
      match cut colon rest with
      | none => (rest, [])
      | some (qualStr, permStr) => (qualStr, permStr)
    let hasPerms := permStr ≠ []
    if hasPerms ∧ permsReqd = false then .error .permsGiven
    else if ¬ hasPerms ∧ permsReqd = true then .error .permsMissing
    else
      match tagOf hasQual tagStr with
      | none => .error (.badTag tagStr)
      | some tag =>
        let qual := qualOf names tag qualStr
        if tag = .user ∧ qual = noId then .error (.badUser qualStr)
        else if tag = .group ∧ qual = noId then .error (.badGroup qualStr)
        else
          match parsePerms 0 permStr with
          | .error e => .error e
          | .ok perms => .ok ⟨tag, qual, perms⟩

theorem cut_eq_none {c : UInt8} {s : Bytes} : cut c s = none ↔ c ∉ s := by
  induction s with
  | nil => simp [cut]
  | cons b s ih =>
    rw [cut, List.mem_cons, not_or]
    split
    · next h => simp [h]
    · next h => simp [ih, Ne.symm h]

theorem cut_eq_some {c : UInt8} {s x y : Bytes} :
    cut c s = some (x, y) ↔ s = x ++ c :: y ∧ c ∉ x := by
  induction s generalizing x y with
  | nil => simp [cut]
  | cons b s ih =>
    rw [cut]
    split
    · next h =>
      subst h
      cases x with
      | nil => simp
      | cons a x =>
        simp only [Option.some.injEq, Prod.mk.injEq, List.cons_append, List.cons.injEq,
          List.mem_cons, not_or, reduceCtorEq, false_and, false_iff, not_and]
        exact fun h => absurd h.1
    · next h =>
      cases x with
      | nil => simp [h]
      | cons a x =>
        simp only [Option.map_eq_some_iff, Prod.exists, ih, List.cons_append, List.mem_cons, not_or,
          Prod.mk.injEq, List.cons.injEq]
        refine ⟨?_, ?_⟩
        · rintro ⟨x', y', ⟨rfl, hx⟩, ⟨rfl, rfl⟩, rfl⟩
          exact ⟨⟨rfl, rfl⟩, Ne.symm h, hx⟩
        · rintro ⟨⟨rfl, rfl⟩, -, hx⟩
          exact ⟨x, y, ⟨rfl, hx⟩, ⟨rfl, rfl⟩, rfl⟩

theorem length_cut {c : UInt8} {s x y : Bytes} (h : cut c s = some (x, y)) :
    y.length < s.length := by
  rw [(cut_eq_some.mp h).1, List.length_append, List.length_cons]
  omega

/-- The loop of `parseACL`. -/
def parseACLFrom (names : Names) (n : Nat) (nextEntry : Bytes) (permsReqd : Bool) :
    Except ParseError (List AccessControlEntry) :=
  if MAX_ENTRIES ≤ n then .error .tooMany
  else
    match _h : cut comma nextEntry with
    | none =>
      match parseEntrySpec names nextEntry permsReqd with
      | .error e => .error e
      | .ok ace => .ok [ace]
    | some (entry, nextEntry') =>
      match parseEntrySpec names entry permsReqd with
      | .error e => .error e
      | .ok ace =>
        match parseACLFrom names (n + 1) nextEntry' permsReqd with
        | .error e => .error e
        | .ok aclist => .ok (ace :: aclist)
termination_by nextEntry.length
decreasing_by exact length_cut _h

def parseACL (names : Names) (aclStr : Bytes) (permsReqd : Bool) :
    Except ParseError (List AccessControlEntry) := parseACLFrom names 0 aclStr permsReqd

/-! ## One entry -/

/-- `tag:[qualifier][:[perms]]`, as it is written. -/
structure Spec where
  tagStr : Bytes
  qualStr : Bytes
  permStr : Option Bytes

def Spec.text (spec : Spec) : Bytes :=
  spec.tagStr ++ colon :: (spec.qualStr ++ spec.permStr.elim [] (colon :: ·))

def permChar (c : UInt8) : Bool := c = 114 || c = 119 || c = 120 || c = 45

/-- The bits of the letters in a string. -/
def permBits (p : Bytes) : Nat :=
  (if 114 ∈ p then ACL_READ else 0) ||| (if 119 ∈ p then ACL_WRITE else 0) |||
    if 120 ∈ p then ACL_EXECUTE else 0

/-- The entries that are accepted, with what they stand for. -/
structure Spec.Denotes (names : Names) (permsReqd : Bool) (spec : Spec) (ace : AccessControlEntry) :
    Prop where
  tag : tagOf (spec.qualStr ≠ []) spec.tagStr = some ace.tag
  noColon : colon ∉ spec.qualStr
  qual : ace.qual = qualOf names ace.tag spec.qualStr
  known : ace.tag = .user ∨ ace.tag = .group → ace.qual ≠ noId
  given : permsReqd = true ↔ spec.permStr.getD [] ≠ []
  chars : ∀ c ∈ spec.permStr.getD [], permChar c = true
  perms : ace.perms = permBits (spec.permStr.getD [])

theorem tagOf_noColon {b : Bool} {t : Bytes} {tag : Tag} (h : tagOf b t = some tag) :
    colon ∉ t := by
  unfold tagOf at h
  split at h
  · rename_i ht
    obtain rfl | rfl := ht <;> decide
  split at h
  · rename_i ht
    obtain rfl | rfl := ht <;> decide
  split at h
  · rename_i ht
    obtain rfl | rfl := ht <;> decide
  split at h
  · rename_i ht
    obtain rfl | rfl := ht <;> decide
  · cases h

theorem permBits_cons (c : UInt8) (p : Bytes) :
    permBits (c :: p) = permBits [c] ||| permBits p := by
  have hor : ∀ (x : UInt8) (b : Nat), (if x ∈ c :: p then b else 0) =
      (if x ∈ [c] then b else 0) ||| if x ∈ p then b else 0 := fun x b => by
    simp only [List.mem_cons, List.not_mem_nil, or_false]
    split_ifs <;> simp_all
  simp only [permBits, hor]
  ac_rfl

theorem parsePerms_eq_ok {p : Bytes} (h : ∀ c ∈ p, permChar c = true) (n : Nat) :
    parsePerms n p = .ok (n ||| permBits p) := by
  fun_induction parsePerms n p with
  | case1 n => simp [permBits]
  | case2 n p ih | case3 n p ih | case4 n p ih =>
    rw [ih (List.forall_mem_cons.mp h).2, permBits_cons _ p, ← Nat.or_assoc]
    rfl
  | case5 n p ih =>
    rw [ih (List.forall_mem_cons.mp h).2, permBits_cons _ p, show permBits [45] = 0 from rfl,
      Nat.zero_or]
  | case6 n c p h1 h2 h3 h4 =>
    have hc := (List.forall_mem_cons.mp h).1
    simp only [permChar, Bool.or_eq_true, decide_eq_true_eq] at hc
    obtain ((rfl | rfl) | rfl) | rfl := hc
    · exact absurd rfl h1
    · exact absurd rfl h2
    · exact absurd rfl h3
    · exact absurd rfl h4

theorem of_parsePerms {p : Bytes} {n m : Nat} (h : parsePerms n p = .ok m) :
    ∀ c ∈ p, permChar c = true := by
  fun_induction parsePerms n p with
  | case1 => exact List.forall_mem_nil _
  | case2 n p ih | case3 n p ih | case4 n p ih | case5 n p ih =>
    exact List.forall_mem_cons.mpr ⟨rfl, ih h⟩
  | case6 => cases h

/-- `parseEntrySpec`, once the string is taken apart. -/
def parseSpec (names : Names) (spec : Spec) (permsReqd : Bool) :
    Except ParseError AccessControlEntry :=
  let permStr := spec.permStr.getD []
  if permStr ≠ [] ∧ permsReqd = false then .error .permsGiven
  else if ¬ permStr ≠ [] ∧ permsReqd = true then .error .permsMissing
  else
    match tagOf (spec.qualStr ≠ []) spec.tagStr with
    | none => .error (.badTag spec.tagStr)
    | some tag =>
      let qual := qualOf names tag spec.qualStr
      if tag = .user ∧ qual = noId then .error (.badUser spec.qualStr)
      else if tag = .group ∧ qual = noId then .error (.badGroup spec.qualStr)
      else
        match parsePerms 0 permStr with
        | .error e => .error e
        | .ok perms => .ok ⟨tag, qual, perms⟩

theorem parseEntrySpec_text {spec : Spec} (ht : colon ∉ spec.tagStr) (hq : colon ∉ spec.qualStr)
    (names : Names) (permsReqd : Bool) :
    parseEntrySpec names spec.text permsReqd = parseSpec names spec permsReqd := by
  obtain ⟨tagStr, qualStr, permStr⟩ := spec
  have hcut : cut colon (Spec.text ⟨tagStr, qualStr, permStr⟩) =
      some (tagStr, qualStr ++ permStr.elim [] (colon :: ·)) := cut_eq_some.mpr ⟨rfl, ht⟩
  have hqual : (qualStr ++ permStr.elim [] (colon :: ·) ≠ [] ∧
      (qualStr ++ permStr.elim [] (colon :: ·)).head? ≠ some colon) ↔ qualStr ≠ [] := by
    cases qualStr with
    | nil => cases permStr <;> simp
    | cons b qualStr =>
      have : b ≠ colon := fun hb => hq (hb ▸ List.mem_cons_self)
      simp [this]
  have hcut' : (match cut colon (qualStr ++ permStr.elim [] (colon :: ·)) with
      | none => (qualStr ++ permStr.elim [] (colon :: ·), [])
      | some (qualStr, permStr) => (qualStr, permStr)) = (qualStr, permStr.getD []) := by
    cases permStr with
    | none =>
      rw [show qualStr ++ none.elim [] (colon :: ·) = qualStr from List.append_nil _,
        cut_eq_none.mpr hq]
      rfl
    | some p =>
      rw [show cut colon (qualStr ++ (some p).elim [] (colon :: ·)) = some (qualStr, p) from
        cut_eq_some.mpr ⟨rfl, hq⟩]
      rfl
  rw [parseEntrySpec, hcut]
  simp only [hqual, hcut', parseSpec]

theorem exists_spec {s : Bytes} (h : colon ∈ s) :
    ∃ spec : Spec, s = spec.text ∧ colon ∉ spec.tagStr ∧ colon ∉ spec.qualStr := by
  obtain ⟨⟨tagStr, rest⟩, hcut⟩ := Option.ne_none_iff_exists'.mp fun hn => cut_eq_none.mp hn h
  obtain ⟨rfl, ht⟩ := cut_eq_some.mp hcut
  cases hrest : cut colon rest with
  | none => exact ⟨⟨tagStr, rest, none⟩, by simp [Spec.text], ht, cut_eq_none.mp hrest⟩
  | some p =>
    obtain ⟨qualStr, permStr⟩ := p
    obtain ⟨rfl, hq⟩ := cut_eq_some.mp hrest
    exact ⟨⟨tagStr, qualStr, some permStr⟩, rfl, ht, hq⟩

theorem parseSpec_eq_ok_iff {names : Names} {spec : Spec} (hq : colon ∉ spec.qualStr)
    {permsReqd : Bool} {ace : AccessControlEntry} :
    parseSpec names spec permsReqd = .ok ace ↔ spec.Denotes names permsReqd ace := by
  rw [parseSpec, ite_error_eq_ok, ite_error_eq_ok]
  cases htag : tagOf (spec.qualStr ≠ []) spec.tagStr with
  | none =>
    refine iff_of_false (fun h => ?_) fun h => ?_
    · cases h.2.2
    · cases htag.symm.trans h.tag
  | some tag =>
    simp only [ite_error_eq_ok]
    refine ⟨fun ⟨h1, h2, h3, h4, h5⟩ => ?_, fun h => ?_⟩
    · cases hp : parsePerms 0 (spec.permStr.getD []) with
      | error e =>
        rw [hp] at h5
        cases h5
      | ok perms =>
        rw [hp] at h5
        cases h5
        have hchars := of_parsePerms hp
        rw [parsePerms_eq_ok hchars, Nat.zero_or] at hp
        cases hp
        refine ⟨htag, hq, rfl, ?_, ?_, hchars, rfl⟩
        · rintro (rfl | rfl) hid
          · exact h3 ⟨rfl, hid⟩
          · exact h4 ⟨rfl, hid⟩
        · cases permsReqd <;> simp_all
    · cases Option.some.inj (htag.symm.trans h.tag)
      have hid := h.known
      have hgiven := h.given
      have hqual := h.qual
      rw [parsePerms_eq_ok h.chars, Nat.zero_or]
      refine ⟨?_, ?_, ?_, ?_, ?_⟩
      · rintro ⟨hne, rfl⟩
        exact absurd (hgiven.mpr hne) (by decide)
      · rintro ⟨hne, rfl⟩
        exact hne (hgiven.mp rfl)
      · rintro ⟨ht, hno⟩
        exact hid (.inl ht) (hqual.trans hno)
      · rintro ⟨ht, hno⟩
        exact hid (.inr ht) (hqual.trans hno)
      · rw [← hqual, ← h.perms]

theorem parseEntrySpec_eq_ok_iff {names : Names} {s : Bytes} {permsReqd : Bool}
    {ace : AccessControlEntry} :
    parseEntrySpec names s permsReqd = .ok ace ↔
      ∃ spec : Spec, s = spec.text ∧ spec.Denotes names permsReqd ace := by
  refine ⟨fun h => ?_, ?_⟩
  · have hs : colon ∈ s := by
      by_contra hn
      rw [parseEntrySpec, cut_eq_none.mpr hn] at h
      cases h
    obtain ⟨spec, rfl, ht, hq⟩ := exists_spec hs
    rw [parseEntrySpec_text ht hq, parseSpec_eq_ok_iff hq] at h
    exact ⟨spec, rfl, h⟩
  · rintro ⟨spec, rfl, h⟩
    rw [parseEntrySpec_text (tagOf_noColon h.tag) h.noColon, parseSpec_eq_ok_iff h.noColon]
    exact h

/-! ## All of them -/

section List

variable {names : Names} {n : Nat} {permsReqd : Bool} {spec : Spec} {ace : AccessControlEntry}

theorem parseACLFrom_last (hn : n < MAX_ENTRIES) (hd : spec.Denotes names permsReqd ace)
    (hc : comma ∉ spec.text) : parseACLFrom names n spec.text permsReqd = .ok [ace] := by
  have hparse := parseEntrySpec_eq_ok_iff.mpr ⟨spec, rfl, hd⟩
  rw [parseACLFrom, if_neg (Nat.not_le.mpr hn)]
  split
  · rw [hparse]
  · next h => cases (cut_eq_none.mpr hc).symm.trans h

theorem parseACLFrom_cons (hn : n < MAX_ENTRIES) (hd : spec.Denotes names permsReqd ace)
    (hc : comma ∉ spec.text) (rest : Bytes) :
    parseACLFrom names n (spec.text ++ comma :: rest) permsReqd =
      (parseACLFrom names (n + 1) rest permsReqd).map (ace :: ·) := by
  have hparse := parseEntrySpec_eq_ok_iff.mpr ⟨spec, rfl, hd⟩
  have hcut : cut comma (spec.text ++ comma :: rest) = some (spec.text, rest) :=
    cut_eq_some.mpr ⟨rfl, hc⟩
  rw [parseACLFrom, if_neg (Nat.not_le.mpr hn)]
  split
  · next h => cases hcut.symm.trans h
  · next h =>
    cases hcut.symm.trans h
    rw [hparse]
    dsimp only
    split <;> next h => rw [h]; rfl

/-- Entries as they are written, and what they stand for. -/
abbrev Lists (names : Names) (permsReqd : Bool) : List Spec → List AccessControlEntry → Prop :=
  List.Forall₂ fun spec ace => spec.Denotes names permsReqd ace ∧ comma ∉ spec.text

def textOf (specs : List Spec) : Bytes := [comma].intercalate (specs.map Spec.text)

theorem textOf_cons (spec spec' : Spec) (specs : List Spec) :
    textOf (spec :: spec' :: specs) = spec.text ++ comma :: textOf (spec' :: specs) := by
  simp [textOf, List.intercalate_cons_cons]

theorem parseACLFrom_textOf {specs : List Spec} {aclist : List AccessControlEntry}
    (h : Lists names permsReqd specs aclist) (hne : specs ≠ [])
    (hn : n + specs.length ≤ MAX_ENTRIES) :
    parseACLFrom names n (textOf specs) permsReqd = .ok aclist := by
  induction h generalizing n with
  | nil => exact absurd rfl hne
  | @cons spec ace specs aclist hd hrest ih =>
    rw [List.length_cons] at hn
    cases specs with
    | nil =>
      cases hrest
      have htext : textOf [spec] = spec.text := by simp [textOf, List.intercalate]
      rw [htext, parseACLFrom_last (by omega) hd.1 hd.2]
    | cons spec' specs =>
      rw [textOf_cons, parseACLFrom_cons (by omega) hd.1 hd.2, ih (List.cons_ne_nil _ _) (by omega)]
      rfl

/-- By induction on what remains. -/
theorem of_parseACLFrom {s : Bytes} {aclist : List AccessControlEntry}
    (h : parseACLFrom names n s permsReqd = .ok aclist) :
    ∃ specs, specs ≠ [] ∧ n + specs.length ≤ MAX_ENTRIES ∧ Lists names permsReqd specs aclist ∧
      s = textOf specs := by
  fun_induction parseACLFrom names n s permsReqd generalizing aclist with
  | case1 => cases h
  | case2 n s hn hc e he => cases h
  | case3 n s hn hc ace hace =>
    cases h
    obtain ⟨spec, rfl, hd⟩ := parseEntrySpec_eq_ok_iff.mp hace
    refine ⟨[spec], List.cons_ne_nil _ _, ?_, .cons ⟨hd, cut_eq_none.mp hc⟩ .nil, ?_⟩
    · simpa using hn
    · simp [textOf, List.intercalate]
  | case4 => cases h
  | case5 => cases h
  | case6 n s hn entry rest hc ace hace aclist' hrest ih =>
    cases h
    obtain ⟨specs, hne, hlen, hlists, rfl⟩ := ih hrest
    obtain ⟨spec, rfl, hd⟩ := parseEntrySpec_eq_ok_iff.mp hace
    obtain ⟨hs, hcomma⟩ := cut_eq_some.mp hc
    refine ⟨spec :: specs, List.cons_ne_nil _ _, ?_, .cons ⟨hd, hcomma⟩ hlists, ?_⟩
    · rw [List.length_cons]
      omega
    · obtain ⟨spec', specs, rfl⟩ := List.exists_cons_of_ne_nil hne
      rw [hs, textOf_cons]

end List

/-- An ACL in text is accepted when it is a list of entries, of which there are not too many. -/
theorem parseACL_eq_ok_iff (names : Names) (aclStr : Bytes) (permsReqd : Bool)
    (aclist : List AccessControlEntry) :
    parseACL names aclStr permsReqd = .ok aclist ↔
      ∃ specs, specs ≠ [] ∧ specs.length ≤ MAX_ENTRIES ∧ Lists names permsReqd specs aclist ∧
        aclStr = textOf specs := by
  refine ⟨fun h => ?_, ?_⟩
  · obtain ⟨specs, hne, hlen, h⟩ := of_parseACLFrom h
    exact ⟨specs, hne, by omega, h⟩
  · rintro ⟨specs, hne, hlen, hlists, rfl⟩
    exact parseACLFrom_textOf hlists hne (by omega)

/-! ## Whatever an ACL can hold -/

/-- The entries that there can be. -/
structure AccessControlEntry.Ok (ace : AccessControlEntry) : Prop where
  qual : if ace.tag = .user ∨ ace.tag = .group then ace.qual < noId else ace.qual = 0
  perms : ace.perms < 8

def Tag.letter : Tag → UInt8
  | .user | .userObj => 117
  | .group | .groupObj => 103
  | .other => 111
  | .mask => 109

/-- `rwx`, with `-` for what is not there. -/
def permText (perms : Nat) : Bytes :=
  [if perms &&& ACL_READ ≠ 0 then 114 else 45, if perms &&& ACL_WRITE ≠ 0 then 119 else 45,
    if perms &&& ACL_EXECUTE ≠ 0 then 120 else 45]

def AccessControlEntry.spec (ace : AccessControlEntry) : Spec where
  tagStr := [ace.tag.letter]
  qualStr := if ace.tag = .user ∨ ace.tag = .group then decimal ace.qual else []
  permStr := some (permText ace.perms)

theorem permText_ok {perms : Nat} (h : perms < 8) :
    permBits (permText perms) = perms ∧ ∀ c ∈ permText perms, permChar c = true ∧ c ≠ comma := by
  refine ⟨by interval_cases perms <;> decide, fun c hc => ?_⟩
  have hc : c ∈ [114, 119, 120, 45] := by
    simp only [permText, List.mem_cons, List.not_mem_nil, or_false] at hc ⊢
    split_ifs at hc <;> tauto
  simp only [List.mem_cons, List.not_mem_nil, or_false] at hc
  obtain rfl | rfl | rfl | rfl := hc <;> exact ⟨rfl, by decide⟩

theorem not_mem_decimal {c : UInt8} (hc : isdigit c = false) (n : Nat) : c ∉ decimal n :=
  fun hm => by
  have := mem_decimal hm
  rw [Bool.eq_false_iff] at hc
  exact hc (by simpa [isdigit, UInt8.le_iff_toNat_le] using this)

theorem idFromName_decimal (database : Bytes → Option Nat) {n : Nat} (h : n < 2 ^ 32) :
    idFromName database (decimal n) = n := by
  have hdigits : ∀ b ∈ decimal n, isdigit b = true := fun b hb => by
    have := mem_decimal hb
    simpa [isdigit, UInt8.le_iff_toNat_le] using this
  obtain ⟨hval, hend⟩ := strtol_digits (decimal_ne_nil n) hdigits (by simp [NoDigit] : NoDigit [])
  rw [List.append_nil] at hval hend
  rw [idFromName, if_neg (decimal_ne_nil n)]
  simp only [hval, hend, if_true, decimalValue_decimal, clampLong, LONG_MIN, LONG_MAX]
  omega

theorem AccessControlEntry.Ok.denotes {ace : AccessControlEntry} (h : ace.Ok) (names : Names) :
    ace.spec.Denotes names true ace ∧ comma ∉ ace.spec.text := by
  obtain ⟨tag, qual, perms⟩ := ace
  obtain ⟨hqual, hperms⟩ := h
  obtain ⟨hbits, hchars⟩ := permText_ok hperms
  have hcolon := not_mem_decimal (c := colon) rfl qual
  have hcomma := not_mem_decimal (c := comma) rfl qual
  have hne := decimal_ne_nil qual
  have hid : qual < noId → ∀ database, idFromName database (decimal qual) = qual :=
    fun hlt database => idFromName_decimal database (hlt.trans_le (by decide))
  refine ⟨⟨?_, ?_, ?_, ?_, ?_, fun c hc => (hchars c hc).1, hbits.symm⟩, ?_⟩
  · cases tag <;> simp [AccessControlEntry.spec, Tag.letter, tagOf, bytesOf, hne]
  · cases tag <;> simp [AccessControlEntry.spec, hcolon]
  · cases tag <;> simp [AccessControlEntry.spec, qualOf, userIdFromName, groupIdFromName] at hqual ⊢
    all_goals first | exact hqual | exact (hid hqual _).symm
  · intro ht
    rw [if_pos ht] at hqual
    exact hqual.ne
  · simp [AccessControlEntry.spec, permText]
  · have hp : comma ∉ permText perms := fun hm => (hchars comma hm).2 rfl
    cases tag <;> simp [Spec.text, AccessControlEntry.spec, Tag.letter, hp, hcomma] <;> decide

/-- Whatever entries an ACL can hold, they can be written as an argument of `-m`, and are read back
from it whatever the names on the system. -/
theorem parseACL_text (names : Names) (aclist : List AccessControlEntry) (hne : aclist ≠ [])
    (hlen : aclist.length ≤ MAX_ENTRIES) (hok : ∀ ace ∈ aclist, ace.Ok) :
    parseACL names (textOf (aclist.map AccessControlEntry.spec)) true = .ok aclist := by
  refine parseACLFrom_textOf ?_ (by simpa using hne) (by simpa using hlen)
  rw [Lists, List.forall₂_map_left_iff, List.forall₂_same]
  exact fun ace hace => (hok ace hace).denotes names

theorem parseACL_text_two :
    parseACL ⟨fun _ => none, fun _ => none⟩
      (textOf ([⟨.user, 1000, 7⟩, ⟨.mask, 0, 4⟩].map AccessControlEntry.spec)) true =
      .ok [⟨.user, 1000, 7⟩, ⟨.mask, 0, 4⟩] :=
  parseACL_text _ _ (by decide) (by decide) <| by
    rintro ace (_ | ⟨_, _ | ⟨_, _ | _⟩⟩) <;> exact ⟨by decide, by decide⟩

end Tlpi.AclUpdate
