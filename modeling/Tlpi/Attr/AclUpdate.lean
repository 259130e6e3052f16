import Tlpi.Attr.LibAcl
import Tlpi.Lib.Strtol

/-!
# Changing access control lists

`tlpi-dist/acl/acl_update.c`: the entries of `-m` and `-x` as they are parsed, and the loop that
applies them to the ACL of a file, for every ACL library that does what its manual pages say
(`LibAcl.Documented`).

The file is written after every entry, so a run that stops has applied the entries before the
one that it stops at. Seen as a map from tags and qualifiers to permissions, each of these is set or
taken out in turn, and the mask is the union of the group class, whatever was asked for it, unless
`-n` is given (`updateFile_correct`).
-/

namespace Tlpi.AclUpdate

open Tlpi.Lib

abbrev Bytes := List UInt8

def ACL_READ : Nat := 4
def ACL_WRITE : Nat := 2
def ACL_EXECUTE : Nat := 1

structure AccessControlEntry where
  tag : Tag
  qual : Nat
  perms : Nat
  deriving DecidableEq

/-- `-m` or `-x`, and `recalcMask`, which `-n` clears. -/
structure Options where
  modifyACL : Bool
  recalcMask : Bool

section Program

variable {A E P : Type*} (lib : LibAcl A E P)

def findEntry (acl : A) (tag : Tag) (qual : Nat) : Option E :=
  (lib.getEntries acl).find? fun entry =>
    lib.getTagType acl entry = some tag ∧ (tag.Named → lib.getQualifier acl entry = qual)

def setPerms (acl : A) (entry : E) (perms : Nat) : A :=
  let permset := lib.getPermset acl entry
  let permset := lib.clearPerms permset
  let permset := if perms &&& ACL_READ ≠ 0 then lib.addPerm permset .read else permset
  let permset := if perms &&& ACL_WRITE ≠ 0 then lib.addPerm permset .write else permset
  let permset := if perms &&& ACL_EXECUTE ≠ 0 then lib.addPerm permset .execute else permset
  lib.setPermset acl entry permset

/-- The body of the loop over `aclist`, up to the check. -/
def applyEntry (o : Options) (acl : A) (ace : AccessControlEntry) : A :=
  let acl' :=
    match findEntry lib acl ace.tag ace.qual with
    | some entry =>
      if o.modifyACL then setPerms lib acl entry ace.perms else lib.deleteEntry acl entry
    | none =>
      if o.modifyACL then
        let (acl, entry) := lib.createEntry acl
        let acl := lib.setTagType acl entry ace.tag
        let acl := if ace.tag.Named then lib.setQualifier acl entry ace.qual else acl
        setPerms lib acl entry ace.perms
      else acl
  if o.recalcMask then lib.calcMask acl' else acl'

/-- The loop over `aclist`: whether it comes to its end, and the ACL of the file after it. -/
def updateFile (o : Options) (acl : A) : List AccessControlEntry → Bool × A
  | [] => (true, acl)
  | ace :: aclist =>
    let acl' := applyEntry lib o acl ace
    if lib.valid acl' then updateFile o acl' aclist else (false, acl)

end Program

/-! ## One entry -/

def AccessControlEntry.key (ace : AccessControlEntry) : Key := AclUpdate.key ace.tag ace.qual

/-- The permissions that `setPerms` puts together. -/
def permset (perms : Nat) : Finset Perm :=
  let bit : Perm → Nat
    | .read => ACL_READ
    | .write => ACL_WRITE
    | .execute => ACL_EXECUTE
  Finset.univ.filter fun perm => perms &&& bit perm ≠ 0

/-- What an entry of `-m` or `-x` asks for. -/
def Options.set (o : Options) (m : Perms) (ace : AccessControlEntry) : Perms :=
  Function.update m ace.key (if o.modifyACL then some (permset ace.perms) else none)

section Entry

variable {A E P : Type*} {lib : LibAcl A E P} {acl : A} {entry : E} {tag : Tag} {qual : Nat}

theorem entry_key {x : Entry} (h : lib.entry acl entry = some x) :
    x.key = key tag qual ↔
      lib.getTagType acl entry = some tag ∧ (tag.Named → lib.getQualifier acl entry = qual) := by
  obtain ⟨tag', htag, rfl⟩ := Option.map_eq_some_iff.mp h
  rw [htag, Option.some.injEq]
  simp only [key, Key.mk.injEq]
  refine and_congr_right fun ht => ?_
  rw [ht]
  split <;> simp [*]

theorem findEntry_some (hu : lib.Unique acl) (h : findEntry lib acl tag qual = some entry) :
    entry ∈ lib.getEntries acl ∧ ∃ x, lib.entry acl entry = some x ∧ x.key = key tag qual := by
  have hmem := List.mem_of_find?_eq_some h
  obtain ⟨x, hx⟩ := Option.ne_none_iff_exists'.mp (hu.tagged entry hmem)
  have hfound := List.find?_some h
  exact ⟨hmem, x, hx, (entry_key hx).mpr (of_decide_eq_true hfound)⟩

theorem findEntry_none (h : findEntry lib acl tag qual = none) :
    lib.lookup acl (key tag qual) = none := by
  refine lookupBy_eq_none.mpr fun x hx hk => ?_
  obtain ⟨entry, he, hx⟩ := LibAcl.mem_contents.mp hx
  have hfound := List.find?_eq_none.mp h entry he
  exact hfound (decide_eq_true ((entry_key hx).mp hk))

theorem granted_setPerms (hd : lib.Documented) (perms : Nat) (p : P) :
    let p := lib.clearPerms p
    let p := if perms &&& ACL_READ ≠ 0 then lib.addPerm p .read else p
    let p := if perms &&& ACL_WRITE ≠ 0 then lib.addPerm p .write else p
    lib.granted (if perms &&& ACL_EXECUTE ≠ 0 then lib.addPerm p .execute else p) =
      permset perms := by
  intro p₁ p₂ p₃
  have h₁ : lib.granted p₁ = ∅ := hd.clear_perms p
  have hadd : ∀ (c : Prop) [Decidable c] q perm, lib.granted (if c then lib.addPerm q perm else q) =
      if c then insert perm (lib.granted q) else lib.granted q := by
    intro c _ q perm
    split
    · exact hd.add_perm q perm
    · rfl
  ext perm
  rw [hadd, show lib.granted p₃ = _ from hadd .., show lib.granted p₂ = _ from hadd .., h₁]
  cases perm <;> simp only [permset, Finset.mem_filter, Finset.mem_univ, true_and] <;>
    split_ifs <;> simp [*]

theorem setPerms_spec (hd : lib.Documented) (he : entry ∈ lib.getEntries acl) (perms : Nat) :
    lib.Only acl entry (setPerms lib acl entry perms) ∧
      lib.entry (setPerms lib acl entry perms) entry =
        (lib.entry acl entry).map fun x => { x with perms := permset perms } := by
  obtain ⟨honly, hentry⟩ := hd.set_permset acl entry he _
  exact ⟨honly, hentry.trans (by rw [granted_setPerms hd])⟩

theorem newEntry_spec (hd : lib.Documented) (acl : A) (ace : AccessControlEntry) :
    let r := lib.createEntry acl
    let acl₁ := lib.setTagType r.1 r.2 ace.tag
    let acl₂ := if ace.tag.Named then lib.setQualifier acl₁ r.2 ace.qual else acl₁
    lib.Adds acl r.2 (setPerms lib acl₂ r.2 ace.perms) ∧
      lib.entry (setPerms lib acl₂ r.2 ace.perms) r.2 = some ⟨ace.key, permset ace.perms⟩ := by
  intro r acl₁ acl₂
  have hadds : lib.Adds acl r.2 r.1 := hd.create_entry acl
  obtain ⟨htag, htag₁⟩ : lib.Only r.1 r.2 acl₁ ∧ lib.getTagType acl₁ r.2 = some ace.tag :=
    hd.set_tag_type r.1 r.2 hadds.mem ace.tag
  have hadds₁ := hadds.only htag
  have hqual : lib.Adds acl r.2 acl₂ ∧ lib.getTagType acl₂ r.2 = some ace.tag ∧
      (ace.tag.Named → lib.getQualifier acl₂ r.2 = ace.qual) := by
    by_cases hn : ace.tag.Named
    · obtain ⟨honly, ht, hq⟩ := hd.set_qualifier acl₁ r.2 hadds₁.mem ace.tag hn htag₁ ace.qual
      simp only [acl₂, if_pos hn]
      exact ⟨hadds₁.only honly, ht, fun _ => hq⟩
    · simp only [acl₂, if_neg hn]
      exact ⟨hadds₁, htag₁, fun h => absurd h hn⟩
  obtain ⟨hadds₂, htag₂, hqual₂⟩ := hqual
  obtain ⟨honly, hentry⟩ := setPerms_spec hd hadds₂.mem ace.perms
  refine ⟨hadds₂.only honly, hentry.trans ?_⟩
  have hkey : key ace.tag (lib.getQualifier acl₂ r.2) = ace.key := by
    simp only [key, AccessControlEntry.key]
    split
    · next hn => rw [hqual₂ hn]
    · rfl
  rw [LibAcl.entry, htag₂, Option.map_some, Option.map_some, hkey]

theorem applyEntry_spec (hd : lib.Documented) (hu : lib.Unique acl) (o : Options)
    (ace : AccessControlEntry) :
    ∃ acl', applyEntry lib o acl ace = (if o.recalcMask then lib.calcMask acl' else acl') ∧
      lib.Unique acl' ∧ lib.lookup acl' = o.set (lib.lookup acl) ace := by
  refine ⟨_, rfl, ?_⟩
  unfold Options.set
  split
  · next entry hfound =>
    obtain ⟨he, x, hx, hk⟩ := findEntry_some hu hfound
    have hk : x.key = ace.key := hk
    rw [← hk]
    split
    · obtain ⟨honly, hentry⟩ := setPerms_spec hd he ace.perms
      rw [hx, Option.map_some] at hentry
      exact honly.lookup_eq (hd.get_entry acl) hu hx hentry rfl
    · exact hd.lookup_deleteEntry hu he hx
  · next hnone =>
    have hnone : lib.lookup acl ace.key = none := findEntry_none hnone
    split
    · obtain ⟨hadds, hentry⟩ := newEntry_spec hd acl ace
      exact hadds.lookup_eq hu hentry hnone
    · exact ⟨hu, (Function.update_eq_self_iff.mpr hnone.symm).symm⟩

/-- The map of an ACL is the one asked for, but for a mask that is calculated. -/
structure Matches (lib : LibAcl A E P) (o : Options) (acl : A) (m : Perms) : Prop where
  unique : lib.Unique acl
  others : ∀ k, k ≠ maskKey → lib.lookup acl k = m k
  mask : o.recalcMask = false → lib.lookup acl maskKey = m maskKey

variable {o : Options} {m : Perms}

theorem Matches.applyEntry (hd : lib.Documented) (h : Matches lib o acl m)
    (ace : AccessControlEntry) : Matches lib o (applyEntry lib o acl ace) (o.set m ace) := by
  obtain ⟨acl', happly, hu, hl⟩ := applyEntry_spec hd h.unique o ace
  have hset : ∀ k, lib.lookup acl k = m k → lib.lookup acl' k = o.set m ace k := fun k hk => by
    rw [hl, Options.set, Options.set, Function.update_apply, Function.update_apply, hk]
  rw [happly]
  split
  · next hrecalc =>
    obtain ⟨u, hu', -, hl'⟩ := hd.lookup_calcMask hu
    refine ⟨hu', fun k hk => ?_, fun hr => ?_⟩
    · rw [hl', Function.update_of_ne hk, hset k (h.others k hk)]
    · rw [hrecalc] at hr
      cases hr
  · exact ⟨hu, fun k hk => hset k (h.others k hk), fun hr => hset _ (h.mask hr)⟩

theorem applyEntry_mask (hd : lib.Documented) (hu : lib.Unique acl) (hr : o.recalcMask = true)
    (ace : AccessControlEntry) :
    ∃ u, lib.lookup (applyEntry lib o acl ace) maskKey = some u ∧
      IsUnion (lib.lookup (applyEntry lib o acl ace)) u := by
  obtain ⟨acl', happly, hu', -⟩ := applyEntry_spec hd hu o ace
  obtain ⟨u, -, hunion, hl⟩ := hd.lookup_calcMask hu'
  rw [happly, if_pos hr, hl]
  exact ⟨u, Function.update_self .., hunion.update_mask _⟩

/-- `acl_valid` accepts what has been asked for: the required entries are there, and a mask where
one is needed, unless it is calculated. -/
structure Allowed (o : Options) (m : Perms) : Prop where
  required : ∀ tag ∈ [Tag.userObj, .groupObj, .other], m ⟨tag, 0⟩ ≠ none
  mask : o.recalcMask = false → (∃ k, k.tag.Named ∧ m k ≠ none) → m maskKey ≠ none

theorem Matches.valid_iff (hd : lib.Documented) (h : Matches lib o acl m)
    (hmask : o.recalcMask = true → lib.lookup acl maskKey ≠ none) :
    lib.valid acl = true ↔ Allowed o m := by
  have hreq : ∀ tag ∈ [Tag.userObj, .groupObj, .other],
      lib.lookup acl ⟨tag, 0⟩ = m ⟨tag, 0⟩ := fun tag ht => h.others _ fun hk => by
    cases hk
    exact absurd ht (by decide)
  have hnamed : (∃ k, k.tag.Named ∧ lib.lookup acl k ≠ none) ↔ ∃ k, k.tag.Named ∧ m k ≠ none := by
    refine exists_congr fun k => and_congr_right fun ht => ?_
    rw [h.others k]
    rintro rfl
    exact absurd ht (by decide)
  rw [hd.valid_iff]
  constructor
  · rintro ⟨-, hc⟩
    refine ⟨fun tag ht => hreq tag ht ▸ hc.required tag ht, fun hr hn => ?_⟩
    exact h.mask hr ▸ hc.mask (hnamed.mpr hn)
  · intro ha
    refine ⟨h.unique, fun tag ht => hreq tag ht ▸ ha.required tag ht, fun hn => ?_⟩
    cases hr : o.recalcMask with
    | true => exact hmask hr
    | false => exact (h.mask hr).symm ▸ ha.mask hr (hnamed.mp hn)

end Entry

/-! ## The loop -/

/-- What the entries ask for, one after another. -/
def Options.asked (o : Options) (m : Perms) (aclist : List AccessControlEntry) : Perms :=
  aclist.foldl o.set m

section Loop

variable {A E P : Type*} {lib : LibAcl A E P} {acl : A} {o : Options} {m : Perms}

/-- An ACL after some entries: each is what was asked for last, and the mask the union of the group
class unless it is left alone. -/
structure Applied (lib : LibAcl A E P) (o : Options) (m : Perms)
    (applied : List AccessControlEntry) (acl : A) : Prop where
  others : ∀ k, k ≠ maskKey → lib.lookup acl k = o.asked m applied k
  valid : applied ≠ [] → lib.valid acl = true
  mask : applied ≠ [] →
    if o.recalcMask then ∃ u, lib.lookup acl maskKey = some u ∧ IsUnion (lib.lookup acl) u
    else lib.lookup acl maskKey = o.asked m applied maskKey

theorem Matches.applied_nil (h : Matches lib o acl m) : Applied lib o m [] acl :=
  ⟨h.others, fun hne => absurd rfl hne, fun hne => absurd rfl hne⟩

theorem updateFile_spec (hd : lib.Documented) (aclist : List AccessControlEntry)
    (h : Matches lib o acl m) :
    ∃ applied rest, aclist = applied ++ rest ∧
      Applied lib o m applied (updateFile lib o acl aclist).2 ∧
      (applied = [] → (updateFile lib o acl aclist).2 = acl) ∧
      (∀ p, p <+: applied → p ≠ [] → Allowed o (o.asked m p)) ∧
      if (updateFile lib o acl aclist).1 then rest = []
      else ∃ ace rest', rest = ace :: rest' ∧ ¬ Allowed o (o.asked m (applied ++ [ace])) := by
  induction aclist generalizing acl m with
  | nil =>
    exact ⟨[], [], rfl, h.applied_nil, fun _ => rfl,
      fun p hp hne => absurd (List.prefix_nil.mp hp) hne, rfl⟩
  | cons ace aclist ih =>
    have hm := h.applyEntry hd ace
    have hmask := fun hr => applyEntry_mask (o := o) hd h.unique hr ace
    have hvalid := hm.valid_iff hd fun hr => by
      obtain ⟨u, hu, -⟩ := hmask hr
      simp [hu]
    rw [updateFile]
    by_cases hv : lib.valid (applyEntry lib o acl ace) = true
    · rw [if_pos hv]
      obtain ⟨applied, rest, rfl, happlied, hnil, hpre, hend⟩ := ih hm
      refine ⟨ace :: applied, rest, rfl, ⟨happlied.others, fun _ => ?_, fun _ => ?_⟩,
        fun h => absurd h (List.cons_ne_nil _ _), ?_, hend⟩
      · by_cases hne : applied = []
        · rwa [hnil hne]
        · exact happlied.valid hne
      · by_cases hne : applied = []
        · subst hne
          rw [hnil rfl]
          split
          · exact hmask ‹_›
          · exact hm.mask (by simpa using ‹¬ o.recalcMask = true›)
        · exact happlied.mask hne
      · rintro (_ | ⟨a, p⟩) hp hne
        · exact absurd rfl hne
        obtain ⟨rfl, hp'⟩ := List.cons_prefix_cons.mp hp
        by_cases hpn : p = []
        · subst hpn
          exact hvalid.mp hv
        · exact hpre p hp' hpn
    · rw [if_neg hv]
      exact ⟨[], ace :: aclist, rfl, h.applied_nil, fun _ => rfl,
        fun p hp hne => absurd (List.prefix_nil.mp hp) hne, ace, aclist, rfl, mt hvalid.mpr hv⟩

/-- `-m` takes no required entry away. -/
theorem allowed_asked (hm : o.modifyACL = true) (hr : o.recalcMask = true)
    (aclist : List AccessControlEntry) (h : Allowed o m) : Allowed o (o.asked m aclist) := by
  induction aclist generalizing m with
  | nil => exact h
  | cons ace aclist ih =>
    refine ih ⟨fun tag ht => ?_, fun h' => ?_⟩
    · rw [Options.set, Function.update_apply, hm]
      split
      · simp
      · exact h.required tag ht
    · rw [hr] at h'
      cases h'

end Loop

/-! ## A library -/

/-- An ACL whose entry descriptors are numbers. -/
structure NumberedAcl where
  entries : List Nat
  nodup : entries.Nodup
  tag : Nat → Option Tag
  qual : Nat → Nat
  perms : Nat → Finset Perm

namespace NumberedAcl

def fresh (a : NumberedAcl) : Nat := a.entries.sum + 1

theorem fresh_not_mem (a : NumberedAcl) : a.fresh ∉ a.entries := by
  intro h
  have hle : a.fresh ≤ a.entries.sum := List.le_sum_of_mem h
  exact absurd hle (Nat.not_succ_le_self _)

def create (a : NumberedAcl) : NumberedAcl :=
  { a with
    entries := a.fresh :: a.entries
    nodup := List.nodup_cons.mpr ⟨a.fresh_not_mem, a.nodup⟩
    tag := Function.update a.tag a.fresh none }

/-- The permissions that the group class grants together. -/
def union (a : NumberedAcl) : Finset Perm :=
  Finset.univ.filter fun perm =>
    ∃ e ∈ a.entries, (∃ tag ∈ a.tag e, tag.groupClass = true) ∧ perm ∈ a.perms e

def setMask (a : NumberedAcl) (e : Nat) (u : Finset Perm) : NumberedAcl :=
  { a with
    tag := Function.update a.tag e (some .mask)
    perms := Function.update a.perms e u }

def contents (a : NumberedAcl) : List Entry :=
  a.entries.filterMap fun e =>
    (a.tag e).map fun tag => { key := key tag (a.qual e), perms := a.perms e }

end NumberedAcl

def numbered : LibAcl NumberedAcl Nat (Finset Perm) where
  getEntries a := a.entries
  getTagType a e := a.tag e
  getQualifier a e := a.qual e
  getPermset a e := a.perms e
  getPerm p perm := decide (perm ∈ p)
  clearPerms _ := ∅
  addPerm p perm := insert perm p
  createEntry a := (a.create, a.fresh)
  setTagType a e tag := { a with tag := Function.update a.tag e (some tag) }
  setQualifier a e qual := { a with qual := Function.update a.qual e qual }
  setPermset a e p := { a with perms := Function.update a.perms e p }
  deleteEntry a e := { a with entries := a.entries.erase e, nodup := a.nodup.erase e }
  calcMask a :=
    match a.entries.find? fun e => a.tag e = some .mask with
    | some e => a.setMask e a.union
    | none => a.create.setMask a.fresh a.union
  valid a := decide ((∀ e ∈ a.entries, a.tag e ≠ none) ∧ Valid a.contents)

theorem numbered_granted (p : Finset Perm) : numbered.granted p = p := by
  ext perm
  simp [LibAcl.granted, numbered]

theorem numbered_entry (a : NumberedAcl) (e : Nat) : numbered.entry a e =
    (a.tag e).map fun tag => { key := key tag (a.qual e), perms := a.perms e } := by
  simp only [LibAcl.entry, numbered_granted]
  rfl

theorem numbered_contents (a : NumberedAcl) : numbered.contents a = a.contents := by
  unfold LibAcl.contents NumberedAcl.contents
  exact List.filterMap_congr fun e _ => numbered_entry a e

theorem numbered_only {a a' : NumberedAcl} {e : Nat} (he : e ∈ a.entries)
    (hentries : a'.entries = a.entries)
    (h : ∀ e', e' ≠ e → a'.tag e' = a.tag e' ∧ a'.qual e' = a.qual e' ∧ a'.perms e' = a.perms e') :
    numbered.Only a e a' where
  mem := he
  entries := by
    show a'.entries.Perm a.entries
    rw [hentries]
  others e' _ hne := by
    obtain ⟨ht, hq, hp⟩ := h e' hne
    rw [numbered_entry, numbered_entry, ht, hq, hp]

theorem numbered_adds (a : NumberedAcl) : numbered.Adds a a.fresh a.create where
  not_mem := a.fresh_not_mem
  entries := .refl _
  others e' he' := by
    have hne : e' ≠ a.fresh := ne_of_mem_of_not_mem he' a.fresh_not_mem
    rw [numbered_entry, numbered_entry]
    simp [NumberedAcl.create, Function.update_of_ne hne]

theorem numbered_mask {a : NumberedAcl} {e : Nat} (he : e ∈ a.entries) (u : Finset Perm) :
    numbered.Only a e (a.setMask e u) ∧
      numbered.entry (a.setMask e u) e = some ⟨maskKey, u⟩ := by
  refine ⟨numbered_only he rfl fun e' hne => ?_, ?_⟩
  · simp [NumberedAcl.setMask, Function.update_of_ne hne]
  · rw [numbered_entry]
    simp [NumberedAcl.setMask, key, Tag.Named, maskKey]

theorem mem_union {a : NumberedAcl} (perm : Perm) : perm ∈ a.union ↔
    ∃ x ∈ numbered.contents a, x.key.tag.groupClass = true ∧ perm ∈ x.perms := by
  rw [numbered_contents]
  simp only [NumberedAcl.union, Finset.mem_filter, Finset.mem_univ, true_and,
    NumberedAcl.contents, List.mem_filterMap, Option.map_eq_some_iff]
  constructor
  · rintro ⟨e, he, ⟨tag, ht, hg⟩, hp⟩
    exact ⟨_, ⟨e, he, tag, ht, rfl⟩, hg, hp⟩
  · rintro ⟨-, ⟨e, he, tag, ht, rfl⟩, hg, hp⟩
    exact ⟨e, he, ⟨tag, ht, hg⟩, hp⟩

theorem numbered_documented : numbered.Documented where
  get_entry a := a.nodup
  clear_perms p := by rw [numbered_granted]; rfl
  add_perm p perm := by rw [numbered_granted, numbered_granted]; rfl
  create_entry := numbered_adds
  set_tag_type a e he tag := by
    refine ⟨numbered_only he rfl fun e' hne => ?_, Function.update_self ..⟩
    simp [numbered, Function.update_of_ne hne]
  set_qualifier a e he tag _ htag qual := by
    refine ⟨numbered_only he rfl fun e' hne => ?_, htag, Function.update_self ..⟩
    simp [numbered, Function.update_of_ne hne]
  set_permset a e he p := by
    refine ⟨numbered_only he rfl fun e' hne => ?_, ?_⟩
    · simp [numbered, Function.update_of_ne hne]
    · rw [numbered_entry, numbered_entry, numbered_granted, Option.map_map]
      simp [numbered, Function.comp_def]
  delete_entry a e rest hrest := by
    refine ⟨?_, fun e' _ => rfl⟩
    have h := hrest.erase e
    rwa [List.erase_cons_head] at h
  calc_mask a _ := by
    cases hfind : a.entries.find? fun e => a.tag e = some .mask with
    | some e =>
      have hcalc : numbered.calcMask a = a.setMask e a.union := by simp only [numbered, hfind]
      have htag := List.find?_some hfind
      obtain ⟨honly, hentry⟩ := numbered_mask (List.mem_of_find?_eq_some hfind) a.union
      rw [hcalc]
      exact ⟨e, a.union, .inl ⟨honly, of_decide_eq_true htag⟩, hentry, mem_union⟩
    | none =>
      have hcalc : numbered.calcMask a = a.create.setMask a.fresh a.union := by
        simp only [numbered, hfind]
      obtain ⟨honly, hentry⟩ := numbered_mask (numbered_adds a).mem a.union
      have hnone : ∀ e' ∈ a.entries, a.tag e' ≠ some .mask := fun e' he' => by
        simpa using List.find?_eq_none.mp hfind e' he'
      rw [hcalc]
      exact ⟨a.fresh, a.union, .inr ⟨(numbered_adds a).only honly, hnone⟩, hentry, mem_union⟩
  valid a := by
    have htagged : ∀ e, numbered.entry a e ≠ none ↔ a.tag e ≠ none := fun e => by
      rw [numbered_entry, Ne, Option.map_eq_none_iff]
    simp only [numbered_contents, htagged]
    exact decide_eq_true_iff

/-- The ACL of a file with the mode `rw-r-----`. -/
def minimalAcl : NumberedAcl where
  entries := [1, 2, 3]
  nodup := by decide
  tag e := if e = 1 then some .userObj else if e = 2 then some .groupObj else some .other
  qual _ := 0
  perms e := if e = 1 then {.read, .write} else if e = 2 then {.read} else ∅

end Tlpi.AclUpdate
