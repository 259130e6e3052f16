import Tlpi.Lib.Keyed

/-!
# The ACL library

The calls on access control lists that the programs make. The library is not part of the repository,
so it is a parameter: `LibAcl` has its functions, on ACLs, entry descriptors and permission sets of
any types, and `LibAcl.Documented` says what its manual pages say of them. ACLs are passed by value,
so a call that changes an ACL returns the changed one.

The pages leave the order of the entries open. Whatever it is, an ACL stands for a map from tags and
qualifiers to permissions (`LibAcl.lookup`), and the calls are updates of this map.
-/

namespace Tlpi.AclUpdate

open Tlpi.Lib

/-- `acl_tag_t` -/
inductive Tag where
  | userObj
  | user
  | groupObj
  | group
  | mask
  | other
  deriving DecidableEq

/-- `acl_perm_t` -/
inductive Perm where
  | read
  | write
  | execute
  deriving DecidableEq

instance : Fintype Perm := ⟨{.read, .write, .execute}, fun perm => by cases perm <;> decide⟩

/-- The entries that the mask limits. -/
def Tag.groupClass : Tag → Bool
  | .user | .groupObj | .group => true
  | _ => false

/-- The entries that have a qualifier. -/
def Tag.Named (tag : Tag) : Prop := tag = .user ∨ tag = .group

instance (tag : Tag) : Decidable tag.Named := inferInstanceAs (Decidable (_ ∨ _))

/-- What tells an entry from others; the qualifier of an entry that has none is 0. -/
structure Key where
  tag : Tag
  qual : Nat
  deriving DecidableEq

def key (tag : Tag) (qual : Nat) : Key := ⟨tag, if tag.Named then qual else 0⟩

def maskKey : Key := ⟨.mask, 0⟩

/-- What an entry holds. -/
structure Entry where
  key : Key
  perms : Finset Perm
  deriving DecidableEq

/-- The functions of the library on ACLs `A`, entry descriptors `E` and permission sets `P`. -/
structure LibAcl (A E P : Type*) where
  /-- What `acl_get_entry` returns, one after another. -/
  getEntries : A → List E
  /-- `none` is `ACL_UNDEFINED_TAG`. -/
  getTagType : A → E → Option Tag
  getQualifier : A → E → Nat
  getPermset : A → E → P
  getPerm : P → Perm → Bool
  clearPerms : P → P
  addPerm : P → Perm → P
  createEntry : A → A × E
  setTagType : A → E → Tag → A
  setQualifier : A → E → Nat → A
  setPermset : A → E → P → A
  deleteEntry : A → E → A
  calcMask : A → A
  valid : A → Bool

namespace LibAcl

variable {A E P : Type*} (lib : LibAcl A E P)

/-- The permissions in a permission set. -/
def granted (p : P) : Finset Perm := Finset.univ.filter fun perm => lib.getPerm p perm = true

/-- What an entry holds, once it has a tag type. -/
def entry (a : A) (e : E) : Option Entry :=
  (lib.getTagType a e).map fun tag =>
    { key := key tag (lib.getQualifier a e), perms := lib.granted (lib.getPermset a e) }

/-- What the entries of an ACL hold. -/
def contents (a : A) : List Entry := (lib.getEntries a).filterMap (lib.entry a)

/-- Every entry has a tag type, and no two are for the same. -/
structure Unique (a : A) : Prop where
  tagged : ∀ e ∈ lib.getEntries a, lib.entry a e ≠ none
  keys : ((lib.contents a).map Entry.key).Nodup

/-- The ACL that `a'` was made of `a` by a change of `e`. -/
structure Only (a : A) (e : E) (a' : A) : Prop where
  mem : e ∈ lib.getEntries a
  entries : (lib.getEntries a').Perm (lib.getEntries a)
  others : ∀ e' ∈ lib.getEntries a, e' ≠ e → lib.entry a' e' = lib.entry a e'

/-- The ACL `a'` has the entry `e` in addition to those of `a`. -/
structure Adds (a : A) (e : E) (a' : A) : Prop where
  not_mem : e ∉ lib.getEntries a
  entries : (lib.getEntries a').Perm (e :: lib.getEntries a)
  others : ∀ e' ∈ lib.getEntries a, lib.entry a' e' = lib.entry a e'

end LibAcl

/-- What `acl_valid` asks of the entries: one for each of the three kinds that every ACL has, at
most one for any user or group, and at most one mask, which is there when a user or group is. -/
structure Valid (acl : List Entry) : Prop where
  unique : (acl.map Entry.key).Nodup
  required : ∀ tag ∈ [Tag.userObj, .groupObj, .other], ∃ x ∈ acl, x.key.tag = tag
  mask : (∃ x ∈ acl, x.key.tag.Named) → ∃ x ∈ acl, x.key.tag = .mask

instance (acl : List Entry) : Decidable (Valid acl) :=
  decidable_of_iff ((acl.map Entry.key).Nodup ∧
      (∀ tag ∈ [Tag.userObj, .groupObj, .other], ∃ x ∈ acl, x.key.tag = tag) ∧
      ((∃ x ∈ acl, x.key.tag.Named) → ∃ x ∈ acl, x.key.tag = .mask))
    ⟨fun h => ⟨h.1, h.2.1, h.2.2⟩, fun h => ⟨h.1, h.2, h.3⟩⟩

/-- What the manual pages of the library say, one field for each. -/
structure LibAcl.Documented {A E P : Type*} (lib : LibAcl A E P) : Prop where
  get_entry : ∀ a, (lib.getEntries a).Nodup
  clear_perms : ∀ p, lib.granted (lib.clearPerms p) = ∅
  add_perm : ∀ p perm, lib.granted (lib.addPerm p perm) = insert perm (lib.granted p)
  create_entry : ∀ a, lib.Adds a (lib.createEntry a).2 (lib.createEntry a).1
  set_tag_type : ∀ a, ∀ e ∈ lib.getEntries a, ∀ tag, lib.Only a e (lib.setTagType a e tag) ∧
    lib.getTagType (lib.setTagType a e tag) e = some tag
  set_qualifier : ∀ a, ∀ e ∈ lib.getEntries a, ∀ tag : Tag, tag.Named →
    lib.getTagType a e = some tag → ∀ qual, lib.Only a e (lib.setQualifier a e qual) ∧
      lib.getTagType (lib.setQualifier a e qual) e = some tag ∧
      lib.getQualifier (lib.setQualifier a e qual) e = qual
  set_permset : ∀ a, ∀ e ∈ lib.getEntries a, ∀ p, lib.Only a e (lib.setPermset a e p) ∧
    lib.entry (lib.setPermset a e p) e =
      (lib.entry a e).map fun x => { x with perms := lib.granted p }
  delete_entry : ∀ a e rest, (lib.getEntries a).Perm (e :: rest) →
    (lib.getEntries (lib.deleteEntry a e)).Perm rest ∧
      ∀ e' ∈ rest, lib.entry (lib.deleteEntry a e) e' = lib.entry a e'
  /-- The mask entry is changed, or made if there is none, and holds the union of the permissions of
  the group class. -/
  calc_mask : ∀ a, lib.Unique a → ∃ e u,
    (lib.Only a e (lib.calcMask a) ∧ lib.getTagType a e = some .mask ∨
      lib.Adds a e (lib.calcMask a) ∧
        ∀ e' ∈ lib.getEntries a, lib.getTagType a e' ≠ some .mask) ∧
    lib.entry (lib.calcMask a) e = some ⟨maskKey, u⟩ ∧
    ∀ perm, perm ∈ u ↔ ∃ x ∈ lib.contents a, x.key.tag.groupClass = true ∧ perm ∈ x.perms
  valid : ∀ a, lib.valid a = true ↔
    (∀ e ∈ lib.getEntries a, lib.entry a e ≠ none) ∧ Valid (lib.contents a)

/-! ## ACLs as maps -/

abbrev Perms := Key → Option (Finset Perm)

/-- The required entries, and a mask where `acl_valid` asks for one. -/
structure Complete (m : Perms) : Prop where
  required : ∀ tag ∈ [Tag.userObj, .groupObj, .other], m ⟨tag, 0⟩ ≠ none
  mask : (∃ k, k.tag.Named ∧ m k ≠ none) → m maskKey ≠ none

/-- `u` is the union of the permissions of the group class. -/
def IsUnion (m : Perms) (u : Finset Perm) : Prop :=
  ∀ perm, perm ∈ u ↔ ∃ k s, k.tag.groupClass = true ∧ m k = some s ∧ perm ∈ s

/-- The mask is not in the group class. -/
theorem IsUnion.update_mask {m : Perms} {u : Finset Perm} (h : IsUnion m u)
    (o : Option (Finset Perm)) : IsUnion (Function.update m maskKey o) u := by
  intro perm
  rw [h perm]
  refine exists₂_congr fun k s => and_congr_right fun hg => ?_
  have hne : k ≠ maskKey := by
    rintro rfl
    cases hg
  rw [Function.update_of_ne hne]

namespace LibAcl

variable {A E P : Type*} {lib : LibAcl A E P} {a a' a'' : A} {e : E} {x x' : Entry}

def lookup (lib : LibAcl A E P) (a : A) : Perms := lookupBy Entry.key Entry.perms (lib.contents a)

theorem Only.trans (h : lib.Only a e a') (h' : lib.Only a' e a'') : lib.Only a e a'' where
  mem := h.mem
  entries := h'.entries.trans h.entries
  others e' he' hne :=
    (h'.others e' (h.entries.mem_iff.mpr he') hne).trans (h.others e' he' hne)

theorem Adds.mem (h : lib.Adds a e a') : e ∈ lib.getEntries a' :=
  h.entries.mem_iff.mpr List.mem_cons_self

theorem Adds.only (h : lib.Adds a e a') (h' : lib.Only a' e a'') : lib.Adds a e a'' where
  not_mem := h.not_mem
  entries := h'.entries.trans h.entries
  others e' he' := by
    have hne : e' ≠ e := ne_of_mem_of_not_mem he' h.not_mem
    have he'' : e' ∈ lib.getEntries a' := h.entries.mem_iff.mpr (List.mem_cons_of_mem _ he')
    rw [h'.others e' he'' hne, h.others e' he']

theorem mem_contents : x ∈ lib.contents a ↔ ∃ e ∈ lib.getEntries a, lib.entry a e = some x :=
  List.mem_filterMap

theorem entry_tag (h : lib.entry a e = some x) : lib.getTagType a e = some x.key.tag := by
  obtain ⟨tag, htag, rfl⟩ := Option.map_eq_some_iff.mp h
  exact htag

theorem key_eq_of_tag (h : lib.entry a e = some x) {tag : Tag} (ht : ¬ tag.Named) :
    x.key = ⟨tag, 0⟩ ↔ x.key.tag = tag := by
  obtain ⟨tag', -, rfl⟩ := Option.map_eq_some_iff.mp h
  constructor
  · intro hk
    exact congrArg Key.tag hk
  · rintro rfl
    exact congrArg (Key.mk _) (if_neg ht)

theorem exists_rest (he : e ∈ lib.getEntries a) : ∃ rest, (lib.getEntries a).Perm (e :: rest) := by
  obtain ⟨l₁, l₂, heq⟩ := List.append_of_mem he
  exact ⟨l₁ ++ l₂, heq ▸ List.perm_middle⟩

theorem contents_perm {rest : List E} (hrest : (lib.getEntries a).Perm (e :: rest))
    (hx : lib.entry a e = some x) :
    (lib.contents a).Perm (x :: rest.filterMap (lib.entry a)) := by
  have h := hrest.filterMap (lib.entry a)
  rwa [List.filterMap_cons_some hx] at h

theorem filterMap_entry {rest : List E} (h : ∀ e' ∈ rest, lib.entry a' e' = lib.entry a e') :
    rest.filterMap (lib.entry a') = rest.filterMap (lib.entry a) :=
  List.filterMap_congr h

theorem tagged_of_perm {rest : List E} (hrest : (lib.getEntries a').Perm (e :: rest))
    (hx : lib.entry a' e ≠ none) (h : ∀ e' ∈ rest, lib.entry a' e' ≠ none) :
    ∀ e' ∈ lib.getEntries a', lib.entry a' e' ≠ none := by
  intro e' he'
  rcases List.mem_cons.mp (hrest.mem_iff.mp he') with rfl | he'
  · exact hx
  · exact h e' he'

theorem Only.lookup_eq (h : lib.Only a e a') (hd : (lib.getEntries a).Nodup) (hu : lib.Unique a)
    (hx : lib.entry a e = some x) (hx' : lib.entry a' e = some x') (hk : x'.key = x.key) :
    lib.Unique a' ∧ lib.lookup a' = Function.update (lib.lookup a) x.key (some x'.perms) := by
  obtain ⟨rest, hrest⟩ := exists_rest h.mem
  have hmem : ∀ e' ∈ rest, e' ∈ lib.getEntries a ∧ e' ≠ e := fun e' he' =>
    ⟨hrest.mem_iff.mpr (List.mem_cons_of_mem _ he'),
      ne_of_mem_of_not_mem he' (List.nodup_cons.mp (hrest.nodup_iff.mp hd)).1⟩
  have hsame : ∀ e' ∈ rest, lib.entry a' e' = lib.entry a e' := fun e' he' =>
    h.others e' (hmem e' he').1 (hmem e' he').2
  have hrest' := h.entries.trans hrest
  have hcontents := contents_perm hrest' hx'
  rw [filterMap_entry hsame] at hcontents
  obtain ⟨hnd, hl⟩ := lookupBy_replace hu.keys (contents_perm hrest hx) hcontents hk
  refine ⟨⟨tagged_of_perm hrest' (by simp [hx']) fun e' he' => ?_, hnd⟩, hl⟩
  rw [hsame e' he']
  exact hu.tagged e' (hmem e' he').1

theorem Adds.lookup_eq (h : lib.Adds a e a') (hu : lib.Unique a)
    (hx' : lib.entry a' e = some x') (hnone : lib.lookup a x'.key = none) :
    lib.Unique a' ∧ lib.lookup a' = Function.update (lib.lookup a) x'.key (some x'.perms) := by
  have hcontents := contents_perm h.entries hx'
  rw [filterMap_entry h.others] at hcontents
  obtain ⟨hnd, hl⟩ := lookupBy_insert hu.keys hnone hcontents
  refine ⟨⟨tagged_of_perm h.entries (by simp [hx']) fun e' he' => ?_, hnd⟩, hl⟩
  rw [h.others e' he']
  exact hu.tagged e' he'

namespace Documented

variable (hd : lib.Documented)

include hd

theorem lookup_deleteEntry (hu : lib.Unique a) (he : e ∈ lib.getEntries a)
    (hx : lib.entry a e = some x) :
    lib.Unique (lib.deleteEntry a e) ∧
      lib.lookup (lib.deleteEntry a e) = Function.update (lib.lookup a) x.key none := by
  obtain ⟨rest, hrest⟩ := exists_rest he
  obtain ⟨hentries, hsame⟩ := hd.delete_entry a e rest hrest
  have hcontents : (lib.contents (lib.deleteEntry a e)).Perm (rest.filterMap (lib.entry a)) := by
    rw [← filterMap_entry hsame]
    exact hentries.filterMap _
  obtain ⟨hnd, hl⟩ := lookupBy_remove hu.keys
    ((contents_perm hrest hx).trans (hcontents.symm.cons x))
  refine ⟨⟨fun e' he' => ?_, hnd⟩, hl⟩
  have he' := hentries.mem_iff.mp he'
  rw [hsame e' he']
  exact hu.tagged e' (hrest.mem_iff.mpr (List.mem_cons_of_mem _ he'))

theorem lookup_calcMask (hu : lib.Unique a) :
    ∃ u, lib.Unique (lib.calcMask a) ∧ IsUnion (lib.lookup a) u ∧
      lib.lookup (lib.calcMask a) = Function.update (lib.lookup a) maskKey (some u) := by
  obtain ⟨e, u, hmask, hx', hu'⟩ := hd.calc_mask a hu
  have hunion : IsUnion (lib.lookup a) u := by
    intro perm
    rw [hu']
    simp only [lookup, lookupBy_eq_some hu.keys]
    constructor
    · rintro ⟨x, hx, hg, hp⟩
      exact ⟨x.key, x.perms, hg, ⟨x, hx, rfl, rfl⟩, hp⟩
    · rintro ⟨-, -, hg, ⟨x, hx, rfl, rfl⟩, hp⟩
      exact ⟨x, hx, hg, hp⟩
  suffices h : lib.Unique (lib.calcMask a) ∧
      lib.lookup (lib.calcMask a) = Function.update (lib.lookup a) maskKey (some u) from
    ⟨u, h.1, hunion, h.2⟩
  rcases hmask with ⟨honly, htag⟩ | ⟨hadds, htag⟩
  · obtain ⟨x, hx⟩ := Option.ne_none_iff_exists'.mp (hu.tagged e honly.mem)
    rw [entry_tag hx, Option.some.injEq] at htag
    have hkey : x.key = maskKey := (key_eq_of_tag hx (by decide)).mpr htag
    rw [← hkey]
    exact honly.lookup_eq (hd.get_entry a) hu hx hx' hkey.symm
  · refine hadds.lookup_eq hu hx' (lookupBy_eq_none.mpr fun x hx hkey => ?_)
    obtain ⟨e', he', hx⟩ := mem_contents.mp hx
    exact htag e' he' ((entry_tag hx).trans (congrArg (fun k => some k.tag) hkey))

omit hd in
theorem exists_tag {tag : Tag} (ht : ¬ tag.Named) :
    (∃ x ∈ lib.contents a, x.key.tag = tag) ↔ lib.lookup a ⟨tag, 0⟩ ≠ none := by
  rw [lookup, lookupBy_ne_none]
  refine exists_congr fun x => and_congr_right fun hx => ?_
  obtain ⟨e, -, he⟩ := mem_contents.mp hx
  exact (key_eq_of_tag he ht).symm

theorem valid_iff : lib.valid a = true ↔ lib.Unique a ∧ Complete (lib.lookup a) := by
  have hreq : (∀ tag ∈ [Tag.userObj, .groupObj, .other], ∃ x ∈ lib.contents a, x.key.tag = tag) ↔
      ∀ tag ∈ [Tag.userObj, .groupObj, .other], lib.lookup a ⟨tag, 0⟩ ≠ none := by
    refine forall₂_congr fun tag ht => exists_tag ?_
    rcases tag <;> first | decide | exact absurd ht (by decide)
  have hnamed : (∃ x ∈ lib.contents a, x.key.tag.Named) ↔
      ∃ k, k.tag.Named ∧ lib.lookup a k ≠ none := by
    simp only [lookup, lookupBy_ne_none]
    constructor
    · rintro ⟨x, hx, ht⟩
      exact ⟨x.key, ht, x, hx, rfl⟩
    · rintro ⟨-, ht, x, hx, rfl⟩
      exact ⟨x, hx, ht⟩
  have hmask : (∃ x ∈ lib.contents a, x.key.tag = .mask) ↔ lib.lookup a maskKey ≠ none :=
    exists_tag (by decide)
  rw [hd.valid]
  constructor
  · rintro ⟨htagged, h⟩
    exact ⟨⟨htagged, h.unique⟩, hreq.mp h.required, fun hn => hmask.mp (h.mask (hnamed.mpr hn))⟩
  · rintro ⟨hu, h⟩
    exact ⟨hu.tagged, hu.keys, hreq.mpr h.required, fun hn => hmask.mpr (h.mask (hnamed.mp hn))⟩

end Documented

end LibAcl

end Tlpi.AclUpdate
