import Tlpi.Alloc.Client

/-!
# Blocks

A set of blocks is given by their header addresses `as`. `Blocks h as` says that the blocks,
each a header and the `block_length` bytes it announces, lie below the break and do not
overlap. Free and live blocks together satisfy it as long as nothing is split.

`SameBlocks h h' as` says that a change of the heap left every length field and every payload
byte of `as` alone. Stores into the link fields of `as` (`Blocks.sameBlocks_link`) and changes
above the break (`Blocks.sameBlocks_below`) do.
-/

namespace Tlpi.Alloc

open Tlpi.Lib

namespace Heap

/-! ## Words -/

@[simp] theorem store_brk (h : Heap) (a v : Nat) : (h.store a v).brk = h.brk := rfl
@[simp] theorem store_freeLlHead (h : Heap) (a v : Nat) :
    (h.store a v).freeLlHead = h.freeLlHead := rfl
@[simp] theorem setFreeLlHead_freeLlHead (h : Heap) (p : Nat) :
    (h.setFreeLlHead p).freeLlHead = p := rfl
@[simp] theorem setFreeLlHead_mem (h : Heap) (p : Nat) : (h.setFreeLlHead p).mem = h.mem := rfl
@[simp] theorem setFreeLlHead_brk (h : Heap) (p : Nat) : (h.setFreeLlHead p).brk = h.brk := rfl
@[simp] theorem setFreeLlHead_word (h : Heap) (p a : Nat) : (h.setFreeLlHead p).word a = h.word a :=
  rfl

@[simp] theorem word_store_same (h : Heap) (a v : Nat) : (h.store a v).word a = v % addrSpace := by
  rw [addrSpace_eq]
  exact loadLE_storeLE_same h.mem a v (by rw [addrSpace_eq]; omega)

theorem word_store_apart (h : Heap) {a b v : Nat} (ha : a + 8 ≤ addrSpace) (hb : b + 8 ≤ addrSpace)
    (hab : a + 8 ≤ b ∨ b + 8 ≤ a) : (h.store b v).word a = h.word a :=
  loadLE_storeLE_apart ha hb hab

theorem store_mem_apart (h : Heap) {a v x : Nat} (ha : a + 8 ≤ addrSpace) (hx : x < a ∨ a + 8 ≤ x) :
    (h.store a v).mem x = h.mem x :=
  storeLE_out (by rw [inSpan_iff ha]; omega)

/-! ## The break -/

theorem llRemove_brk (h : Heap) (c : Nat) : (h.llRemove c).brk = h.brk := by
  unfold llRemove
  dsimp only
  repeat' split
  all_goals rfl

theorem llReplace_brk (h : Heap) (c r : Nat) : (h.llReplace c r).brk = h.brk := by
  unfold llReplace
  dsimp only
  repeat' split
  all_goals rfl

theorem poFree_brk (h : Heap) (ptr : Nat) : (h.poFree ptr).brk = h.brk := by
  unfold poFree
  dsimp only
  split <;> rfl

/-! ## Disjoint blocks -/

/-- The blocks at `a` and `b` do not overlap. -/
def Apart (h : Heap) (a b : Nat) : Prop :=
  a + headerSize + h.blockLength a ≤ b ∨ b + headerSize + h.blockLength b ≤ a

instance (h : Heap) : Std.Symm h.Apart := ⟨fun _ _ => Or.symm⟩

theorem Apart.ne {h : Heap} {a b : Nat} (hab : h.Apart a b) : a ≠ b := by
  unfold Apart headerSize at hab; omega

structure Blocks (h : Heap) (as : List Nat) : Prop where
  inside : ∀ a ∈ as, 0 < a ∧ a + headerSize + h.blockLength a ≤ h.brk
  apart : as.Pairwise h.Apart

variable {h h' : Heap} {as bs : List Nat}

theorem Blocks.nodup (hb : h.Blocks as) : as.Nodup := hb.apart.imp fun hab => hab.ne

theorem Blocks.perm (hb : h.Blocks as) (hp : as.Perm bs) : h.Blocks bs where
  inside := fun a ha => hb.inside a (hp.mem_iff.mpr ha)
  apart := (hp.pairwise_iff fun {_ _} hab => Or.symm hab).mp hb.apart

theorem Blocks.apart_of_ne (hb : h.Blocks as) {a b : Nat} (ha : a ∈ as) (hb' : b ∈ as)
    (hne : a ≠ b) : h.Apart a b := hb.apart.forall ha hb' hne

theorem Blocks.end_lt (hb : h.Blocks as) {a : Nat} (ha : a ∈ as) :
    a + headerSize + h.blockLength a < addrSpace := by
  have := (hb.inside a ha).2; have := h.brk_le; have := h.limit_lt; omega

/-! ## Changes that leave the blocks alone -/

/-- Lengths and payload bytes of the blocks `as` are the same in `h'` as in `h`. -/
structure SameBlocks (h h' : Heap) (as : List Nat) : Prop where
  length : ∀ a ∈ as, h'.blockLength a = h.blockLength a
  payload : ∀ a ∈ as, ∀ x, a + headerSize ≤ x → x < a + headerSize + h.blockLength a →
    h'.mem x = h.mem x
  brk : h.brk ≤ h'.brk

theorem SameBlocks.refl (h : Heap) (as : List Nat) : SameBlocks h h as :=
  ⟨fun _ _ => rfl, fun _ _ _ _ _ => rfl, Nat.le_refl _⟩

theorem SameBlocks.trans {h'' : Heap} (h1 : SameBlocks h h' as) (h2 : SameBlocks h' h'' as) :
    SameBlocks h h'' as where
  length := fun a ha => (h2.length a ha).trans (h1.length a ha)
  payload := fun a ha x hx hx' =>
    (h2.payload a ha x hx (by rw [h1.length a ha]; exact hx')).trans (h1.payload a ha x hx hx')
  brk := Nat.le_trans h1.brk h2.brk

theorem SameBlocks.setFreeLlHead (hs : SameBlocks h h' as) (p : Nat) :
    SameBlocks h (h'.setFreeLlHead p) as := ⟨hs.length, hs.payload, hs.brk⟩

theorem pairwise_apart_of_length (hap : as.Pairwise h.Apart)
    (hl : ∀ a ∈ as, h'.blockLength a = h.blockLength a) : as.Pairwise h'.Apart :=
  hap.imp_of_mem fun ha hb hab => by
    unfold Apart
    rwa [hl _ ha, hl _ hb]

theorem Blocks.of_length (hb : h.Blocks as) (hl : ∀ a ∈ as, h'.blockLength a = h.blockLength a)
    (hbrk : h.brk ≤ h'.brk) : h'.Blocks as where
  inside := fun a ha => by
    rw [hl a ha]
    have := hb.inside a ha
    omega
  apart := pairwise_apart_of_length hb.apart hl

theorem Blocks.of_same (hb : h.Blocks as) (hs : SameBlocks h h' as) : h'.Blocks as :=
  hb.of_length hs.length hs.brk

/-- The link fields of one block against any block: below it, in its own header past the
length field, or above it. -/
theorem Blocks.link_cases (hb : h.Blocks as) {b a c : Nat} (hmem : b ∈ as) (hc : c ∈ as)
    (h8 : b + 8 ≤ a) (h24 : a + 8 ≤ b + headerSize) :
    a + 8 ≤ c ∨ c + 8 ≤ a ∧ a + 8 ≤ c + headerSize ∨ c + headerSize + h.blockLength c ≤ a := by
  by_cases hcb : c = b
  · subst hcb; exact .inr (.inl ⟨h8, h24⟩)
  · have hap := hb.apart_of_ne hc hmem hcb
    unfold Apart at hap
    omega

theorem Blocks.sameBlocks_link (hb : h.Blocks as) {b a v : Nat} (hmem : b ∈ as) (h8 : b + 8 ≤ a)
    (h24 : a + 8 ≤ b + headerSize) : SameBlocks h (h.store a v) as where
  length := fun c hc => by
    have he := hb.end_lt hmem
    have hc' := hb.end_lt hc
    have hcases := hb.link_cases hmem hc h8 h24
    unfold headerSize at *
    exact h.word_store_apart (by omega) (by omega) (by omega)
  payload := fun c hc x hx hx' => by
    have he := hb.end_lt hmem
    have hcases := hb.link_cases hmem hc h8 h24
    exact h.store_mem_apart (by omega) (by omega)
  brk := Nat.le_refl _

theorem Blocks.sameBlocks_links (hb : h.Blocks as) {b : Nat} (v w : Nat) (hmem : b ∈ as) :
    SameBlocks h ((h.store (b + 8) v).store (b + 16) w) as := by
  have hprev : SameBlocks h (h.store (b + 8) v) as :=
    hb.sameBlocks_link hmem (Nat.le_refl _) (by unfold headerSize; omega)
  exact hprev.trans ((hb.of_same hprev).sameBlocks_link hmem (by omega) (Nat.le_refl _))

/-- A store into the link fields of one block leaves the other link words of all blocks. -/
theorem Blocks.link_word (hb : h.Blocks as) {b a v c w : Nat} (hmem : b ∈ as) (hc : c ∈ as)
    (h8 : b + 8 ≤ a) (h24 : a + 8 ≤ b + headerSize) (hw8 : c + 8 ≤ w)
    (hw24 : w + 8 ≤ c + headerSize)
    (hne : c ≠ b ∨ w + 8 ≤ a ∨ a + 8 ≤ w) : (h.store a v).word w = h.word w := by
  have he := hb.end_lt hmem
  have hc' := hb.end_lt hc
  refine h.word_store_apart (by omega) (by omega) ?_
  rcases hne with hne | hne
  · have hap := hb.apart_of_ne hc hmem hne
    unfold Apart at hap
    omega
  · exact hne

theorem word_of_below {n a : Nat} (hn : n ≤ addrSpace) (hsame : ∀ x, x < n → h'.mem x = h.mem x)
    (ha : a + 8 ≤ n) : h'.word a = h.word a :=
  loadLE_congr fun x hx => hsame x (by rw [inSpan_iff (by omega)] at hx; omega)

theorem Blocks.sameBlocks_below (hb : h.Blocks as) (hsame : ∀ x, x < h.brk → h'.mem x = h.mem x)
    (hbrk : h.brk ≤ h'.brk) : SameBlocks h h' as where
  length := fun a ha => by
    have := (hb.inside a ha).2
    have hbl := h.brk_le; have hlt := h.limit_lt
    exact word_of_below (by omega) hsame (by unfold headerSize at this; omega)
  payload := fun a ha x hx hx' => hsame x (by have := (hb.inside a ha).2; omega)
  brk := hbrk

end Heap

end Tlpi.Alloc
