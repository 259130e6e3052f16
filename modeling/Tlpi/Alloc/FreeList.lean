import Tlpi.Lib.DList
import Tlpi.Alloc.Integrity

/-!
# `po_malloc` on a well-formed free list

`FreeList h l`: the free list of `h` is the doubly linked list `l` of blocks that do not overlap.
`po_malloc` takes the first block that is large enough. `ll_remove` and `ll_replace` both redirect
the two pointers to that block, the `next_free_chunk` of the node before it (or the head) and the
`prev_free_chunk` of the node after it (`linkFrom`, `linkBack`); what that does to the list is
`DList.splice`. Headers that are a header apart (`Spaced`) have separate fields, so that all stores
into fields can be followed as updates of the three field functions.
-/

namespace Tlpi.Alloc

open Tlpi.Lib

/-- The free list is the doubly linked list `l` of blocks that do not overlap. -/
structure FreeList (h : Heap) (l : List Nat) : Prop where
  links : DList 0 h.nextFreeChunk h.prevFreeChunk h.freeLlHead l
  apart : l.Pairwise h.Apart

/-- The blocks do not reach past the end of the address space. -/
def InSpace (h : Heap) (l : List Nat) : Prop :=
  ∀ a ∈ l, a + headerSize + h.blockLength a < addrSpace

theorem FreeList.nodup {h : Heap} {l : List Nat} (hl : FreeList h l) : l.Nodup :=
  hl.apart.imp fun hab => hab.ne

/-! ## Headers and their fields -/

/-- Headers that do not overlap. -/
structure Spaced (as : List Nat) : Prop where
  inside : ∀ a ∈ as, a + headerSize ≤ addrSpace
  apart : as.Pairwise fun a b => a + headerSize ≤ b ∨ b + headerSize ≤ a

theorem Spaced.apart_of_ne {as : List Nat} (hs : Spaced as) {a b : Nat} (ha : a ∈ as) (hb : b ∈ as)
    (hne : a ≠ b) : a + headerSize ≤ b ∨ b + headerSize ≤ a := by
  have : Std.Symm fun a b : Nat => a + headerSize ≤ b ∨ b + headerSize ≤ a := ⟨fun _ _ => Or.symm⟩
  exact hs.apart.forall ha hb hne

theorem FreeList.spaced {h : Heap} {l : List Nat} (hl : FreeList h l) (hin : InSpace h l) :
    Spaced l where
  inside := fun a ha => by
    have := hin a ha
    omega
  apart := hl.apart.imp fun {a b} hab => by
    unfold Heap.Apart at hab
    omega

namespace Heap

variable {h h' : Heap} {as : List Nat}

theorem word_lt (h : Heap) (a : Nat) : h.word a < addrSpace := by
  rw [addrSpace_eq]
  exact loadLE_lt _ _ _

theorem word_store_field (hs : Spaced as) {a b o w v : Nat} (ha : a ∈ as) (hb : b ∈ as)
    (ho : o + 8 ≤ headerSize) (hw : w + 8 ≤ headerSize) (hne : a ≠ b ∨ w + 8 ≤ o ∨ o + 8 ≤ w) :
    (h.store (b + o) v).word (a + w) = h.word (a + w) := by
  have hain := hs.inside a ha
  have hbin := hs.inside b hb
  apply h.word_store_apart (by omega) (by omega)
  by_cases hab : a = b
  · omega
  · have := hs.apart_of_ne ha hb hab
    omega

/-- `h'` has the fields of `h` at the headers `as`, and the same head. -/
structure SameFields (h h' : Heap) (as : List Nat) : Prop where
  length : ∀ a ∈ as, h'.blockLength a = h.blockLength a
  prev : ∀ a ∈ as, h'.prevFreeChunk a = h.prevFreeChunk a
  next : ∀ a ∈ as, h'.nextFreeChunk a = h.nextFreeChunk a
  head : h'.freeLlHead = h.freeLlHead

theorem SameFields.trans {h'' : Heap} (h1 : SameFields h h' as) (h2 : SameFields h' h'' as) :
    SameFields h h'' as where
  length := fun a ha => (h2.length a ha).trans (h1.length a ha)
  prev := fun a ha => (h2.prev a ha).trans (h1.prev a ha)
  next := fun a ha => (h2.next a ha).trans (h1.next a ha)
  head := h2.head.trans h1.head

theorem sameFields_of_word
    (hword : ∀ a ∈ as, ∀ w, w + 8 ≤ headerSize → h'.word (a + w) = h.word (a + w))
    (hhead : h'.freeLlHead = h.freeLlHead) : SameFields h h' as where
  length := fun a ha => hword a ha 0 (by decide)
  prev := fun a ha => hword a ha 8 (by decide)
  next := fun a ha => hword a ha 16 (by decide)
  head := hhead

theorem sameFields_store {r o v : Nat} (hs : Spaced (r :: as)) (hr : r ∉ as)
    (ho : o + 8 ≤ headerSize) : SameFields h (h.store (r + o) v) as := by
  refine sameFields_of_word (fun a ha w hw => ?_) rfl
  exact word_store_field hs (List.mem_cons_of_mem _ ha) List.mem_cons_self ho hw
    (.inl fun e => hr (e ▸ ha))

/-! ## Redirecting the pointers to a node -/

/-- What leads to a node comes to lead to `v`: the `next_free_chunk` of the node `p` before it, or
the head of the list when there is none. -/
def linkFrom (h : Heap) (p v : Nat) : Heap :=
  if p = 0 then h.setFreeLlHead v else h.setNextFreeChunk p v

/-- The `prev_free_chunk` of the node `n` after it, when there is one, comes to be `v`. -/
def linkBack (h : Heap) (n v : Nat) : Heap := if n = 0 then h else h.setPrevFreeChunk n v

theorem linkFrom_freeLlHead (h : Heap) (p v : Nat) :
    (h.linkFrom p v).freeLlHead = if p = 0 then v else h.freeLlHead := by
  unfold linkFrom
  split <;> rfl

theorem linkBack_freeLlHead (h : Heap) (n v : Nat) :
    (h.linkBack n v).freeLlHead = h.freeLlHead := by
  unfold linkBack
  split <;> rfl

theorem linkFrom_word (hs : Spaced as) {p a w : Nat} (v : Nat) (hp : p = 0 ∨ p ∈ as) (ha : a ∈ as)
    (hw : w + 8 ≤ headerSize) (hne : a ≠ p ∨ w + 8 ≤ 16) :
    (h.linkFrom p v).word (a + w) = h.word (a + w) := by
  unfold linkFrom
  split
  · rfl
  · next hp0 =>
    exact word_store_field hs ha (hp.resolve_left hp0) (by decide) hw (by omega)

theorem linkBack_word (hs : Spaced as) {n a w : Nat} (v : Nat) (hn : n = 0 ∨ n ∈ as) (ha : a ∈ as)
    (hw : w + 8 ≤ headerSize) (hne : a ≠ n ∨ w + 8 ≤ 8 ∨ 16 ≤ w) :
    (h.linkBack n v).word (a + w) = h.word (a + w) := by
  unfold linkBack
  split
  · rfl
  · next hn0 =>
    exact word_store_field hs ha (hn.resolve_left hn0) (by decide) hw (by omega)

theorem linkFrom_next (h : Heap) {p v : Nat} (hp : p ≠ 0) (hv : v < addrSpace) :
    (h.linkFrom p v).nextFreeChunk p = v := by
  rw [linkFrom, if_neg hp]
  exact (word_store_same _ _ _).trans (Nat.mod_eq_of_lt hv)

theorem linkBack_prev (h : Heap) {n v : Nat} (hn : n ≠ 0) (hv : v < addrSpace) :
    (h.linkBack n v).prevFreeChunk n = v := by
  rw [linkBack, if_neg hn]
  exact (word_store_same _ _ _).trans (Nat.mod_eq_of_lt hv)

/-- What led to the node `c` of `h` leads to `t` in `h'`, and what led back to it leads to `s`. -/
structure Relinked (h h' : Heap) (as : List Nat) (c s t : Nat) : Prop where
  length : ∀ a ∈ as, h'.blockLength a = h.blockLength a
  next : ∀ a ∈ as, a ≠ h.prevFreeChunk c → h'.nextFreeChunk a = h.nextFreeChunk a
  before : h.prevFreeChunk c ≠ 0 → h'.nextFreeChunk (h.prevFreeChunk c) = t
  prev : ∀ a ∈ as, a ≠ h.nextFreeChunk c → h'.prevFreeChunk a = h.prevFreeChunk a
  after : h.nextFreeChunk c ≠ 0 → h'.prevFreeChunk (h.nextFreeChunk c) = s
  head : h'.freeLlHead = if h.prevFreeChunk c = 0 then t else h.freeLlHead

section Node

variable {c s t : Nat}

theorem relinked_link (hs : Spaced as) (hp : h.prevFreeChunk c = 0 ∨ h.prevFreeChunk c ∈ as)
    (hn : h.nextFreeChunk c = 0 ∨ h.nextFreeChunk c ∈ as) (hslt : s < addrSpace)
    (htlt : t < addrSpace) :
    Relinked h ((h.linkFrom (h.prevFreeChunk c) t).linkBack (h.nextFreeChunk c) s) as c s t where
  length := fun a ha => (linkBack_word hs s hn ha (w := 0) (by decide) (by omega)).trans
    (linkFrom_word hs t hp ha (by decide) (by omega))
  next := fun a ha hne => (linkBack_word hs s hn ha (w := 16) (by decide) (by omega)).trans
    (linkFrom_word hs t hp ha (by decide) (.inl hne))
  before := fun hp0 => (linkBack_word hs s hn (hp.resolve_left hp0) (w := 16) (by decide)
    (by omega)).trans (linkFrom_next h hp0 htlt)
  prev := fun a ha hne => (linkBack_word hs s hn ha (w := 8) (by decide) (.inl hne)).trans
    (linkFrom_word hs t hp ha (by decide) (by omega))
  after := fun hn0 => linkBack_prev _ hn0 hslt
  head := by rw [linkBack_freeLlHead, linkFrom_freeLlHead]

/-- The fields that the edit reads are those of `h`, and it is followed by no other change. -/
theorem Relinked.of_sameFields {h0 h1 : Heap} (h01 : SameFields h h0 as)
    (hr : Relinked h0 h1 as c s t) (h1' : SameFields h1 h' as) (hc : c ∈ as)
    (hp : h.prevFreeChunk c = 0 ∨ h.prevFreeChunk c ∈ as)
    (hn : h.nextFreeChunk c = 0 ∨ h.nextFreeChunk c ∈ as) : Relinked h h' as c s t where
  length := fun a ha => by rw [h1'.length a ha, hr.length a ha, h01.length a ha]
  next := fun a ha hne => by
    rw [h1'.next a ha, hr.next a ha (by rwa [h01.prev c hc]), h01.next a ha]
  before := fun hp0 => by
    rw [h1'.next _ (hp.resolve_left hp0)]
    simpa [h01.prev c hc] using hr.before (by rwa [h01.prev c hc])
  prev := fun a ha hne => by
    rw [h1'.prev a ha, hr.prev a ha (by rwa [h01.next c hc]), h01.prev a ha]
  after := fun hn0 => by
    rw [h1'.prev _ (hn.resolve_left hn0)]
    simpa [h01.next c hc] using hr.after (by rwa [h01.next c hc])
  head := by rw [h1'.head, hr.head, h01.prev c hc, h01.head]

theorem llRemove_eq (hs : Spaced as) (hc : c ∈ as)
    (hp : h.prevFreeChunk c = 0 ∨ h.prevFreeChunk c ∈ as) (hpc : h.prevFreeChunk c ≠ c) :
    h.llRemove c = (h.linkFrom (h.prevFreeChunk c) (h.nextFreeChunk c)).linkBack
      (h.nextFreeChunk c) (h.prevFreeChunk c) := by
  have hfirst : (if h.prevFreeChunk c = 0 then
      if h.nextFreeChunk c ≠ 0 then h.setFreeLlHead (h.nextFreeChunk c) else h.setFreeLlHead 0
      else h.setNextFreeChunk (h.prevFreeChunk c) (h.nextFreeChunk c)) =
        h.linkFrom (h.prevFreeChunk c) (h.nextFreeChunk c) := by
    unfold linkFrom
    split
    · split
      · rfl
      · next hn => rw [not_not.mp hn]
    · rfl
  have hnext : (h.linkFrom (h.prevFreeChunk c) (h.nextFreeChunk c)).nextFreeChunk c =
      h.nextFreeChunk c := linkFrom_word hs _ hp hc (by decide) (.inl (Ne.symm hpc))
  have hprev : (h.linkFrom (h.prevFreeChunk c) (h.nextFreeChunk c)).prevFreeChunk c =
      h.prevFreeChunk c := linkFrom_word hs _ hp hc (by decide) (.inl (Ne.symm hpc))
  unfold llRemove
  simp only [hfirst, hnext, hprev]
  rw [linkBack, ite_not]

theorem llReplace_eq {r : Nat} (hs : Spaced (r :: as)) (hc : c ∈ as) (hr : r ∉ as)
    (hp : h.prevFreeChunk c = 0 ∨ h.prevFreeChunk c ∈ as) (hpc : h.prevFreeChunk c ≠ c)
    (hn : h.nextFreeChunk c = 0 ∨ h.nextFreeChunk c ∈ as) (hnc : h.nextFreeChunk c ≠ c) :
    h.llReplace c r = (((h.linkFrom (h.prevFreeChunk c) r).linkBack (h.nextFreeChunk c)
      r).setPrevFreeChunk r (h.prevFreeChunk c)).setNextFreeChunk r (h.nextFreeChunk c) := by
  have hcr : c ∈ r :: as := List.mem_cons_of_mem _ hc
  have hp' := hp.imp_right (List.mem_cons_of_mem r)
  have hn' := hn.imp_right (List.mem_cons_of_mem r)
  have hfirst : (if h.prevFreeChunk c ≠ 0 then h.setNextFreeChunk (h.prevFreeChunk c) r
      else h.setFreeLlHead r) = h.linkFrom (h.prevFreeChunk c) r := by
    rw [linkFrom, ite_not]
  have hnext1 : (h.linkFrom (h.prevFreeChunk c) r).nextFreeChunk c = h.nextFreeChunk c :=
    linkFrom_word hs _ hp' hcr (by decide) (.inl (Ne.symm hpc))
  have hsecond : (if h.nextFreeChunk c ≠ 0 then
      (h.linkFrom (h.prevFreeChunk c) r).setPrevFreeChunk (h.nextFreeChunk c) r
      else h.linkFrom (h.prevFreeChunk c) r) =
        (h.linkFrom (h.prevFreeChunk c) r).linkBack (h.nextFreeChunk c) r := by
    rw [linkBack, ite_not]
  have hprev2 : ((h.linkFrom (h.prevFreeChunk c) r).linkBack (h.nextFreeChunk c)
      r).prevFreeChunk c = h.prevFreeChunk c :=
    (linkBack_word hs _ hn' hcr (w := 8) (by decide) (.inl (Ne.symm hnc))).trans
      (linkFrom_word hs _ hp' hcr (by decide) (.inl (Ne.symm hpc)))
  have hnext3 : (((h.linkFrom (h.prevFreeChunk c) r).linkBack (h.nextFreeChunk c)
      r).setPrevFreeChunk r (h.prevFreeChunk c)).nextFreeChunk c = h.nextFreeChunk c :=
    ((sameFields_store hs hr (o := 8) (by decide)).next c hc).trans
      ((linkBack_word hs _ hn' hcr (w := 16) (by decide) (.inl (Ne.symm hnc))).trans hnext1)
  unfold llReplace
  simp only [hfirst, hnext1, hsecond, hprev2, hnext3]

end Node

/-! ## What the edits write -/

/-- `x` is a byte of the link fields of the node `p`. -/
def InLinks (p x : Nat) : Prop := p ≠ 0 ∧ p + 8 ≤ x ∧ x < p + headerSize

theorem store_mem_links (hs : Spaced as) {a o v x : Nat} (ha : a ∈ as) (ha0 : a ≠ 0) (h8 : 8 ≤ o)
    (ho : o + 8 ≤ headerSize) (hx : ¬ InLinks a x) : (h.store (a + o) v).mem x = h.mem x := by
  have hin := hs.inside a ha
  apply h.store_mem_apart (by omega)
  unfold InLinks at hx
  omega

theorem linkFrom_mem (hs : Spaced as) {p x : Nat} (v : Nat) (hp : p = 0 ∨ p ∈ as)
    (hx : ¬ InLinks p x) : (h.linkFrom p v).mem x = h.mem x := by
  unfold linkFrom
  split
  · rfl
  · next hp0 => exact store_mem_links hs (hp.resolve_left hp0) hp0 (by decide) (by decide) hx

theorem linkBack_mem (hs : Spaced as) {n x : Nat} (v : Nat) (hn : n = 0 ∨ n ∈ as)
    (hx : ¬ InLinks n x) : (h.linkBack n v).mem x = h.mem x := by
  unfold linkBack
  split
  · rfl
  · next hn0 => exact store_mem_links hs (hn.resolve_left hn0) hn0 (by decide) (by decide) hx

end Heap

/-! ## The block that is chosen -/

theorem sublist_without (pre post : List Nat) (c : Nat) :
    (pre ++ post).Sublist (pre ++ c :: post) :=
  List.Sublist.append_left (List.sublist_cons_self c post) pre

section Chosen

variable {h h' : Heap} {pre post : List Nat} {c : Nat}

theorem FreeList.prev_mem (hl : FreeList h (pre ++ c :: post)) :
    h.prevFreeChunk c = 0 ∨ h.prevFreeChunk c ∈ pre ++ c :: post :=
  hl.links.prev_mem.imp_right fun hmem => List.mem_append_left _ hmem

theorem FreeList.next_mem (hl : FreeList h (pre ++ c :: post)) :
    h.nextFreeChunk c = 0 ∨ h.nextFreeChunk c ∈ pre ++ c :: post :=
  hl.links.next_mem.imp_right fun hmem => List.mem_append_right _ (List.mem_cons_of_mem _ hmem)

theorem FreeList.prev_ne (hl : FreeList h (pre ++ c :: post)) : h.prevFreeChunk c ≠ c := by
  intro heq
  rcases hl.links.prev_mem with hnull | hmem
  · exact hl.links.ne_null c (by simp) (heq.symm.trans hnull)
  · rw [heq] at hmem
    exact (List.nodup_append.mp hl.nodup).2.2 c hmem c List.mem_cons_self rfl

theorem FreeList.next_ne (hl : FreeList h (pre ++ c :: post)) : h.nextFreeChunk c ≠ c := by
  intro heq
  rcases hl.links.next_mem with hnull | hmem
  · exact hl.links.ne_null c (by simp) (heq.symm.trans hnull)
  · rw [heq] at hmem
    exact (List.nodup_cons.mp (List.nodup_append.mp hl.nodup).2.1).1 hmem

/-- The list after the pointers to a node have been redirected to the ends of `mid`. -/
theorem FreeList.links_of_relinked {s t : Nat} (mid : List Nat)
    (hl : FreeList h (pre ++ c :: post)) (hr : Heap.Relinked h h' (pre ++ c :: post) c s t)
    (hmid : DSeg 0 h'.nextFreeChunk h'.prevFreeChunk (h.prevFreeChunk c) t mid s
      (h.nextFreeChunk c)) :
    DList 0 h'.nextFreeChunk h'.prevFreeChunk h'.freeLlHead (pre ++ mid ++ post) := by
  have hsub : ∀ x ∈ pre ++ post, x ∈ pre ++ c :: post := (sublist_without pre post c).subset
  refine hl.links.splice hl.nodup hmid (fun x hx => hr.next x (hsub x hx)) hr.before
    (fun x hx => hr.prev x (hsub x hx)) hr.after (fun hnull => ?_) fun hne => ?_
  · rw [hr.head, if_pos hnull]
  · rw [hr.head, if_neg hne]

/-- **The block leaves the list.** -/
theorem FreeList.llRemove_relinked (hl : FreeList h (pre ++ c :: post))
    (hin : InSpace h (pre ++ c :: post)) :
    Heap.Relinked h (h.llRemove c) (pre ++ c :: post) c (h.prevFreeChunk c)
      (h.nextFreeChunk c) := by
  have hs := hl.spaced hin
  rw [Heap.llRemove_eq hs (by simp) hl.prev_mem hl.prev_ne]
  exact Heap.relinked_link hs hl.prev_mem hl.next_mem (h.word_lt _) (h.word_lt _)

theorem FreeList.llRemove_links (hl : FreeList h (pre ++ c :: post))
    (hin : InSpace h (pre ++ c :: post)) :
    DList 0 (h.llRemove c).nextFreeChunk (h.llRemove c).prevFreeChunk (h.llRemove c).freeLlHead
      (pre ++ post) := by
  have hlinks := hl.links_of_relinked [] (hl.llRemove_relinked hin) .nil
  rwa [List.append_nil] at hlinks

theorem FreeList.llRemove_mem (hl : FreeList h (pre ++ c :: post))
    (hin : InSpace h (pre ++ c :: post)) {x : Nat} (hp : ¬ Heap.InLinks (h.prevFreeChunk c) x)
    (hn : ¬ Heap.InLinks (h.nextFreeChunk c) x) : (h.llRemove c).mem x = h.mem x := by
  have hs := hl.spaced hin
  rw [Heap.llRemove_eq hs (by simp) hl.prev_mem hl.prev_ne,
    Heap.linkBack_mem hs _ hl.next_mem hn, Heap.linkFrom_mem hs _ hl.prev_mem hp]

/-- The heap after the block at `c` has been split. -/
def Heap.splitBlock (h : Heap) (size c : Nat) : Heap :=
  (h.setBlockLength (c + headerSize + size) (h.blockLength c - size)).llReplace c
    (c + headerSize + size)

theorem Heap.splitBlock_brk (h : Heap) (size c : Nat) : (h.splitBlock size c).brk = h.brk :=
  llReplace_brk _ _ _

theorem Heap.takeFree_split {size : Nat} (hin : c + headerSize + h.blockLength c < addrSpace)
    (hlong : size + headerSize < h.blockLength c) :
    h.takeFree size c = (c + headerSize, h.splitBlock size c) := by
  simp only [takeFree]
  rw [Nat.mod_eq_of_lt (by omega), if_pos hlong, freeBlockMemory_eq (by omega),
    Nat.mod_eq_of_lt (by omega)]
  rfl

theorem FreeList.spaced_remainder {size : Nat} (hl : FreeList h (pre ++ c :: post))
    (hin : InSpace h (pre ++ c :: post)) (hlong : size + headerSize < h.blockLength c) :
    Spaced ((c + headerSize + size) :: (pre ++ c :: post)) ∧
      c + headerSize + size ∉ pre ++ c :: post := by
  have hc : c ∈ pre ++ c :: post := by simp
  have hend := hin c hc
  have hs := hl.spaced hin
  have hapart : ∀ b ∈ pre ++ c :: post, c + headerSize + size + headerSize ≤ b ∨
      b + headerSize ≤ c + headerSize + size := by
    intro b hb
    by_cases hbc : b = c
    · omega
    · have hcb : h.Apart c b := hl.apart.forall hc hb (Ne.symm hbc)
      unfold Heap.Apart at hcb
      omega
  refine ⟨⟨List.forall_mem_cons.mpr ⟨by omega, hs.inside⟩,
    List.pairwise_cons.mpr ⟨hapart, hs.apart⟩⟩, fun hmem => ?_⟩
  have := hapart _ hmem
  unfold headerSize at this
  omega

theorem FreeList.sameFields_remainder {size : Nat} (hl : FreeList h (pre ++ c :: post))
    (hin : InSpace h (pre ++ c :: post)) (hlong : size + headerSize < h.blockLength c) :
    Heap.SameFields h (h.setBlockLength (c + headerSize + size) (h.blockLength c - size))
      (pre ++ c :: post) := by
  obtain ⟨hs, hr⟩ := hl.spaced_remainder hin hlong
  exact Heap.sameFields_store hs hr (o := 0) (by decide)

/-- **The remainder takes the place of the block.** -/
theorem FreeList.splitBlock_eq {size : Nat} (hl : FreeList h (pre ++ c :: post))
    (hin : InSpace h (pre ++ c :: post)) (hlong : size + headerSize < h.blockLength c) :
    h.splitBlock size c =
      ((((h.setBlockLength (c + headerSize + size) (h.blockLength c - size)).linkFrom
        (h.prevFreeChunk c) (c + headerSize + size)).linkBack (h.nextFreeChunk c)
        (c + headerSize + size)).setPrevFreeChunk (c + headerSize + size)
        (h.prevFreeChunk c)).setNextFreeChunk (c + headerSize + size) (h.nextFreeChunk c) := by
  obtain ⟨hs, hr⟩ := hl.spaced_remainder hin hlong
  have hc : c ∈ pre ++ c :: post := by simp
  have hsame := hl.sameFields_remainder hin hlong
  have hp := hl.prev_mem
  have hpc := hl.prev_ne
  have hn := hl.next_mem
  have hnc := hl.next_ne
  rw [← hsame.prev c hc] at hp hpc
  rw [← hsame.next c hc] at hn hnc
  rw [Heap.splitBlock, Heap.llReplace_eq hs hc hr hp hpc hn hnc, hsame.prev c hc, hsame.next c hc]

theorem FreeList.splitBlock_relinked {size : Nat} (hl : FreeList h (pre ++ c :: post))
    (hin : InSpace h (pre ++ c :: post)) (hlong : size + headerSize < h.blockLength c) :
    Heap.Relinked h (h.splitBlock size c) (pre ++ c :: post) c (c + headerSize + size)
      (c + headerSize + size) := by
  obtain ⟨hs, hr⟩ := hl.spaced_remainder hin hlong
  have hc : c ∈ pre ++ c :: post := by simp
  have hlt : c + headerSize + size < addrSpace := by
    have := hin c hc
    omega
  have hsame := hl.sameFields_remainder hin hlong
  have hp := hl.prev_mem
  have hn := hl.next_mem
  rw [← hsame.prev c hc] at hp
  rw [← hsame.next c hc] at hn
  have hlink := Heap.relinked_link (hl.spaced hin) hp hn hlt hlt
  rw [hsame.prev c hc, hsame.next c hc] at hlink
  rw [hl.splitBlock_eq hin hlong]
  refine .of_sameFields hsame hlink ?_ hc hl.prev_mem hl.next_mem
  exact (Heap.sameFields_store hs hr (o := 8) (by decide)).trans
    (Heap.sameFields_store hs hr (o := 16) (by decide))

/-- The header of the remainder: its length counts the header as well. -/
theorem FreeList.splitBlock_remainder {size : Nat} (hl : FreeList h (pre ++ c :: post))
    (hin : InSpace h (pre ++ c :: post)) (hlong : size + headerSize < h.blockLength c) :
    (h.splitBlock size c).blockLength (c + headerSize + size) = h.blockLength c - size ∧
      (h.splitBlock size c).prevFreeChunk (c + headerSize + size) = h.prevFreeChunk c ∧
      (h.splitBlock size c).nextFreeChunk (c + headerSize + size) = h.nextFreeChunk c := by
  obtain ⟨hs, hr⟩ := hl.spaced_remainder hin hlong
  rw [hl.splitBlock_eq hin hlong]
  have hp := hl.prev_mem.imp_right (List.mem_cons_of_mem (c + headerSize + size))
  have hn := hl.next_mem.imp_right (List.mem_cons_of_mem (c + headerSize + size))
  have hne : ∀ a, a = 0 ∨ a ∈ pre ++ c :: post → c + headerSize + size ≠ a := by
    rintro a (rfl | ha) heq
    · unfold headerSize at heq
      omega
    · exact hr (heq ▸ ha)
  have hlen := h.word_lt c
  generalize hrr : c + headerSize + size = r at *
  have hmem : r ∈ r :: (pre ++ c :: post) := List.mem_cons_self
  refine ⟨?_, ?_, ?_⟩
  · show Heap.word _ (r + 0) = _
    rw [Heap.setNextFreeChunk,
      Heap.word_store_field hs hmem hmem (by decide) (by decide) (by omega),
      Heap.setPrevFreeChunk, Heap.word_store_field hs hmem hmem (by decide) (by decide) (by omega),
      Heap.linkBack_word hs _ hn hmem (by decide) (by omega),
      Heap.linkFrom_word hs _ hp hmem (by decide) (by omega)]
    refine (Heap.word_store_same _ _ _).trans (Nat.mod_eq_of_lt ?_)
    unfold Heap.blockLength
    omega
  · show Heap.word _ (r + 8) = _
    rw [Heap.setNextFreeChunk,
      Heap.word_store_field hs hmem hmem (by decide) (by decide) (by omega)]
    exact (Heap.word_store_same _ _ _).trans (Nat.mod_eq_of_lt (h.word_lt _))
  · exact (Heap.word_store_same _ _ _).trans (Nat.mod_eq_of_lt (h.word_lt _))

theorem FreeList.splitBlock_links {size : Nat} (hl : FreeList h (pre ++ c :: post))
    (hin : InSpace h (pre ++ c :: post)) (hlong : size + headerSize < h.blockLength c) :
    DList 0 (h.splitBlock size c).nextFreeChunk (h.splitBlock size c).prevFreeChunk
      (h.splitBlock size c).freeLlHead (pre ++ (c + headerSize + size) :: post) := by
  obtain ⟨-, hprev, hnext⟩ := hl.splitBlock_remainder hin hlong
  have hne : c + headerSize + size ≠ 0 := by
    unfold headerSize
    omega
  have hlinks := hl.links_of_relinked [c + headerSize + size]
    (hl.splitBlock_relinked hin hlong) (.cons hne hprev (by rw [hnext]; exact .nil))
  rwa [List.append_assoc] at hlinks

theorem FreeList.splitBlock_mem {size x : Nat} (hl : FreeList h (pre ++ c :: post))
    (hin : InSpace h (pre ++ c :: post)) (hlong : size + headerSize < h.blockLength c)
    (hx : x < c ∨ c + headerSize + h.blockLength c ≤ x)
    (hp : ¬ Heap.InLinks (h.prevFreeChunk c) x) (hn : ¬ Heap.InLinks (h.nextFreeChunk c) x) :
    (h.splitBlock size c).mem x = h.mem x := by
  have hs := hl.spaced hin
  have hend := hin c (by simp)
  have h24 : headerSize = 24 := rfl
  rw [hl.splitBlock_eq hin hlong, Heap.setNextFreeChunk,
    Heap.store_mem_apart _ (by omega) (by omega), Heap.setPrevFreeChunk,
    Heap.store_mem_apart _ (by omega) (by omega), Heap.linkBack_mem hs _ hl.next_mem hn,
    Heap.linkFrom_mem hs _ hl.prev_mem hp, Heap.setBlockLength,
    Heap.store_mem_apart _ (by omega) (by omega)]

/-- The remainder overlaps the free blocks that start in the header's length of bytes after the
block that was split. -/
theorem FreeList.splitBlock_apart_iff {size : Nat} (hl : FreeList h (pre ++ c :: post))
    (hin : InSpace h (pre ++ c :: post)) (hlong : size + headerSize < h.blockLength c) :
    (pre ++ (c + headerSize + size) :: post).Pairwise (h.splitBlock size c).Apart ↔
      ∀ b ∈ pre ++ c :: post, ¬ (c + headerSize + h.blockLength c ≤ b ∧
        b < c + headerSize + h.blockLength c + headerSize) := by
  have hlen := (hl.splitBlock_relinked hin hlong).length
  obtain ⟨hrem, -, -⟩ := hl.splitBlock_remainder hin hlong
  have hsub : ∀ b ∈ pre ++ post, b ∈ pre ++ c :: post := (sublist_without pre post c).subset
  have hrest : (pre ++ post).Pairwise (h.splitBlock size c).Apart :=
    Heap.pairwise_apart_of_length (hl.apart.sublist (sublist_without pre post c))
      fun b hb => hlen b (hsub b hb)
  have hc : c ∈ pre ++ c :: post := by simp
  have hperm : (pre ++ (c + headerSize + size) :: post).Pairwise (h.splitBlock size c).Apart ↔
      ((c + headerSize + size) :: (pre ++ post)).Pairwise (h.splitBlock size c).Apart :=
    List.perm_middle.pairwise_iff fun {_ _} hab => Or.symm hab
  rw [hperm, List.pairwise_cons, and_iff_left hrest]
  constructor
  · intro h1 b hb
    by_cases hbc : b = c
    · unfold headerSize
      omega
    · have hb' : b ∈ pre ++ post := by
        simp only [List.mem_append, List.mem_cons] at hb ⊢
        tauto
      have hcb : h.Apart c b := hl.apart.forall hc hb (Ne.symm hbc)
      have hrb := h1 b hb'
      unfold Heap.Apart at hcb hrb
      rw [hrem, hlen b hb] at hrb
      omega
  · intro h1 b hb
    have hbc : b ≠ c := by
      rintro rfl
      exact (List.nodup_cons.mp (List.nodup_middle.mp hl.nodup)).1 hb
    have hcb : h.Apart c b := hl.apart.forall hc (hsub b hb) (Ne.symm hbc)
    have := h1 b (hsub b hb)
    unfold Heap.Apart at hcb ⊢
    rw [hrem, hlen b (hsub b hb)]
    omega

end Chosen

end Tlpi.Alloc
