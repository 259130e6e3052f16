import Tlpi.Alloc.Blocks

/-!
# The links of the free list

`DoublyLinked h`: the head of the free list has no predecessor and every other node names the
header before it. `po_free` on a list that is not empty breaks this at once, because it gives
the old head the payload address of the new one. Freed blocks are only ever inserted at the
front, so the links are right exactly as long as the list has at most one node (`Single`): its
two link words are `NULL`. The remainder that a split makes is too long by a header, so that
further splits can put the header of the one free block across the break; the header that
`sbrk` then brings into use must not fall on its links (`LinksSafe`).
-/

namespace Tlpi.Alloc

open Tlpi.Lib

/-- `prev_free_chunk` mirrors `next_free_chunk` along the free list. -/
structure DoublyLinked (h : Heap) : Prop where
  head : h.freeLlHead ≠ 0 → h.prevFreeChunk h.freeLlHead = 0
  back : ∀ a, Visits 0 h.nextFreeChunk h.freeLlHead a → h.nextFreeChunk a ≠ 0 →
    h.prevFreeChunk (h.nextFreeChunk a) = a

/-- `po_free` is called with nothing on the free list only, and `po_malloc` does not grow the
heap while the length field of the new block falls on the links of the free one. -/
def LinksSafe (s : Sys) : Op → Prop
  | .malloc size => s.heap.freeLlHead ≠ 0 → s.heap.blockLength s.heap.freeLlHead < size →
      ∀ x, InSpan s.heap.brk 8 x → ¬ InSpan (s.heap.freeLlHead + 8) 16 x
  | .free _ => s.heap.freeLlHead = 0
  | .write .. => False

/-- The free list has at most one node, and its links are `NULL`. -/
def Single (h : Heap) : Prop :=
  h.freeLlHead ≠ 0 → ∀ x, InSpan (h.freeLlHead + 8) 16 x → h.mem x = 0

variable {h : Heap}

theorem inSpan_links {p x : Nat} :
    InSpan (p + 8) 16 x ↔ InSpan (p + 8) 8 x ∨ InSpan (p + 16) 8 x := by
  constructor
  · rintro ⟨i, hi, rfl⟩
    rcases Nat.lt_or_ge i 8 with h8 | h8
    · exact .inl ⟨i, h8, rfl⟩
    · exact .inr ⟨i - 8, by omega, by congr 1; omega⟩
  · rintro (⟨i, hi, rfl⟩ | ⟨i, hi, rfl⟩)
    · exact ⟨i, by omega, rfl⟩
    · exact ⟨i + 8, by omega, by congr 1; omega⟩

theorem links_zero_iff {p : Nat} :
    (∀ x, InSpan (p + 8) 16 x → h.mem x = 0) ↔ h.prevFreeChunk p = 0 ∧ h.nextFreeChunk p = 0 := by
  simp only [Heap.prevFreeChunk, Heap.nextFreeChunk, Heap.word, loadLE_eq_zero,
    inSpan_links, or_imp, forall_and]

theorem Single.doublyLinked (hs : Single h) : DoublyLinked h where
  head := fun hne => (links_zero_iff.mp (hs hne)).1
  back := by
    have hend : ∀ a, Visits 0 h.nextFreeChunk h.freeLlHead a → h.nextFreeChunk a = 0 := by
      intro a hv
      induction hv with
      | here hne => exact (links_zero_iff.mp (hs hne)).2
      | next _ hne ih => exact absurd ih hne
    exact fun a hv hne => absurd (hend a hv) hne

/-! ## The operations -/

theorem links_store_zero (p : Nat) :
    ∀ x, InSpan (p + 8) 16 x → ((h.store (p + 8) 0).store (p + 16) 0).mem x = 0 := by
  intro x hx
  rcases inSpan_links.mp hx with hx | hx
  · exact storeLE_zero (storeLE_zero_self hx)
  · exact storeLE_zero_self hx

theorem Heap.word_store_zero {a b : Nat} (hw : h.word a = 0) : (h.store b 0).word a = 0 :=
  loadLE_eq_zero.mpr fun x hx => storeLE_zero (loadLE_eq_zero.mp hw x hx)

theorem Heap.llReplace_single {p r : Nat} (hp : h.prevFreeChunk p = 0)
    (hn : h.nextFreeChunk p = 0) :
    h.llReplace p r = ((h.setFreeLlHead r).store (r + 8) 0).store (r + 16) 0 := by
  have hp' : (h.setFreeLlHead r).word (p + 8) = 0 := hp
  have hn' : (h.setFreeLlHead r).word (p + 16) = 0 := hn
  have hn'' := Heap.word_store_zero (b := r + 8) hn'
  simp only [llReplace, hp, ne_eq, not_true_eq_false, if_false]
  simp only [nextFreeChunk, prevFreeChunk, setPrevFreeChunk, setNextFreeChunk, hn', hp', hn'',
    not_true_eq_false, if_false]

theorem Heap.llRemove_single {p : Nat} (hp : h.prevFreeChunk p = 0) (hn : h.nextFreeChunk p = 0) :
    h.llRemove p = h.setFreeLlHead 0 := by
  have hn' : (h.setFreeLlHead 0).nextFreeChunk p = 0 := hn
  simp only [llRemove, hp, if_true, hn, ne_eq, not_true_eq_false, if_false, hn']

/-- The length field of a remainder does not fall on the links of the block that is split. -/
theorem remainder_off_links {p size x : Nat} (hsz : size + headerSize < addrSpace)
    (hx : InSpan ((freeBlockMemory p + size) % addrSpace) 8 x) : ¬ InSpan (p + 8) 16 x := by
  obtain ⟨i, hi, rfl⟩ := hx
  rintro ⟨j, hj, e⟩
  unfold freeBlockMemory headerSize at *
  rw [addrSpace_eq] at *
  omega

theorem Single.takeFree (hs : Single h) {size : Nat} (hne : h.freeLlHead ≠ 0)
    (hsz : size + headerSize < addrSpace) : Single (h.takeFree size h.freeLlHead).2 := by
  have hz := hs hne
  unfold Heap.takeFree
  simp only
  split
  · -- the remainder takes the place of the block
    have hz' : ∀ x, InSpan (h.freeLlHead + 8) 16 x →
        (h.setBlockLength ((freeBlockMemory h.freeLlHead + size) % addrSpace)
          (h.blockLength h.freeLlHead - size)).mem x = 0 := fun x hx => by
      refine (storeLE_out fun hx' => remainder_off_links hsz hx' hx).trans (hz x hx)
    obtain ⟨hp, hn⟩ := links_zero_iff.mp hz'
    rw [Heap.llReplace_single hp hn]
    exact fun _ => links_store_zero _
  · obtain ⟨hp, hn⟩ := links_zero_iff.mp hz
    rw [Heap.llRemove_single hp hn]
    exact fun hne' => absurd rfl hne'

theorem Single.poFree (hempty : h.freeLlHead = 0) (ptr : Nat) : Single (h.poFree ptr) := by
  have hhead : (h.setPrevFreeChunk (freeBlockHeader ptr) 0).freeLlHead = 0 := hempty
  unfold Heap.poFree
  simp only [hhead, ne_eq, not_true_eq_false, if_false]
  exact fun _ => links_store_zero _

theorem Single.expand (hs : Single h) {size : Nat} (hsz : size + headerSize < addrSpace)
    (hroom : h.brk + (size + headerSize) ≤ h.limit)
    (hoff : h.freeLlHead ≠ 0 → ∀ x, InSpan h.brk 8 x → ¬ InSpan (h.freeLlHead + 8) 16 x)
    {r : Nat × Heap} (hr : h.expand size = .ok r) : Single r.2 := by
  by_cases hbrk : h.brk = 0
  · obtain ⟨h1, hmem, hhead, -, he⟩ := Heap.expand_zero hsz hroom hbrk
    obtain rfl := Except.ok.inj (hr.symm.trans he)
    intro hne x hx
    rw [hhead] at hne hx
    rw [hmem]
    exact hs hne x hx
  · obtain ⟨h1, hmem, hhead, -, -, he⟩ := Heap.expand_eq hsz hroom hbrk
    obtain rfl := Except.ok.inj (hr.symm.trans he)
    intro hne x hx
    simp only [Heap.store_freeLlHead, hhead] at hne hx
    refine (storeLE_out fun hx' => hoff hne x hx' hx).trans (storeLE_zero (storeLE_zero ?_))
    rw [hmem]
    exact hs hne x hx

/-! ## Runs -/

/-- With at most one free block, the scan looks at the head only. -/
theorem Single.scan (hs : Single h) {size fuel c : Nat}
    (hscan : h.scan size fuel h.freeLlHead = some c) :
    c = h.freeLlHead ∨ c = 0 ∧ h.blockLength h.freeLlHead < size := by
  cases fuel with
  | zero => cases hscan
  | succ fuel =>
    unfold Heap.scan at hscan
    split at hscan
    · next h0 => exact .inl ((Option.some.inj hscan).symm.trans h0.symm)
    · next hne =>
      split at hscan
      · exact .inl (Option.some.inj hscan).symm
      · next hlt =>
        rw [(links_zero_iff.mp (hs hne)).2] at hscan
        refine .inr ⟨?_, by omega⟩
        cases fuel with
        | zero => cases hscan
        | succ fuel => exact (Option.some.inj hscan).symm

theorem Single.step {s t : Sys} {op : Op} (hs : Single s.heap)
    (hstep : Guarded Step LinksSafe s op t) : Single t.heap := by
  obtain ⟨hok, hstep⟩ := hstep
  cases op with
  | malloc size =>
    obtain ⟨hsz, fuel, c, hscan, ⟨rfl, hroom, r, he, rfl⟩ | ⟨hne, -, rfl⟩⟩ := step_malloc hstep
    · refine hs.expand hsz hroom (fun hne => hok hne ?_) he
      rcases hs.scan hscan with h0 | ⟨-, hlt⟩
      · exact absurd h0.symm hne
      · exact hlt
    · rcases hs.scan hscan with rfl | ⟨h0, -⟩
      · exact hs.takeFree hne hsz
      · exact absurd h0 hne
  | free k =>
    obtain ⟨al, -, rfl⟩ := step_free hstep
    exact Single.poFree hok _
  | write => exact hok.elim

/-- What a client can check of `LinksSafe`: the free block ends below the break. -/
def LinksFit (s : Sys) : Op → Prop
  | .malloc size => s.heap.freeLlHead = 0 ∨ size ≤ s.heap.blockLength s.heap.freeLlHead ∨
      s.heap.freeLlHead + headerSize ≤ s.heap.brk ∧ s.heap.brk + 8 ≤ addrSpace
  | .free _ => s.heap.freeLlHead = 0
  | .write .. => False

instance (s : Sys) : (op : Op) → Decidable (LinksFit s op)
  | .malloc _ => inferInstanceAs (Decidable (_ ∨ _ ∨ _ ∧ _))
  | .free _ => inferInstanceAs (Decidable (_ = _))
  | .write .. => isFalse id

theorem linksSafe_of_linksFit (s : Sys) (op : Op) (hf : LinksFit s op) : LinksSafe s op := by
  cases op with
  | malloc size =>
    intro hne hlt x hx hx'
    rcases hf with h0 | hle | ⟨h1, h2⟩
    · exact hne h0
    · omega
    · unfold headerSize at h1
      rw [inSpan_iff (by omega)] at hx hx'
      omega
  | free => exact hf
  | write => exact hf

end Tlpi.Alloc
