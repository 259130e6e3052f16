import Tlpi.Alloc.Blocks

/-!
# Heap integrity

What a client may expect of the heap (`Intact`): distinct live allocations do not overlap and
every byte holds the last value written to it. `po_malloc` and `po_free` keep this as long as
every request that the free list serves is served by its first block, whole (`HeadServes`): a
split leaves two headers that both announce the old bytes, and a block further down has the
payload address of its predecessor as `prev_free_chunk`, so that `ll_remove` does not take it
out of the list.

`Inv h live fl` is the invariant under `HeadServes`: the free list is the chain `fl`, the blocks of
`fl` and of the live allocations do not overlap, and the first free block has no predecessor.
-/

namespace Tlpi.Alloc

open Tlpi.Lib

/-- The ranges of two allocations have no byte in common. -/
def Allocation.Disjoint (a b : Allocation) : Prop :=
  ∀ x, ¬ (a.ptr ≤ x ∧ x < a.ptr + a.size ∧ b.ptr ≤ x ∧ x < b.ptr + b.size)

/-- Every byte of the allocation holds the last value the client wrote to it. -/
def Allocation.Kept (m : Mem) (al : Allocation) : Prop :=
  ∀ i v, i < al.size → al.data i = some v → loadByte m (al.ptr + i) = v

/-- Live allocations do not overlap, no block is handed out twice, and every byte of a live
allocation holds the last value the client wrote to it. -/
structure Intact (s : Sys) : Prop where
  disjoint : s.live.Pairwise Allocation.Disjoint
  distinct : s.live.Pairwise fun a b => a.ptr ≠ b.ptr
  kept : ∀ al ∈ s.live, al.Kept s.heap.mem

/-- When the scan of `po_malloc` finds a block, it is the first of the free list and too small
to be split. -/
def HeadServes (s : Sys) : Op → Prop
  | .malloc size => ∀ fuel c, s.heap.scan size fuel s.heap.freeLlHead = some c → c ≠ 0 →
      c = s.heap.freeLlHead ∧ s.heap.blockLength c ≤ size + headerSize
  | _ => True

/-- The header addresses of the live allocations. -/
def headers (live : List Allocation) : List Nat := live.map fun al => al.ptr - headerSize

/-- Live allocations lie in their blocks and hold what was written to them. -/
structure LiveOk (h : Heap) (live : List Allocation) : Prop where
  fits : ∀ al ∈ live, headerSize < al.ptr ∧ al.size ≤ h.blockLength (al.ptr - headerSize)
  kept : ∀ al ∈ live, al.Kept h.mem

structure Inv (h : Heap) (live : List Allocation) (fl : List Nat) : Prop where
  chain : NullChain 0 h.nextFreeChunk h.freeLlHead fl
  headPrev : h.freeLlHead ≠ 0 → h.prevFreeChunk h.freeLlHead = 0
  blocks : h.Blocks (fl ++ headers live)
  live : LiveOk h live

variable {h h' : Heap} {fl : List Nat} {live : List Allocation}

theorem mem_headers {al : Allocation} (hal : al ∈ live) : al.ptr - headerSize ∈ headers live :=
  List.mem_map_of_mem hal

theorem LiveOk.of_same (hl : LiveOk h live) (hb : h.Blocks (fl ++ headers live))
    (hs : Heap.SameBlocks h h' (fl ++ headers live)) : LiveOk h' live where
  fits := fun al hal => by
    rw [hs.length _ (List.mem_append_right _ (mem_headers hal))]
    exact hl.fits al hal
  kept := fun al hal i v hi hv => by
    have hmem := List.mem_append_right fl (mem_headers hal)
    obtain ⟨hp, hsz⟩ := hl.fits al hal
    have hend := hb.end_lt hmem
    rw [loadByte, hs.payload _ hmem _ (by rw [Nat.mod_eq_of_lt (by omega)]; omega)
      (by rw [Nat.mod_eq_of_lt (by omega)]; omega)]
    exact hl.kept al hal i v hi hv

theorem LiveOk.cons (hl : LiveOk h live) {a size : Nat} (ha : 0 < a)
    (hsz : size ≤ h.blockLength a) :
    LiveOk h (⟨a + headerSize, size, fun _ => none⟩ :: live) where
  fits := by
    intro al hal
    rcases List.mem_cons.mp hal with rfl | hal
    · exact ⟨by simp only; omega, by simpa using hsz⟩
    · exact hl.fits al hal
  kept := by
    intro al hal
    rcases List.mem_cons.mp hal with rfl | hal
    · intro i v _ hv; cases hv
    · exact hl.kept al hal

theorem LiveOk.subset {live' : List Allocation} (hl : LiveOk h live) (hsub : live' ⊆ live) :
    LiveOk h live' :=
  ⟨fun al hal => hl.fits al (hsub hal), fun al hal => hl.kept al (hsub hal)⟩

/-! ## `po_malloc` from the head of the free list -/

theorem Heap.llRemove_head {c : Nat} (hp : h.prevFreeChunk c = 0) :
    h.llRemove c =
      (if h.nextFreeChunk c ≠ 0 then h.setPrevFreeChunk (h.nextFreeChunk c) 0 else h).setFreeLlHead
        (h.nextFreeChunk c) := by
  have e :
      (if h.nextFreeChunk c ≠ 0 then h.setFreeLlHead (h.nextFreeChunk c) else h.setFreeLlHead 0) =
        h.setFreeLlHead (h.nextFreeChunk c) := by
    split
    · rfl
    · next hn => rw [not_not.mp hn]
  simp only [llRemove, hp, if_true, e]
  by_cases hn : h.nextFreeChunk c = 0
  · rw [if_neg (by simpa [nextFreeChunk] using hn), if_neg (by simpa using hn)]
  · rw [if_pos (by simpa [nextFreeChunk] using hn), if_pos (by simpa using hn)]
    simp only [nextFreeChunk, prevFreeChunk, setFreeLlHead_word] at hp ⊢
    rw [hp]
    rfl

theorem Heap.takeFree_whole {c size : Nat}
    (hsz : size + headerSize < addrSpace) (hc : h.blockLength c ≤ size + headerSize) :
    h.takeFree size c = (freeBlockMemory c, h.llRemove c) := by
  simp only [takeFree, Nat.mod_eq_of_lt hsz]
  rw [if_neg (by omega)]

theorem Inv.grant {c size : Nat} {rest : List Nat} (hi : Inv h live (c :: rest))
    (hsame : Heap.SameBlocks h h' (c :: rest ++ headers live)) (hsz : size ≤ h.blockLength c)
    (hchain : NullChain 0 h'.nextFreeChunk h'.freeLlHead rest)
    (hprev : h'.freeLlHead ≠ 0 → h'.prevFreeChunk h'.freeLlHead = 0) :
    Inv h' (⟨c + headerSize, size, fun _ => none⟩ :: live) rest where
  chain := hchain
  headPrev := hprev
  blocks := by
    have hperm : (c :: (rest ++ headers live)).Perm (rest ++ c :: headers live) :=
      List.perm_middle.symm
    simpa [headers] using (hi.blocks.of_same hsame).perm hperm
  live := by
    have hc : c ∈ c :: rest ++ headers live := by simp
    exact (hi.live.of_same hi.blocks hsame).cons (hi.blocks.inside c hc).1
      (by rw [hsame.length c hc]; exact hsz)

theorem Inv.takeHead_same (hi : Inv h live fl) (hne : h.freeLlHead ≠ 0) :
    Heap.SameBlocks h (h.llRemove h.freeLlHead) (fl ++ headers live) := by
  obtain ⟨rest, rfl, hrest⟩ := hi.chain.eq_cons hne
  rw [Heap.llRemove_head (hi.headPrev hne)]
  by_cases hn : h.nextFreeChunk h.freeLlHead = 0
  · rw [if_neg (not_not.mpr hn)]
    exact (Heap.SameBlocks.refl _ _).setFreeLlHead _
  · rw [if_pos hn]
    obtain ⟨l, rfl, -⟩ := hrest.eq_cons hn
    exact (hi.blocks.sameBlocks_link (b := h.nextFreeChunk h.freeLlHead) (by simp) (Nat.le_refl _)
      (by unfold headerSize; omega)).setFreeLlHead _

/-- **The first free block leaves the list**: its successor becomes the head and loses its
predecessor. -/
theorem Inv.takeHead (hi : Inv h live fl) {size : Nat} (hne : h.freeLlHead ≠ 0)
    (hsz : size ≤ h.blockLength h.freeLlHead) :
    ∃ rest, fl = h.freeLlHead :: rest ∧
      Inv (h.llRemove h.freeLlHead) (⟨h.freeLlHead + headerSize, size, fun _ => none⟩ :: live)
        rest := by
  have hsame := hi.takeHead_same hne
  obtain ⟨rest, rfl, hrest⟩ := hi.chain.eq_cons hne
  refine ⟨rest, rfl, ?_⟩
  rw [Heap.llRemove_head (hi.headPrev hne)] at hsame ⊢
  by_cases hn : h.nextFreeChunk h.freeLlHead = 0
  · rw [if_neg (not_not.mpr hn)] at hsame ⊢
    exact hi.grant hsame hsz hrest fun hn' => absurd hn hn'
  · rw [if_pos hn] at hsame ⊢
    obtain ⟨l, rfl, -⟩ := hrest.eq_cons hn
    generalize hnext : h.nextFreeChunk h.freeLlHead = next at *
    have hmem : next ∈ h.freeLlHead :: next :: l ++ headers live := by simp
    have hlink : next + 8 + 8 ≤ next + headerSize := by unfold headerSize; omega
    refine hi.grant hsame hsz (hrest.congr fun b hb => ?_) fun _ => ?_
    · have hbmem : b ∈ h.freeLlHead :: next :: l ++ headers live :=
        List.mem_cons_of_mem _ (List.mem_append_left _ hb)
      exact hi.blocks.link_word hmem hbmem (Nat.le_refl _) hlink (by omega)
        (by unfold headerSize; omega) (by omega)
    · exact (h.word_store_same _ _).trans (Nat.zero_mod _)

/-! ## `po_malloc` from `sbrk` -/

theorem Inv.of_below (hi : Inv h live fl) (hmem : ∀ x, x < h.brk → h'.mem x = h.mem x)
    (hhead : h'.freeLlHead = h.freeLlHead) (hbrk : h.brk ≤ h'.brk) : Inv h' live fl := by
  have hsame := hi.blocks.sameBlocks_below hmem hbrk
  have hbl := h.brk_le
  have hlt := h.limit_lt
  have hword : ∀ b ∈ fl, ∀ o, o + 8 ≤ headerSize → h'.word (b + o) = h.word (b + o) := by
    intro b hb o ho
    have := (hi.blocks.inside b (List.mem_append_left _ hb)).2
    exact Heap.word_of_below (by omega) hmem (by omega)
  refine ⟨?_, ?_, hi.blocks.of_same hsame, hi.live.of_same hi.blocks hsame⟩
  · rw [hhead]
    exact hi.chain.congr fun b hb => hword b hb 16 (by decide)
  · rw [hhead]
    intro hne
    obtain ⟨rest, rfl, -⟩ := hi.chain.eq_cons hne
    exact (hword _ List.mem_cons_self 8 (by decide)).trans (hi.headPrev hne)

theorem Heap.expand_above {size : Nat} (hsz : size + headerSize < addrSpace)
    (hroom : h.brk + (size + headerSize) ≤ h.limit) (hbrk : h.brk ≠ 0) :
    ∃ h2 : Heap, h.expand size = .ok (h.brk + headerSize, h2) ∧
      (∀ x, x < h.brk → h2.mem x = h.mem x) ∧ h2.freeLlHead = h.freeLlHead ∧
      h2.limit = h.limit ∧ h2.brk = h.brk + (size + headerSize) ∧ h2.blockLength h.brk = size := by
  obtain ⟨h1, hmem1, hhead1, hlimit1, hbrk1, he⟩ := Heap.expand_eq hsz hroom hbrk
  have hlim := h.limit_lt
  have h24 : headerSize = 24 := rfl
  refine ⟨_, he, fun x hx => ?_, hhead1, hlimit1, hbrk1, ?_⟩
  · rw [Heap.store_mem_apart _ (by omega) (by omega), Heap.store_mem_apart _ (by omega) (by omega),
      Heap.store_mem_apart _ (by omega) (by omega), hmem1]
  · exact (Heap.word_store_same _ _ _).trans (Nat.mod_eq_of_lt (by omega))

/-- **A block on top of the heap**: the old blocks stay where they are. -/
theorem Inv.expand (hi : Inv h live fl) {size : Nat} {h2 : Heap}
    (hbelow : ∀ x, x < h.brk → h2.mem x = h.mem x) (hhead : h2.freeLlHead = h.freeLlHead)
    (hbrk2 : h2.brk = h.brk + (size + headerSize)) (hlen : h2.blockLength h.brk = size)
    (hbrk : h.brk ≠ 0) :
    Inv h2 (⟨h.brk + headerSize, size, fun _ => none⟩ :: live) fl := by
  have hi2 : Inv h2 live fl := hi.of_below hbelow hhead (by omega)
  refine ⟨hi2.chain, hi2.headPrev, ?_, hi2.live.cons (by omega) (by rw [hlen])⟩
  -- the new block is the last one
  have hb : h2.Blocks (h.brk :: (fl ++ headers live)) := by
    refine ⟨?_, List.pairwise_cons.mpr ⟨fun b hb => .inr ?_, hi2.blocks.apart⟩⟩
    · intro a ha
      rcases List.mem_cons.mp ha with rfl | ha
      · rw [hlen]; omega
      · exact hi2.blocks.inside a ha
    · have hsame := hi.blocks.sameBlocks_below hbelow (by omega : h.brk ≤ h2.brk)
      rw [hsame.length b hb]
      exact (hi.blocks.inside b hb).2
  have hperm : (h.brk :: (fl ++ headers live)).Perm (fl ++ h.brk :: headers live) :=
    List.perm_middle.symm
  simpa [headers] using hb.perm hperm

/-! ## `po_free` -/

theorem Heap.poFree_eq {c : Nat} (hc : c + headerSize < addrSpace) :
    h.poFree (c + headerSize) =
      (if h.freeLlHead ≠ 0 then
        ((h.store (c + 8) 0).store (c + 16) h.freeLlHead).store (h.freeLlHead + 8) (c + headerSize)
      else (h.store (c + 8) 0).store (c + 16) h.freeLlHead).setFreeLlHead c := by
  have e : freeBlockHeader (c + headerSize) = c := by
    rw [freeBlockHeader, show c + headerSize + addrSpace - headerSize = c + addrSpace by omega,
      Nat.add_mod_right, Nat.mod_eq_of_lt (by omega)]
  simp only [poFree, e, setPrevFreeChunk, setNextFreeChunk, store_freeLlHead]
  by_cases hh : h.freeLlHead = 0
  · simp only [hh, ne_eq, not_true_eq_false, if_false]
  · simp only [hh, ne_eq, not_false_eq_true, if_true]

theorem Inv.head_lt (hi : Inv h live fl) : h.freeLlHead + headerSize < addrSpace := by
  by_cases hne : h.freeLlHead = 0
  · rw [hne, addrSpace_eq]; decide
  · obtain ⟨rest, rfl, -⟩ := hi.chain.eq_cons hne
    have := hi.blocks.end_lt (a := h.freeLlHead) (by simp)
    omega

theorem headers_eraseIdx_perm {k : Nat} {al : Allocation} (fl : List Nat)
    (hal : live[k]? = some al) :
    (fl ++ headers live).Perm ((al.ptr - headerSize) :: fl ++ headers (live.eraseIdx k)) := by
  obtain ⟨hk, rfl⟩ := List.getElem?_eq_some_iff.mp hal
  have hperm := ((List.getElem_cons_eraseIdx_perm hk).map fun al => al.ptr - headerSize).symm
  exact (hperm.append_left fl).trans List.perm_middle

theorem Inv.takeBack (hi : Inv h live fl) {k c : Nat} {al : Allocation} (hal : live[k]? = some al)
    (hc : al.ptr - headerSize = c) (hsame : Heap.SameBlocks h h' (fl ++ headers live))
    (hhead : h'.freeLlHead = c) (hnext : h'.nextFreeChunk c = h.freeLlHead)
    (hprev : h'.prevFreeChunk c = 0) (hfl : ∀ b ∈ fl, h'.nextFreeChunk b = h.nextFreeChunk b) :
    Inv h' (live.eraseIdx k) (c :: fl) := by
  obtain ⟨hp, -⟩ := hi.live.fits al (List.mem_of_getElem? hal)
  refine ⟨?_, ?_, ?_, ?_⟩
  · rw [hhead]
    refine .cons (by omega) ?_
    rw [hnext]
    exact hi.chain.congr hfl
  · rw [hhead]
    exact fun _ => hprev
  · rw [← hc]
    exact (hi.blocks.of_same hsame).perm (headers_eraseIdx_perm fl hal)
  · exact (hi.live.of_same hi.blocks hsame).subset (List.eraseIdx_subset ..)

theorem Inv.free_same (hi : Inv h live fl) {k : Nat} {al : Allocation} (hal : live[k]? = some al) :
    Heap.SameBlocks h (h.poFree al.ptr) (fl ++ headers live) := by
  have hmem := List.mem_of_getElem? hal
  obtain ⟨hp, -⟩ := hi.live.fits al hmem
  obtain ⟨c, hc⟩ : ∃ c, al.ptr - headerSize = c := ⟨_, rfl⟩
  have hcmem : c ∈ fl ++ headers live := List.mem_append_right _ (hc ▸ mem_headers hmem)
  have hend := hi.blocks.end_lt hcmem
  have h24 : headerSize = 24 := rfl
  rw [show al.ptr = c + headerSize by omega, Heap.poFree_eq (by omega)]
  have hlinks := hi.blocks.sameBlocks_links 0 h.freeLlHead hcmem
  have hblocks := hi.blocks.of_same hlinks
  by_cases hne : h.freeLlHead = 0
  · rw [if_neg (not_not.mpr hne)]
    exact hlinks.setFreeLlHead c
  · rw [if_pos hne]
    obtain ⟨rest, rfl, -⟩ := hi.chain.eq_cons hne
    have hhead := hblocks.sameBlocks_link (b := h.freeLlHead) (a := h.freeLlHead + 8)
      (v := c + headerSize) (by simp) (by omega) (by omega)
    exact (hlinks.trans hhead).setFreeLlHead c

/-- **A block goes to the front of the list**: it points to the old head. -/
theorem Inv.free (hi : Inv h live fl) {k : Nat} {al : Allocation} (hal : live[k]? = some al) :
    Inv (h.poFree al.ptr) (live.eraseIdx k) ((al.ptr - headerSize) :: fl) := by
  have hmem := List.mem_of_getElem? hal
  obtain ⟨hp, -⟩ := hi.live.fits al hmem
  have hsame := hi.free_same hal
  obtain ⟨c, hc⟩ : ∃ c, al.ptr - headerSize = c := ⟨_, rfl⟩
  have hcmem : c ∈ fl ++ headers live := List.mem_append_right _ (hc ▸ mem_headers hmem)
  have hcfl : ∀ b ∈ fl, b ≠ c := fun b hb e =>
    (List.nodup_append.mp hi.blocks.nodup).2.2 b hb _ (mem_headers hmem) (e.trans hc.symm)
  have hend := hi.blocks.end_lt hcmem
  have h24 : headerSize = 24 := rfl
  rw [show al.ptr = c + headerSize by omega, Heap.poFree_eq (by omega)] at hsame
  rw [hc, show al.ptr = c + headerSize by omega, Heap.poFree_eq (by omega)]
  -- the two link fields of the freed block
  have s1 := hi.blocks.sameBlocks_link (a := c + 8) (v := 0) hcmem (by omega) (by omega)
  have b1 := hi.blocks.of_same s1
  have hnext := (h.store (c + 8) 0).word_store_same (c + 16) h.freeLlHead
  rw [Nat.mod_eq_of_lt (by have := hi.head_lt; omega)] at hnext
  have hprev : ((h.store (c + 8) 0).store (c + 16) h.freeLlHead).word (c + 8) = 0 :=
    (b1.link_word hcmem hcmem (by omega) (by omega) (by omega) (by omega) (by omega)).trans
      (h.word_store_same _ _)
  have hfl : ∀ b ∈ fl, ((h.store (c + 8) 0).store (c + 16) h.freeLlHead).word (b + 16) =
      h.word (b + 16) := fun b hb => by
    have hbmem := List.mem_append_left (headers live) hb
    rw [b1.link_word hcmem hbmem (by omega) (by omega) (by omega) (by omega) (.inl (hcfl b hb)),
      hi.blocks.link_word hcmem hbmem (by omega) (by omega) (by omega) (by omega)
        (.inl (hcfl b hb))]
  by_cases hne : h.freeLlHead = 0
  · rw [if_neg (not_not.mpr hne)] at hsame ⊢
    exact hi.takeBack hal hc hsame rfl hnext hprev hfl
  · rw [if_pos hne] at hsame ⊢
    -- the old head gets its predecessor, which no list traversal reads
    obtain ⟨rest, rfl, -⟩ := hi.chain.eq_cons hne
    have hhmem : h.freeLlHead ∈ h.freeLlHead :: rest ++ headers live := by simp
    have hhc := hcfl _ List.mem_cons_self
    have b2 := hi.blocks.of_same (hi.blocks.sameBlocks_links 0 h.freeLlHead hcmem)
    have keep : ∀ b ∈ h.freeLlHead :: rest ++ headers live, ∀ w, b + 8 ≤ w →
        w + 8 ≤ b + headerSize →
        (b ≠ h.freeLlHead ∨ w + 8 ≤ h.freeLlHead + 8 ∨ h.freeLlHead + 8 + 8 ≤ w) →
        (((h.store (c + 8) 0).store (c + 16) h.freeLlHead).store (h.freeLlHead + 8)
          (c + headerSize)).word w = ((h.store (c + 8) 0).store (c + 16) h.freeLlHead).word w :=
      fun b hb w h1 h2 h3 => b2.link_word hhmem hb (by omega) (by omega) h1 h2 h3
    refine hi.takeBack hal hc hsame rfl ?_ ?_ fun b hb => ?_
    · exact (keep c hcmem _ (by omega) (by omega) (.inl (Ne.symm hhc))).trans hnext
    · exact (keep c hcmem _ (by omega) (by omega) (.inl (Ne.symm hhc))).trans hprev
    · exact (keep b (List.mem_append_left _ hb) _ (by omega) (by omega) (by omega)).trans (hfl b hb)

/-! ## Client writes -/

theorem Inv.live_apart (hi : Inv h live fl) :
    live.Pairwise fun a b => h.Apart (a.ptr - headerSize) (b.ptr - headerSize) :=
  List.pairwise_map.mp (List.pairwise_append.mp hi.blocks.apart).2.1

theorem Inv.apart_of_index (hi : Inv h live fl) {j k : Nat} {a b : Allocation}
    (hj : live[j]? = some a) (hk : live[k]? = some b) (hjk : j ≠ k) :
    h.Apart (a.ptr - headerSize) (b.ptr - headerSize) := by
  obtain ⟨hjl, rfl⟩ := List.getElem?_eq_some_iff.mp hj
  obtain ⟨hkl, rfl⟩ := List.getElem?_eq_some_iff.mp hk
  have hpw := List.pairwise_iff_getElem.mp hi.live_apart
  rcases Nat.lt_or_gt_of_ne hjk with hlt | hlt
  · exact hpw j k hjl hkl hlt
  · exact (hpw k j hkl hjl hlt).symm

theorem Inv.kept_write (hi : Inv h live fl) {k i : Nat} {v : UInt8} {al : Allocation}
    (hal : live[k]? = some al) (hin : i < al.size) :
    ∀ al' ∈ live.set k { al with data := Function.update al.data i (some v) },
      al'.Kept (storeByte h.mem (al.ptr + i) v) := by
  have hmem := List.mem_of_getElem? hal
  obtain ⟨hp, hsz⟩ := hi.live.fits al hmem
  have hend := hi.blocks.end_lt (List.mem_append_right fl (mem_headers hmem))
  intro al' hal' j w hj hw
  obtain ⟨n, hn⟩ := List.mem_iff_getElem?.mp hal'
  rw [List.getElem?_set] at hn
  by_cases hnk : k = n
  · subst hnk
    rw [if_pos rfl, if_pos (List.getElem?_eq_some_iff.mp hal).1] at hn
    obtain rfl := Option.some.inj hn
    simp only at hj hw ⊢
    by_cases hji : j = i
    · subst hji
      rw [Function.update_self] at hw
      rw [loadByte_storeByte_same]
      exact Option.some.inj hw
    · rw [Function.update_of_ne hji] at hw
      rw [loadByte_storeByte_other _ _ (by omega) (by omega) (by omega)]
      exact hi.live.kept al hmem j w hj hw
  · rw [if_neg hnk] at hn
    have hmem' := List.mem_of_getElem? hn
    obtain ⟨hp', hsz'⟩ := hi.live.fits al' hmem'
    have hend' := hi.blocks.end_lt (List.mem_append_right fl (mem_headers hmem'))
    have hap := hi.apart_of_index hal hn hnk
    unfold Heap.Apart at hap
    rw [loadByte_storeByte_other _ _ (by omega) (by omega) (by omega)]
    exact hi.live.kept al' hmem' j w hj hw

/-- A client write stays inside one payload, so it changes no header. -/
theorem Inv.write_word (hi : Inv h live fl) {k i : Nat} (v : UInt8) {al : Allocation}
    (hal : live[k]? = some al) (hin : i < al.size) :
    ∀ b ∈ fl ++ headers live, ∀ o, o + 8 ≤ headerSize →
      loadLE (storeByte h.mem (al.ptr + i) v) (b + o) 8 = h.word (b + o) := by
  have hmem := List.mem_of_getElem? hal
  obtain ⟨hp, hsz⟩ := hi.live.fits al hmem
  have hcmem : al.ptr - headerSize ∈ fl ++ headers live :=
    List.mem_append_right _ (mem_headers hmem)
  have hend := hi.blocks.end_lt hcmem
  have h24 : headerSize = 24 := rfl
  intro b hb o ho
  have hbend := hi.blocks.end_lt hb
  refine loadLE_storeByte_apart (by omega) (by omega) ?_
  by_cases hbc : b = al.ptr - headerSize
  · omega
  · have hap := hi.blocks.apart_of_ne hb hcmem hbc
    unfold Heap.Apart at hap
    omega

theorem headers_set {k : Nat} {al : Allocation} (hal : live[k]? = some al)
    (data : Nat → Option UInt8) : headers (live.set k { al with data := data }) = headers live := by
  obtain ⟨hk, rfl⟩ := List.getElem?_eq_some_iff.mp hal
  have hself := List.set_getElem_self (show k < (headers live).length by simpa [headers] using hk)
  rw [headers, List.map_set]
  simpa [headers] using hself

/-- **A client write** keeps the invariant. -/
theorem Inv.write (hi : Inv h live fl) {k i : Nat} {v : UInt8} {al : Allocation}
    (hal : live[k]? = some al) (hin : i < al.size) :
    Inv { h with mem := storeByte h.mem (al.ptr + i) v }
      (live.set k { al with data := Function.update al.data i (some v) }) fl := by
  have hmem := List.mem_of_getElem? hal
  obtain ⟨hp, hsz⟩ := hi.live.fits al hmem
  have hword := hi.write_word v hal hin
  have hheaders := headers_set hal (Function.update al.data i (some v))
  refine ⟨?_, ?_, ?_, ?_, hi.kept_write hal hin⟩
  · exact hi.chain.congr fun b hb => hword b (List.mem_append_left _ hb) 16 (by decide)
  · intro hne
    obtain ⟨rest, rfl, -⟩ := hi.chain.eq_cons hne
    exact (hword h.freeLlHead (by simp) 8 (by decide)).trans (hi.headPrev hne)
  · rw [hheaders]
    exact hi.blocks.of_length (fun a ha => hword a ha 0 (by decide)) (Nat.le_refl _)
  · intro al' hal'
    have hlen := fun a ha => hword a (List.mem_append_right fl ha) 0 (by decide)
    rcases List.mem_or_eq_of_mem_set hal' with hal' | rfl
    · refine ⟨(hi.live.fits al' hal').1, ?_⟩
      exact (hi.live.fits al' hal').2.trans (hlen _ (mem_headers hal')).symm.le
    · exact ⟨hp, hsz.trans (hlen _ (mem_headers hmem)).symm.le⟩

/-! ## Runs -/

theorem Inv.init {s : Sys} (hs : s.Init) : Inv s.heap s.live [] := by
  obtain ⟨hhead, hlive⟩ := hs
  refine ⟨?_, fun hne => absurd hhead hne, ?_, ?_⟩
  · rw [hhead]; exact .nil
  · rw [hlive]; exact ⟨fun a ha => absurd ha List.not_mem_nil, List.Pairwise.nil⟩
  · rw [hlive]
    exact ⟨fun a ha => absurd ha List.not_mem_nil, fun a ha => absurd ha List.not_mem_nil⟩

/-- Every operation that meets `HeadServes` keeps the invariant. -/
theorem Inv.step {s t : Sys} {op : Op} (hi : ∃ fl, Inv s.heap s.live fl)
    (hstep : Guarded Step HeadServes s op t) : ∃ fl, Inv t.heap t.live fl := by
  obtain ⟨fl, hi⟩ := hi
  obtain ⟨hok, hstep⟩ := hstep
  cases op with
  | malloc size =>
    obtain ⟨hsz, fuel, c, hscan, ⟨-, hroom, r, he, rfl⟩ | ⟨hne, hle, rfl⟩⟩ := step_malloc hstep
    · by_cases hbrk : s.heap.brk = 0
      · obtain ⟨h1, hmem, hhead, hbrk1, he'⟩ := Heap.expand_zero hsz hroom hbrk
        obtain rfl := Except.ok.inj (he.symm.trans he')
        rw [Sys.grant_null]
        exact ⟨fl, hi.of_below (fun x _ => by rw [hmem]) hhead hbrk1⟩
      · obtain ⟨h2, he', hbelow, hhead, -, hbrk2, hlen⟩ := Heap.expand_above hsz hroom hbrk
        obtain rfl := Except.ok.inj (he.symm.trans he')
        rw [Sys.grant_block]
        exact ⟨fl, hi.expand hbelow hhead hbrk2 hlen hbrk⟩
    · obtain ⟨rfl, hwhole⟩ := hok fuel c hscan hne
      obtain ⟨rest, -, hr⟩ := hi.takeHead hne hle
      rw [Heap.takeFree_whole hsz hwhole, freeBlockMemory_eq hi.head_lt, Sys.grant_block]
      exact ⟨rest, hr⟩
  | free k =>
    obtain ⟨al, hal, rfl⟩ := step_free hstep
    exact ⟨_, hi.free hal⟩
  | write k i v =>
    obtain ⟨al, hal, hin, rfl⟩ := step_write hstep
    exact ⟨fl, hi.write hal hin⟩

theorem Inv.intact {s : Sys} (hi : Inv s.heap s.live fl) : Intact s where
  disjoint := by
    refine hi.live_apart.imp_of_mem fun {a b} ha hb hab x hx => ?_
    have hfa := hi.live.fits a ha
    have hfb := hi.live.fits b hb
    unfold Heap.Apart at hab
    omega
  distinct := by
    refine hi.live_apart.imp_of_mem fun {a b} ha hb hab e => ?_
    rw [e] at hab
    exact hab.ne rfl
  kept := hi.live.kept

theorem Inv.run {s t : Sys} {ops : List Op} (hs : s.Init)
    (hrun : Run (Guarded Step HeadServes) s ops t) : ∃ fl, Inv t.heap t.live fl :=
  hrun.invariant (I := fun s => ∃ fl, Inv s.heap s.live fl)
    (fun _ _ _ hi hstep => Inv.step hi hstep) ⟨[], Inv.init hs⟩

/-- **Heap integrity.** In every run in which each request that the free list serves is served
by its first block without a split, live allocations never overlap, no block is handed out
twice, and every byte keeps the last value written to it. -/
theorem intact_of_headServes {s t : Sys} {ops : List Op} (hs : s.Init)
    (hrun : Run (Guarded Step HeadServes) s ops t) : Intact t := by
  obtain ⟨fl, hi⟩ := Inv.run hs hrun
  exact hi.intact

/-- What a client can check of `HeadServes` without walking the list. -/
def HeadFits (s : Sys) : Op → Prop
  | .malloc size => s.heap.freeLlHead = 0 ∨ size ≤ s.heap.blockLength s.heap.freeLlHead ∧
      s.heap.blockLength s.heap.freeLlHead ≤ size + headerSize
  | _ => True

instance (s : Sys) : (op : Op) → Decidable (HeadFits s op)
  | .malloc _ => inferInstanceAs (Decidable (_ ∨ _))
  | .free _ => isTrue trivial
  | .write .. => isTrue trivial

theorem headServes_of_headFits (s : Sys) (op : Op) (hf : HeadFits s op) : HeadServes s op := by
  cases op with
  | malloc size =>
    intro fuel c hscan hne
    cases fuel with
    | zero => cases hscan
    | succ fuel =>
      unfold Heap.scan at hscan
      split at hscan
      · exact absurd (Option.some.inj hscan).symm hne
      · next h0 =>
        rcases hf with h0' | ⟨h1, h2⟩
        · exact absurd h0' h0
        · rw [if_pos h1] at hscan
          obtain rfl := Option.some.inj hscan
          exact ⟨rfl, h2⟩
  | free => trivial
  | write => trivial

theorem headServesRun_of_execAll {fuel : Nat} {ops : List Op} {s t : Sys}
    (h : execAll (fun s op => if HeadFits s op then s.exec fuel op else none) s ops = some t) :
    Run (Guarded Step HeadServes) s ops t :=
  Run.guarded_of_execAll (fun _ _ _ he => ⟨fuel, he⟩) headServes_of_headFits h

/-- A block is freed and reused while another is live. -/
theorem intact_after_reuse : ∃ t, Run (Guarded Step HeadServes) Sys.fresh
    [.malloc 8, .write 0 3 7, .malloc 4, .free 0, .malloc 2, .write 0 1 9] t ∧ Intact t := by
  have h : (execAll (fun s op => if HeadFits s op then s.exec 3 op else none) Sys.fresh
    [.malloc 8, .write 0 3 7, .malloc 4, .free 0, .malloc 2, .write 0 1 9]).isSome := by
    decide +kernel
  obtain ⟨t, ht⟩ := Option.isSome_iff_exists.mp h
  exact ⟨t, headServesRun_of_execAll ht,
    intact_of_headServes Sys.init_fresh (headServesRun_of_execAll ht)⟩

/-- Freeing two blocks and asking twice for the larger one returns it twice: `ll_remove` wrote
to the payload of the smaller one and left the list as it was. -/
theorem not_intact_after_second_removal : ∃ t, Run Step Sys.fresh
    [.malloc 8, .malloc 4, .free 1, .free 0, .malloc 8, .malloc 8] t ∧ ¬ Intact t := by
  have h : (execAll (Sys.exec 4) Sys.fresh
    [.malloc 8, .malloc 4, .free 1, .free 0, .malloc 8, .malloc 8]).map
      (fun s => s.live.map fun al => (al.ptr, al.size)) = some [(4120, 8), (4120, 8)] := by
    decide +kernel
  obtain ⟨t, ht, hlive⟩ := Option.map_eq_some_iff.mp h
  refine ⟨t, run_of_execAll ht, fun hi => ?_⟩
  have hd : (t.live.map fun al => (al.ptr, al.size)).Pairwise
      fun a b => ∀ x, ¬ (a.1 ≤ x ∧ x < a.1 + a.2 ∧ b.1 ≤ x ∧ x < b.1 + b.2) :=
    List.pairwise_map.mpr hi.disjoint
  rw [hlive] at hd
  exact (List.pairwise_cons.mp hd).1 _ List.mem_cons_self 4120 (by decide)

/-! ## The scan ends -/

/-- The first block of `l` that is large enough. -/
def firstFit (h : Heap) (l : List Nat) (size : Nat) : Option Nat :=
  l.find? fun a => size ≤ h.blockLength a

theorem Heap.scan_eq {h : Heap} {a : Nat} {l : List Nat} (hl : NullChain 0 h.nextFreeChunk a l)
    (size : Nat) {fuel : Nat} (hfuel : l.length < fuel) :
    h.scan size fuel a = some ((firstFit h l size).getD 0) := by
  induction hl generalizing fuel with
  | nil =>
    obtain ⟨fuel, rfl⟩ := Nat.exists_eq_add_of_lt hfuel
    rfl
  | @cons a l hne _ ih =>
    cases fuel with
    | zero => exact absurd hfuel (Nat.not_lt_zero _)
    | succ fuel =>
      rw [scan, if_neg hne, firstFit, List.find?_cons]
      by_cases hfit : size ≤ h.blockLength a
      · rw [if_pos hfit, decide_eq_true hfit]
        rfl
      · rw [if_neg hfit, decide_eq_false hfit]
        exact ih (Nat.lt_of_succ_lt_succ hfuel)

/-- The loop of `po_malloc(size)` ends, and then the call returns, if an `sbrk` that it makes
succeeds. -/
def Returns (h : Heap) (size : Nat) : Prop :=
  ∃ fuel, h.poMalloc fuel size ≠ .error .outOfFuel ∧
    ((h.scan size fuel h.freeLlHead = some 0 → h.brk + (size + headerSize) ≤ h.limit) →
      ∃ r, h.poMalloc fuel size = .ok r)

theorem Heap.expand_ok {size : Nat} (hroom : h.brk + (size + headerSize) ≤ h.limit) :
    ∃ r, h.expand size = .ok r := by
  have hlim := h.limit_lt
  by_cases hbrk : h.brk = 0
  · obtain ⟨h1, -, -, -, he⟩ := Heap.expand_zero (by omega) hroom hbrk
    exact ⟨_, he⟩
  · obtain ⟨h1, -, -, -, -, he⟩ := Heap.expand_eq (by omega) hroom hbrk
    exact ⟨_, he⟩

theorem Heap.expand_ne_outOfFuel (size : Nat) : h.expand size ≠ .error .outOfFuel := by
  by_cases hroom : h.brk + (size + headerSize) % addrSpace ≤ h.limit
  · by_cases hbrk : h.brk = 0
    · simp only [expand, sbrk, dif_pos hroom, if_pos hbrk]
      simp
    · obtain ⟨h1, -, -, -, -, he⟩ := Heap.expand_room hroom hbrk
      rw [he]
      split <;> simp
  · rw [Heap.expand_failed hroom]
    simp

/-- A block that is its own successor and too small keeps the scan going for ever. -/
theorem Heap.scan_self_loop {a size : Nat} (ha : a ≠ 0) (hn : h.nextFreeChunk a = a)
    (hsz : h.blockLength a < size) : ∀ fuel, h.scan size fuel a = none
  | 0 => rfl
  | fuel + 1 => by
    rw [scan, if_neg ha, if_neg (by omega), hn]
    exact scan_self_loop ha hn hsz fuel

end Tlpi.Alloc
