import Tlpi.Alloc.FreeList

/-!
# First fit

What `po_malloc` does with a well-formed free list: it takes the first block that is large enough
(`firstFit`), whole or split, and grows the heap when there is none. Laws that one expects of it
fail, and each holds on exactly the states and sizes given here. A split leaves the length in the
old header and counts the header of the remainder to its length, so that the two parts overlap
(`conserved_iff`) and the remainder may run into the next free block (`firstFitLaw_iff`). A size
that wraps when the header is added gives a pointer past the heap, unless the process is killed at
the header (`inHeap_iff`). An `sbrk` that fails does so with a value that the code does not test
for, and a header is stored through `(void *)-1` (`not_harmless`).
-/

namespace Tlpi.Alloc

open Tlpi.Lib

theorem freeList_nil {h : Heap} (hh : h.freeLlHead = 0) : FreeList h [] :=
  ⟨⟨0, by rw [hh]; exact .nil⟩, .nil⟩

/-! ## The call -/

section Malloc

variable {h : Heap} {l : List Nat} {size : Nat}

theorem FreeList.poMalloc_some (hl : FreeList h l) {c : Nat} (hc : firstFit h l size = some c)
    {fuel : Nat} (hfuel : l.length < fuel) :
    h.poMalloc fuel size = .ok (h.takeFree size c) := by
  have hne : c ≠ 0 := hl.links.ne_null c (List.mem_of_find?_eq_some hc)
  refine Heap.poMalloc_of_block ?_ hne
  rw [Heap.scan_eq hl.links.nullChain size hfuel, hc]
  rfl

theorem FreeList.poMalloc_none (hl : FreeList h l) (hc : firstFit h l size = none) {fuel : Nat}
    (hfuel : l.length < fuel) : h.poMalloc fuel size = h.expand size := by
  refine Heap.poMalloc_of_null ?_
  rw [Heap.scan_eq hl.links.nullChain size hfuel, hc]
  rfl

theorem firstFit_split {c : Nat} (hc : firstFit h l size = some c) :
    size ≤ h.blockLength c ∧ ∃ pre post, l = pre ++ c :: post := by
  obtain ⟨hfit, pre, post, rfl, -⟩ := List.find?_eq_some_iff_append.mp hc
  exact ⟨of_decide_eq_true hfit, pre, post, rfl⟩

end Malloc

/-! ## Splitting -/

/-- `x` is a byte of the block at `a`, as its header describes it. -/
def InBlock (h : Heap) (a x : Nat) : Prop := a ≤ x ∧ x < a + headerSize + h.blockLength a

/-- `b` is on the free list and was not on `l`. -/
def Made (h' : Heap) (l : List Nat) (b : Nat) : Prop :=
  Visits 0 h'.nextFreeChunk h'.freeLlHead b ∧ b ∉ l

/-- The block at `c` and the blocks that were put on the free list are disjoint and together what
the block at `c` was. -/
structure Conserved (h h' : Heap) (l : List Nat) (size c : Nat) : Prop where
  large : size ≤ h'.blockLength c
  disjoint : ∀ b, Made h' l b → ∀ x, ¬ (InBlock h' c x ∧ InBlock h' b x)
  exact : ∀ x, (InBlock h' c x ∨ ∃ b, Made h' l b ∧ InBlock h' b x) ↔ InBlock h c x

section Conserve

variable {h : Heap} {pre post : List Nat} {c size : Nat}

theorem FreeList.conserved_whole (hl : FreeList h (pre ++ c :: post))
    (hin : InSpace h (pre ++ c :: post)) (hfit : size ≤ h.blockLength c) :
    Conserved h (h.llRemove c) (pre ++ c :: post) size c := by
  have hlen := (hl.llRemove_relinked hin).length c (by simp)
  have hnone : ∀ b, ¬ Made (h.llRemove c) (pre ++ c :: post) b := by
    rintro b ⟨hv, hb⟩
    rw [(hl.llRemove_links hin).nullChain.visits_iff] at hv
    exact hb ((sublist_without pre post c).subset hv)
  refine ⟨by rwa [hlen], fun b hb => absurd hb (hnone b), fun x => ?_⟩
  rw [InBlock, hlen]
  exact or_iff_left fun ⟨b, hb, _⟩ => hnone b hb

theorem FreeList.not_conserved_split (hl : FreeList h (pre ++ c :: post))
    (hin : InSpace h (pre ++ c :: post)) (hlong : size + headerSize < h.blockLength c) :
    ¬ Conserved h (h.splitBlock size c) (pre ++ c :: post) size c := by
  intro hcons
  have hlen := (hl.splitBlock_relinked hin hlong).length c (by simp)
  have hmade : Made (h.splitBlock size c) (pre ++ c :: post) (c + headerSize + size) := by
    refine ⟨?_, (hl.spaced_remainder hin hlong).2⟩
    rw [(hl.splitBlock_links hin hlong).nullChain.visits_iff]
    simp
  refine hcons.disjoint _ hmade (c + headerSize + size) ⟨⟨by omega, ?_⟩, ⟨Nat.le_refl _, ?_⟩⟩
  · rw [hlen]
    omega
  · unfold headerSize
    omega

end Conserve

/-- **When a block is conserved**: a request that the free list serves leaves two parts that are
together the old block exactly when the block is not split. -/
theorem conserved_iff (h : Heap) (l : List Nat) (size c : Nat) (hl : FreeList h l)
    (hin : InSpace h l) (hsz : size + headerSize < addrSpace) (hc : firstFit h l size = some c) :
    ∃ h', (∀ fuel, l.length < fuel → h.poMalloc fuel size = .ok (c + headerSize, h')) ∧
      (Conserved h h' l size c ↔ h.blockLength c ≤ size + headerSize) := by
  obtain ⟨hfit, pre, post, rfl⟩ := firstFit_split hc
  have hend := hin c (by simp)
  rcases Nat.lt_or_ge (size + headerSize) (h.blockLength c) with hlong | hshort
  · refine ⟨h.splitBlock size c, fun fuel hfuel => ?_, ?_⟩
    · rw [hl.poMalloc_some hc hfuel, Heap.takeFree_split hend hlong]
    · exact iff_of_false (hl.not_conserved_split hin hlong) (by omega)
  · refine ⟨h.llRemove c, fun fuel hfuel => ?_, ?_⟩
    · rw [hl.poMalloc_some hc hfuel, Heap.takeFree_whole hsz hshort, freeBlockMemory_eq (by omega)]
    · exact iff_of_true (hl.conserved_whole hin hfit) hshort

/-- A heap with one free block, at 4096. -/
def oneFree (len : Nat) : Heap :=
  (⟨fun _ => 0, 8192, 65536, 4096, by decide, Sys.smallLimit_lt⟩ : Heap).store 4096 len

theorem oneFree_blockLength {len : Nat} (h : len < addrSpace) :
    (oneFree len).blockLength 4096 = len :=
  (Heap.word_store_same _ _ _).trans (Nat.mod_eq_of_lt h)

theorem oneFree_link (len : Nat) {a : Nat} (ha : 4104 ≤ a) (ha' : a ≤ 8192) :
    (oneFree len).word a = 0 := by
  have hspace : 8200 ≤ addrSpace := by rw [addrSpace_eq]; decide
  refine (Heap.word_store_apart _ (by omega) (by omega) (.inr ha)).trans ?_
  exact loadLE_eq_zero.mpr fun _ _ => rfl

theorem freeList_oneFree (len : Nat) : FreeList (oneFree len) [4096] where
  links := by
    show DList 0 (oneFree len).nextFreeChunk (oneFree len).prevFreeChunk 4096 [4096]
    refine ⟨4096, .cons (by decide) (oneFree_link len (by decide) (by decide)) ?_⟩
    have hnext : (oneFree len).nextFreeChunk 4096 = 0 := oneFree_link len (by decide) (by decide)
    rw [hnext]
    exact .nil
  apart := List.pairwise_singleton _ _

theorem oneFree_inside {len : Nat} (h : len ≤ 4072) :
    ∀ a ∈ [4096], 4096 ≤ a ∧ a + headerSize + (oneFree len).blockLength a ≤ (oneFree len).brk := by
  have hspace : 8192 < addrSpace := by rw [addrSpace_eq]; decide
  have hbrk : (oneFree len).brk = 8192 := rfl
  intro a ha
  rw [List.mem_singleton.mp ha, oneFree_blockLength (by omega), hbrk]
  unfold headerSize
  omega

theorem inSpace_oneFree {len : Nat} (h : len ≤ 4072) : InSpace (oneFree len) [4096] := by
  intro a ha
  have hin := (oneFree_inside h a ha).2
  have hle := (oneFree len).brk_le
  have hlt := (oneFree len).limit_lt
  omega

theorem firstFit_oneFree {len size : Nat} (h : len < addrSpace) (hfit : size ≤ len) :
    firstFit (oneFree len) [4096] size = some 4096 := by
  rw [firstFit, List.find?_cons, oneFree_blockLength h, decide_eq_true hfit]

/-- A request that leaves less than a header of the block. -/
theorem conserved_whole_block : ∃ h', (∀ fuel, 1 < fuel →
    (oneFree 100).poMalloc fuel 90 = .ok (4096 + headerSize, h')) ∧
      Conserved (oneFree 100) h' [4096] 90 4096 := by
  have hspace : 114 < addrSpace := by rw [addrSpace_eq]; decide
  obtain ⟨h', hcall, hiff⟩ := conserved_iff (oneFree 100) [4096] 90 4096 (freeList_oneFree 100)
    (inSpace_oneFree (by decide)) hspace (firstFit_oneFree (by omega) (by decide))
  refine ⟨h', hcall, hiff.mpr ?_⟩
  rw [oneFree_blockLength (by omega)]
  decide

/-- A request for 10 bytes of a block of 100. -/
theorem not_conserved_ten : ¬ ∀ (h : Heap) (l : List Nat) (size c : Nat), FreeList h l →
    InSpace h l → size + headerSize < addrSpace → firstFit h l size = some c →
    ∃ h', (∀ fuel, l.length < fuel → h.poMalloc fuel size = .ok (c + headerSize, h')) ∧
      Conserved h h' l size c := by
  intro h
  have hspace : 114 < addrSpace := by rw [addrSpace_eq]; decide
  have hl := freeList_oneFree 100
  have hin := inSpace_oneFree (by decide : 100 ≤ 4072)
  have hfit := firstFit_oneFree (by omega : 100 < addrSpace) (by decide : 10 ≤ 100)
  have hlong : 10 + headerSize < (oneFree 100).blockLength 4096 := by
    rw [oneFree_blockLength (by omega)]
    decide
  obtain ⟨h', hcall, hcons⟩ := h (oneFree 100) [4096] 10 4096 hl hin
    (by unfold headerSize; omega) hfit
  have hcall' := hl.poMalloc_some hfit (Nat.lt_succ_self 1)
  rw [hcall 2 (by decide), Heap.takeFree_split (hin 4096 (by simp)) hlong] at hcall'
  obtain rfl : h' = (oneFree 100).splitBlock 10 4096 := by
    simpa using hcall'
  have hnot : ¬ Conserved (oneFree 100) ((oneFree 100).splitBlock 10 4096)
      ([] ++ 4096 :: []) 10 4096 :=
    FreeList.not_conserved_split hl hin hlong
  exact hnot hcons

/-! ## Growing the heap -/

theorem FreeList.of_sameFields {h h' : Heap} {l : List Nat} (hl : FreeList h l)
    (hs : Heap.SameFields h h' l) : FreeList h' l where
  links := by
    obtain ⟨q, hseg⟩ := hl.links
    rw [hs.head]
    exact ⟨q, hseg.congr hs.next hs.prev⟩
  apart := Heap.pairwise_apart_of_length hl.apart hs.length

/-- The heap has grown: the free list is the same, and so is every byte that was there. -/
structure Grown (h h' : Heap) (l : List Nat) : Prop where
  head : h'.freeLlHead = h.freeLlHead
  list : FreeList h' l
  frame : ∀ x, ¬ (h.brk ≤ x ∧ x < h'.brk) → h'.mem x = h.mem x

section Grow

variable {h h' : Heap} {l : List Nat} {size : Nat}

theorem FreeList.grown (hl : FreeList h l) (hbelow : ∀ a ∈ l, a + headerSize ≤ h.brk)
    (hhead : h'.freeLlHead = h.freeLlHead)
    (hframe : ∀ x, ¬ (h.brk ≤ x ∧ x < h'.brk) → h'.mem x = h.mem x) : Grown h h' l := by
  have hlim := h.brk_le
  have hlt := h.limit_lt
  have hword : ∀ a ∈ l, ∀ w, w + 8 ≤ headerSize → h'.word (a + w) = h.word (a + w) := by
    intro a ha w hw
    have := hbelow a ha
    exact Heap.word_of_below (n := h.brk) (by omega) (fun x hx => hframe x (by omega)) (by omega)
  exact ⟨hhead, hl.of_sameFields (Heap.sameFields_of_word hword hhead), hframe⟩

theorem FreeList.grown_room (hl : FreeList h l) (hbelow : ∀ a ∈ l, a + headerSize ≤ h.brk)
    (hsz : size + headerSize < addrSpace) (hroom : h.brk + (size + headerSize) ≤ h.limit) :
    ∃ r, h.expand size = .ok r ∧ Grown h r.2 l := by
  by_cases hbrk : h.brk = 0
  · obtain ⟨h1, hmem, hhead, -, he⟩ := Heap.expand_zero hsz hroom hbrk
    exact ⟨_, he, hl.grown hbelow hhead fun x _ => by rw [hmem]⟩
  · obtain ⟨h1, hmem, hhead, -, hbrk1, he⟩ := Heap.expand_eq hsz hroom hbrk
    have hlt := h.limit_lt
    have h24 : headerSize = 24 := rfl
    refine ⟨_, he, hl.grown hbelow hhead fun x hx => ?_⟩
    simp only [Heap.store_brk, hbrk1] at hx
    rw [Heap.store_mem_apart _ (by omega) (by omega), Heap.store_mem_apart _ (by omega) (by omega),
      Heap.store_mem_apart _ (by omega) (by omega), hmem]

theorem FreeList.grown_iff (hl : FreeList h l) (hbelow : ∀ a ∈ l, a + headerSize ≤ h.brk)
    (hsz : size + headerSize < addrSpace) :
    (∃ r, h.expand size = .ok r ∧ Grown h r.2 l) ↔ h.brk + (size + headerSize) ≤ h.limit := by
  refine ⟨fun ⟨r, he, _⟩ => ?_, hl.grown_room hbelow hsz⟩
  by_contra hfail
  rw [Heap.expand_failed (by rwa [Nat.mod_eq_of_lt hsz])] at he
  cases he

end Grow

/-! ## The list after a call -/

/-- The block at `c` has been taken off the free list, its remainder in its place if it was split;
nothing was written but the block and the links of its two neighbours. -/
structure Served (h h' : Heap) (l : List Nat) (size c : Nat) : Prop where
  list : FreeList h' (if h.blockLength c ≤ size + headerSize then l.erase c
    else l.replace c (c + headerSize + size))
  frame : ∀ x, ¬ InBlock h c x → ¬ Heap.InLinks (h.prevFreeChunk c) x →
    ¬ Heap.InLinks (h.nextFreeChunk c) x → h'.mem x = h.mem x
  brk : h'.brk = h.brk

section Serve

variable {h : Heap} {pre post : List Nat} {c size : Nat}

theorem FreeList.not_mem_pre (hl : FreeList h (pre ++ c :: post)) : c ∉ pre := fun hmem =>
  (List.nodup_append.mp hl.nodup).2.2 c hmem c List.mem_cons_self rfl

theorem FreeList.served_whole (hl : FreeList h (pre ++ c :: post))
    (hin : InSpace h (pre ++ c :: post)) (hshort : h.blockLength c ≤ size + headerSize) :
    Served h (h.llRemove c) (pre ++ c :: post) size c where
  list := by
    have hlen := (hl.llRemove_relinked hin).length
    have hsub := sublist_without pre post c
    rw [if_pos hshort, List.erase_append_right _ hl.not_mem_pre, List.erase_cons_head]
    exact ⟨hl.llRemove_links hin, Heap.pairwise_apart_of_length (hl.apart.sublist hsub)
      fun a ha => hlen a (hsub.subset ha)⟩
  frame := fun x _ hp hn => hl.llRemove_mem hin hp hn
  brk := h.llRemove_brk c

theorem FreeList.served_split_iff (hl : FreeList h (pre ++ c :: post))
    (hin : InSpace h (pre ++ c :: post)) (hlong : size + headerSize < h.blockLength c) :
    Served h (h.splitBlock size c) (pre ++ c :: post) size c ↔
      ∀ b ∈ pre ++ c :: post, ¬ (c + headerSize + h.blockLength c ≤ b ∧
        b < c + headerSize + h.blockLength c + headerSize) := by
  have hlist : (if h.blockLength c ≤ size + headerSize then (pre ++ c :: post).erase c
      else (pre ++ c :: post).replace c (c + headerSize + size)) =
        pre ++ (c + headerSize + size) :: post := by
    rw [if_neg (by omega), List.replace_append_right hl.not_mem_pre, List.replace_cons_self]
  rw [← hl.splitBlock_apart_iff hin hlong]
  constructor
  · intro hserved
    have hfree := hserved.list
    rw [hlist] at hfree
    exact hfree.apart
  · intro hapart
    refine ⟨?_, fun x hx hp hn => hl.splitBlock_mem hin hlong ?_ hp hn, h.splitBlock_brk size c⟩
    · rw [hlist]
      exact ⟨hl.splitBlock_links hin hlong, hapart⟩
    · unfold InBlock at hx
      omega

end Serve

/-- What `po_malloc` should do: take the first block that is large enough, and call `sbrk` when
there is none. -/
def FirstFitLaw (h : Heap) (l : List Nat) (size : Nat) : Prop :=
  ∀ fuel, l.length < fuel → ∃ r, h.poMalloc fuel size = .ok r ∧
    (∀ c, firstFit h l size = some c →
      r = h.takeFree size c ∧ r.1 = c + headerSize ∧ Served h r.2 l size c) ∧
    (firstFit h l size = none → h.expand size = .ok r ∧ Grown h r.2 l)

theorem firstFitLaw_some_iff {h : Heap} {l : List Nat} {size c : Nat} (hl : FreeList h l)
    (hc : firstFit h l size = some c) (hptr : (h.takeFree size c).1 = c + headerSize) :
    FirstFitLaw h l size ↔ Served h (h.takeFree size c).2 l size c := by
  constructor
  · intro hlaw
    obtain ⟨r, -, hsome, -⟩ := hlaw (l.length + 1) (Nat.lt_succ_self _)
    obtain ⟨rfl, -, hserved⟩ := hsome c hc
    exact hserved
  · intro hserved fuel hfuel
    refine ⟨_, hl.poMalloc_some hc hfuel, fun c' hc' => ?_, fun hnone => ?_⟩
    · obtain rfl : c = c' := Option.some.inj (hc.symm.trans hc')
      exact ⟨rfl, hptr, hserved⟩
    · rw [hc] at hnone
      cases hnone

theorem firstFitLaw_none_iff {h : Heap} {l : List Nat} {size : Nat} (hl : FreeList h l)
    (hc : firstFit h l size = none) :
    FirstFitLaw h l size ↔ ∃ r, h.expand size = .ok r ∧ Grown h r.2 l := by
  constructor
  · intro hlaw
    obtain ⟨r, -, -, hnone⟩ := hlaw (l.length + 1) (Nat.lt_succ_self _)
    exact ⟨r, hnone hc⟩
  · rintro ⟨r, he, hgrown⟩ fuel hfuel
    refine ⟨r, (hl.poMalloc_none hc hfuel).trans he, fun c hc' => ?_, fun _ => ⟨he, hgrown⟩⟩
    rw [hc] at hc'
    cases hc'

/-- **When first fit and the list surgery are right**: exactly when a block that is split has no
other free block within a header's length after its end, and an `sbrk` that is called succeeds. -/
theorem firstFitLaw_iff (h : Heap) (l : List Nat) (size : Nat) (hl : FreeList h l)
    (hin : InSpace h l) (hbelow : ∀ a ∈ l, a + headerSize ≤ h.brk)
    (hsz : size + headerSize < addrSpace) :
    FirstFitLaw h l size ↔
      (∀ c, firstFit h l size = some c → size + headerSize < h.blockLength c →
        ∀ b ∈ l, ¬ (c + headerSize + h.blockLength c ≤ b ∧
          b < c + headerSize + h.blockLength c + headerSize)) ∧
      (firstFit h l size = none → h.brk + (size + headerSize) ≤ h.limit) := by
  cases hc : firstFit h l size with
  | none =>
    rw [firstFitLaw_none_iff hl hc, hl.grown_iff hbelow hsz]
    simp
  | some c =>
    obtain ⟨-, pre, post, rfl⟩ := firstFit_split hc
    have hend := hin c (by simp)
    simp only [Option.some.injEq, forall_eq', reduceCtorEq, false_implies, and_true]
    rcases Nat.lt_or_ge (size + headerSize) (h.blockLength c) with hlong | hshort
    · have htake := Heap.takeFree_split hend hlong
      rw [firstFitLaw_some_iff hl hc (by rw [htake]), htake, hl.served_split_iff hin hlong]
      simp [hlong]
    · have htake := Heap.takeFree_whole hsz hshort
      rw [freeBlockMemory_eq (by omega)] at htake
      rw [firstFitLaw_some_iff hl hc (by rw [htake]), htake]
      exact iff_of_true (hl.served_whole hin hshort) fun hlong => by omega

/-- The only free block is split. -/
theorem firstFitLaw_one_block : FirstFitLaw (oneFree 100) [4096] 10 := by
  have hspace : 114 < addrSpace := by rw [addrSpace_eq]; decide
  refine (firstFitLaw_iff (oneFree 100) [4096] 10 (freeList_oneFree 100)
    (inSpace_oneFree (by decide)) (by simp [oneFree, headerSize]) (by unfold headerSize; omega)).mpr
    ⟨fun c hc _ b hb => ?_, fun hnone => ?_⟩
  · rw [firstFit_oneFree (by omega) (by decide)] at hc
    obtain rfl := Option.some.inj hc
    rw [List.mem_singleton.mp hb]
    unfold headerSize
    omega
  · rw [firstFit_oneFree (by omega) (by decide)] at hnone
    cases hnone

/-- Two free blocks next to each other, of 100 bytes at 4096 and of 50 bytes at 4220. -/
def twoFree : Heap :=
  (((oneFree 100).store 4112 4220).store 4220 50).store 4228 4096

theorem twoFree_fields : twoFree.blockLength 4096 = 100 ∧ twoFree.blockLength 4220 = 50 ∧
    twoFree.prevFreeChunk 4096 = 0 ∧ twoFree.nextFreeChunk 4096 = 4220 ∧
    twoFree.prevFreeChunk 4220 = 4096 ∧ twoFree.nextFreeChunk 4220 = 0 := by
  decide +kernel

theorem freeList_twoFree : FreeList twoFree [4096, 4220] := by
  obtain ⟨hlen, hlen', hprev, hnext, hprev', hnext'⟩ := twoFree_fields
  refine ⟨⟨4220, ?_⟩, ?_⟩
  · show DSeg 0 twoFree.nextFreeChunk twoFree.prevFreeChunk 0 4096 [4096, 4220] 4220 0
    refine .cons (by decide) hprev ?_
    rw [hnext]
    refine .cons (by decide) hprev' ?_
    rw [hnext']
    exact .nil
  · rw [List.pairwise_pair, Heap.Apart, hlen, hlen']
    decide

/-- Splitting the first of two adjacent blocks makes it overlap the second. -/
theorem not_firstFitLaw_adjacent : ¬ ∀ (h : Heap) (l : List Nat) (size : Nat), FreeList h l →
    InSpace h l → (∀ a ∈ l, a + headerSize ≤ h.brk) → size + headerSize < addrSpace →
    FirstFitLaw h l size := by
  intro h
  have hspace : 8192 < addrSpace := by rw [addrSpace_eq]; decide
  obtain ⟨hlen, hlen', -⟩ := twoFree_fields
  have hin : InSpace twoFree [4096, 4220] := by
    simp only [InSpace, List.forall_mem_cons, hlen, hlen', headerSize]
    refine ⟨by omega, by omega, by simp⟩
  have hfit : firstFit twoFree [4096, 4220] 10 = some 4096 := by
    rw [firstFit, List.find?_cons, hlen]
    rfl
  have hlong : 10 + headerSize < twoFree.blockLength 4096 := by rw [hlen]; decide
  have hlaw := h twoFree [4096, 4220] 10 freeList_twoFree hin (by decide)
    (by unfold headerSize; omega)
  have htake := Heap.takeFree_split (hin 4096 (by simp)) hlong
  rw [firstFitLaw_some_iff freeList_twoFree hfit (by rw [htake]), htake] at hlaw
  have hl : FreeList twoFree ([] ++ 4096 :: [4220]) := freeList_twoFree
  have hclear := (hl.served_split_iff hin hlong).mp hlaw 4220 (by simp)
  rw [hlen] at hclear
  exact hclear (by decide)

/-! ## Sizes near the limit -/

/-- The `size` bytes at `p` lie in the heap, which starts at `lo`. -/
def InHeap (lo : Nat) (h : Heap) (p size : Nat) : Prop := ∀ i < size, lo ≤ p + i ∧ p + i < h.brk

section Limit

variable {h : Heap} {l : List Nat} {size lo : Nat}

/-- A block of the free list lies in the heap, and so do the bytes that are handed out. -/
theorem FreeList.inHeap_takeFree (hl : FreeList h l)
    (hin : ∀ a ∈ l, lo ≤ a ∧ a + headerSize + h.blockLength a ≤ h.brk) {c : Nat}
    (hc : firstFit h l size = some c) :
    InHeap lo (h.takeFree size c).2 (h.takeFree size c).1 size := by
  have hlim := h.brk_le
  have hlt := h.limit_lt
  have hspace : InSpace h l := fun a ha => by
    have := hin a ha
    omega
  obtain ⟨hfit, pre, post, rfl⟩ := firstFit_split hc
  have hcin := hin c (by simp)
  have hend := hspace c (by simp)
  have hbytes : ∀ i < size, lo ≤ c + headerSize + i ∧ c + headerSize + i < h.brk :=
    fun i hi => by omega
  rcases Nat.lt_or_ge (size + headerSize) (h.blockLength c) with hlong | hshort
  · rw [Heap.takeFree_split hend hlong, InHeap, Heap.splitBlock_brk]
    exact hbytes
  · rw [Heap.takeFree_whole (by omega) hshort, freeBlockMemory_eq (by omega), InHeap,
      Heap.llRemove_brk]
    exact hbytes

theorem add_header_wrapped {n : Nat} (hn : n < addrSpace) (hwrap : addrSpace ≤ n + headerSize) :
    (n + headerSize) % addrSpace = n + headerSize - addrSpace := by
  have h24 : headerSize = 24 := rfl
  rw [Nat.mod_eq_sub_mod hwrap, Nat.mod_eq_of_lt (by unfold addrSpace at *; omega)]

/-- What is returned, unless it is `NULL`, is followed by `size` bytes of the heap. -/
def HasBytes (lo size : Nat) (r : Except Fault (Nat × Heap)) : Prop :=
  ∀ p h', r = .ok (p, h') → p ≠ 0 → InHeap lo h' p size

/-- Where the memory ends when the heap has grown by the size and a header, modulo `2 ^ 64`. -/
def Heap.grownEnd (h : Heap) (size : Nat) : Nat :=
  (h.brk + (size + headerSize) % addrSpace + pageSize - 1) / pageSize * pageSize

/-- The size wraps, and what is returned is neither `NULL` nor the end of the process. -/
structure Wraps (h : Heap) (size : Nat) : Prop where
  wraps : addrSpace ≤ size + headerSize
  granted : h.brk + (size + headerSize) % addrSpace ≤ h.limit
  mapped : h.brk + headerSize ≤ h.grownEnd size
  ne_null : h.brk + headerSize ≠ addrSpace

/-- After a call of `sbrk`: a pointer past the heap is returned when the size wraps. -/
theorem Heap.hasBytes_expand_iff (hlo : headerSize ≤ lo) (hbrk : lo ≤ h.brk)
    (hsz : size < addrSpace) : HasBytes lo size (h.expand size) ↔ ¬ Wraps h size := by
  have h24 : headerSize = 24 := rfl
  have hlt := h.limit_lt
  have hle := h.brk_le
  by_cases hroom : h.brk + (size + headerSize) % addrSpace ≤ h.limit
  on_goal 2 =>
    refine iff_of_true (fun p h' he => ?_) fun hw => hroom hw.granted
    rw [Heap.expand_failed hroom] at he
    cases he
  obtain ⟨h1, -, -, -, hbrk1, he⟩ := h.expand_room hroom (by omega)
  have hend : h1.pageEnd = h.grownEnd size := by rw [Heap.pageEnd, hbrk1, Heap.grownEnd]
  rw [he, hend]
  by_cases hmapped : h.brk + headerSize ≤ h.grownEnd size
  on_goal 2 =>
    rw [if_neg hmapped]
    exact iff_of_true (fun p h' he => by cases he) fun hw => hmapped hw.mapped
  have hpage := h1.pageEnd_le
  rw [if_pos hmapped]
  rcases Nat.lt_or_ge (size + headerSize) addrSpace with hnowrap | hwrap
  · -- the bytes are those that the heap has grown by
    refine iff_of_true (fun p h' he hne i hi => ?_) fun hw => ?_
    · cases he
      rw [Nat.mod_eq_of_lt hnowrap] at hbrk1 hroom
      simp only [Heap.store_brk, hbrk1]
      rw [freeBlockMemory_eq (by omega)]
      omega
    · have := hw.wraps
      omega
  · have hmod := add_header_wrapped hsz hwrap
    by_cases htop : h.brk + headerSize = addrSpace
    · refine iff_of_true (fun p h' he hne => ?_) fun hw => hw.ne_null htop
      cases he
      rw [freeBlockMemory, htop, Nat.mod_self] at hne
      exact absurd rfl hne
    · -- the pointer lies above the new break
      have hptr : freeBlockMemory h.brk = h.brk + headerSize := freeBlockMemory_eq (by omega)
      refine iff_of_false (fun hbytes => ?_) fun hnot => hnot ⟨hwrap, hroom, hmapped, htop⟩
      have := (hbytes _ _ rfl (by rw [hptr]; omega) 0 (by omega)).2
      simp only [Heap.store_brk, hbrk1, hptr] at this
      omega

end Limit

/-- **When the pointer has its bytes**: what `po_malloc` returns, unless it is `NULL`, is followed
by `size` bytes of the heap, except when no free block is large enough and the size wraps: then the
pointer lies past the heap, if the process outlives the stores of the header. -/
theorem inHeap_iff (h : Heap) (l : List Nat) (lo size : Nat) (hl : FreeList h l)
    (hlo : headerSize ≤ lo) (hbrk : lo ≤ h.brk)
    (hin : ∀ a ∈ l, lo ≤ a ∧ a + headerSize + h.blockLength a ≤ h.brk) (hsz : size < addrSpace) :
    ∃ r, (∀ fuel, l.length < fuel → h.poMalloc fuel size = r) ∧
      (HasBytes lo size r ↔ (∃ a ∈ l, size ≤ h.blockLength a) ∨ ¬ Wraps h size) := by
  cases hc : firstFit h l size with
  | some c =>
    refine ⟨_, fun fuel hfuel => hl.poMalloc_some hc hfuel, ?_⟩
    have hmem := List.mem_of_find?_eq_some hc
    refine iff_of_true (fun p h' he _ => ?_) (.inl ⟨c, hmem, (firstFit_split hc).1⟩)
    have hbytes := hl.inHeap_takeFree hin hc
    rwa [Except.ok.inj he] at hbytes
  | none =>
    refine ⟨_, fun fuel hfuel => hl.poMalloc_none hc hfuel, ?_⟩
    have hnone : ¬ ∃ a ∈ l, size ≤ h.blockLength a := by
      rintro ⟨a, ha, hle⟩
      have := List.find?_eq_none.mp hc a ha
      simp [hle] at this
    rw [h.hasBytes_expand_iff hlo hbrk hsz, or_iff_right hnone]

/-- A block of 100 bytes serves a request for 10. -/
theorem inHeap_from_free_block : ∃ r, (∀ fuel, 1 < fuel → (oneFree 100).poMalloc fuel 10 = r) ∧
    HasBytes 4096 10 r := by
  have hspace : 114 < addrSpace := by rw [addrSpace_eq]; decide
  have hlen := oneFree_blockLength (by omega : 100 < addrSpace)
  obtain ⟨r, hcall, hiff⟩ :=
    inHeap_iff (oneFree 100) [4096] 4096 10 (freeList_oneFree 100) (by decide) (by decide)
      (oneFree_inside (by decide)) (by omega)
  refine ⟨r, hcall, hiff.mpr (.inl ⟨4096, by simp, ?_⟩)⟩
  rw [hlen]
  decide

/-- The largest size wraps to 23 when the header is added, and the request is granted. -/
theorem not_inHeap_largest : ¬ ∀ (h : Heap) (l : List Nat) (lo size : Nat), FreeList h l →
    headerSize ≤ lo → lo ≤ h.brk →
    (∀ a ∈ l, lo ≤ a ∧ a + headerSize + h.blockLength a ≤ h.brk) → size < addrSpace →
    ∃ r, (∀ fuel, l.length < fuel → h.poMalloc fuel size = r) ∧ HasBytes lo size r := by
  intro h
  have hspace : 8192 < addrSpace := by rw [addrSpace_eq]; decide
  have hl := freeList_nil (h := Sys.fresh.heap) rfl
  obtain ⟨r, hcall, hbytes⟩ := h Sys.fresh.heap [] 4096 (addrSpace - 1) hl (by decide) (by decide)
    (by simp) (by omega)
  obtain rfl := (hcall 1 (by decide)).symm.trans (hl.poMalloc_none rfl Nat.zero_lt_one)
  have hmod : (addrSpace - 1 + headerSize) % addrSpace = 23 := by rw [addrSpace_eq]; decide
  have hend : Sys.fresh.heap.grownEnd (addrSpace - 1) = 8192 := by
    rw [Heap.grownEnd, hmod]
    decide
  have hbrk : Sys.fresh.heap.brk = 4096 := rfl
  have hwraps : Wraps Sys.fresh.heap (addrSpace - 1) := by
    refine ⟨?_, ?_, ?_, ?_⟩
    · unfold headerSize
      omega
    · rw [hmod]
      decide
    · rw [hend]
      decide
    · rw [hbrk]
      unfold headerSize
      omega
  exact (Heap.hasBytes_expand_iff (by decide) (by decide) (by omega)).mp hbytes hwraps

/-! ## Running out of memory -/

/-- The call returned `NULL` and changed nothing. -/
def Harmless (h : Heap) (r : Except Fault (Nat × Heap)) : Prop :=
  ∃ h', r = .ok (0, h') ∧ h'.freeLlHead = h.freeLlHead ∧ ∀ x, h'.mem x = h.mem x

/-- **A failed `sbrk` is never reported**: `po_malloc` does not return, but stores a header through
`(void *)-1`. -/
theorem not_harmless (h : Heap) (l : List Nat) (size : Nat) (hl : FreeList h l)
    (hnone : firstFit h l size = none)
    (hfail : ¬ h.brk + (size + headerSize) % addrSpace ≤ h.limit) :
    ∃ r, (∀ fuel, l.length < fuel → h.poMalloc fuel size = r) ∧ r = .error .outOfBounds ∧
      ¬ Harmless h r := by
  refine ⟨_, fun fuel hfuel => hl.poMalloc_none hnone hfuel, Heap.expand_failed hfail, ?_⟩
  rintro ⟨h', he, -⟩
  rw [Heap.expand_failed hfail] at he
  cases he

/-- 100000 bytes from a heap of at most 65536. -/
theorem not_harmless_large_request : ∃ r, (∀ fuel, 0 < fuel →
    Sys.fresh.heap.poMalloc fuel 100000 = r) ∧ r = .error .outOfBounds ∧
      ¬ Harmless Sys.fresh.heap r :=
  not_harmless Sys.fresh.heap [] 100000 (freeList_nil rfl) rfl (by rw [addrSpace_eq]; decide)

/-- The request is not answered with `NULL`. -/
theorem large_request_not_null : ¬ ∀ (h : Heap) (l : List Nat) (size : Nat), FreeList h l →
    firstFit h l size = none → ¬ h.brk + (size + headerSize) % addrSpace ≤ h.limit →
    ∃ r, (∀ fuel, l.length < fuel → h.poMalloc fuel size = r) ∧ Harmless h r := by
  intro h
  have hl := freeList_nil (h := Sys.fresh.heap) rfl
  have hfail : ¬ Sys.fresh.heap.brk + (100000 + headerSize) % addrSpace ≤ Sys.fresh.heap.limit := by
    rw [addrSpace_eq]
    decide
  obtain ⟨r, hcall, h', he, -⟩ := h Sys.fresh.heap [] 100000 hl rfl hfail
  obtain rfl := (hcall 1 (by decide)).symm.trans (hl.poMalloc_none rfl Nat.zero_lt_one)
  rw [Heap.expand_failed hfail] at he
  cases he

end Tlpi.Alloc
