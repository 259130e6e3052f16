import Tlpi.Alloc.Integrity

/-!
# Last-in first-out reuse

`simple_free_test` expects that allocations after freeing everything do not move the break. The law
behind it: blocks that are allocated with nothing on the free list and then freed, in any order,
come back when the same sizes are requested in the reverse order, each at its old address
(`reuses_freed`). Every request finds its block at the head of the list, and the length that the
header announces is exactly the size asked for, so nothing is split. The back pointers that
`po_free` gets wrong are not read: the head of the list has none.

The client may write to its allocations at any time (`Writes`).
-/

namespace Tlpi.Alloc

open Tlpi.Lib

/-- What a request was granted. -/
structure Grant where
  size : Nat
  ptr : Nat

/-- The client writes to its allocations. -/
inductive Writes : Sys → Sys → Prop where
  | refl (s : Sys) : Writes s s
  | step {s t u : Sys} {k i : Nat} {v : UInt8} :
      Writes s t → Step t (.write k i v) u → Writes s u

/-- Requests one after the other, granted as `gs`. -/
inductive Allocates : Sys → List Grant → Sys → Prop where
  | nil {s t : Sys} : Writes s t → Allocates s [] t
  | cons {s s1 s2 t : Sys} {g : Grant} {gs : List Grant} :
      Writes s s1 → Step s1 (.malloc g.size) s2 →
      s2.live = ⟨g.ptr, g.size, fun _ => none⟩ :: s1.live → Allocates s2 gs t →
      Allocates s (g :: gs) t

/-- The grants `gs` are freed one after the other. -/
inductive Frees : Sys → List Grant → Sys → Prop where
  | nil {s t : Sys} : Writes s t → Frees s [] t
  | cons {s s1 s2 t : Sys} {k : Nat} {al : Allocation} {gs : List Grant} :
      Writes s s1 → s1.live[k]? = some al → Step s1 (.free k) s2 → Frees s2 gs t →
      Frees s (⟨al.size, al.ptr⟩ :: gs) t

/-- Whatever the client writes meanwhile, the requests return, one after the other, the grants `gs`,
the break stays where it is, and then the free list is empty. -/
def Reuses (brk : Nat) : List Grant → Sys → Prop
  | [], s => ∀ t, Writes s t → t.heap.freeLlHead = 0 ∧ t.heap.brk = brk
  | g :: gs, s => ∀ t, Writes s t → (∃ u, Step t (.malloc g.size) u) ∧
      ∀ u, Step t (.malloc g.size) u →
        u.live = ⟨g.ptr, g.size, fun _ => none⟩ :: t.live ∧ u.heap.brk = brk ∧ Reuses brk gs u

/-! ## Blocks of the exact length -/

def Grant.header (g : Grant) : Nat := g.ptr - headerSize

/-- The blocks of the grants `gs` are there, free or live, and have the lengths asked for. -/
structure Owned (s : Sys) (fl : List Nat) (gs : List Grant) : Prop where
  inv : Inv s.heap s.live fl
  block : ∀ g ∈ gs, g.header ∈ fl ++ headers s.live
  length : ∀ g ∈ gs, s.heap.blockLength g.header = g.size
  ptr : ∀ g ∈ gs, headerSize < g.ptr
  size : ∀ g ∈ gs, g.size + headerSize < addrSpace

section Owned

variable {s t : Sys} {fl fl' : List Nat} {gs gs' : List Grant}

theorem Owned.mono (ho : Owned s fl gs) (hsub : gs' ⊆ gs) : Owned s fl gs' :=
  ⟨ho.inv, fun g hg => ho.block g (hsub hg), fun g hg => ho.length g (hsub hg),
    fun g hg => ho.ptr g (hsub hg), fun g hg => ho.size g (hsub hg)⟩

theorem Owned.transfer (ho : Owned s fl gs) (hi : Inv t.heap t.live fl')
    (hsub : fl ++ headers s.live ⊆ fl' ++ headers t.live)
    (hlen : ∀ a ∈ fl ++ headers s.live, t.heap.blockLength a = s.heap.blockLength a) :
    Owned t fl' gs :=
  ⟨hi, fun g hg => hsub (ho.block g hg),
    fun g hg => (hlen _ (ho.block g hg)).trans (ho.length g hg), ho.ptr, ho.size⟩

theorem Owned.write {k i : Nat} {v : UInt8} (ho : Owned s fl gs)
    (hstep : Step s (.write k i v) t) : Owned t fl gs ∧ t.heap.brk = s.heap.brk := by
  obtain ⟨al, hal, hin, rfl⟩ := step_write hstep
  refine ⟨ho.transfer (ho.inv.write hal hin) ?_ fun a ha => ?_, rfl⟩
  · rw [headers_set hal]
    exact fun _ ha => ha
  · exact ho.inv.write_word v hal hin a ha 0 (by decide)

theorem Owned.writes (ho : Owned s fl gs) (hw : Writes s t) :
    Owned t fl gs ∧ t.heap.brk = s.heap.brk := by
  induction hw with
  | refl => exact ⟨ho, rfl⟩
  | step _ hstep ih =>
    obtain ⟨ho, hbrk⟩ := ih
    obtain ⟨ho', hbrk'⟩ := ho.write hstep
    exact ⟨ho', hbrk'.trans hbrk⟩

theorem Owned.freeLlHead (ho : Owned s [] gs) : s.heap.freeLlHead = 0 := ho.inv.chain.of_nil

theorem Owned.malloc {g : Grant} (ho : Owned s [] gs) (hstep : Step s (.malloc g.size) t)
    (hlive : t.live = ⟨g.ptr, g.size, fun _ => none⟩ :: s.live) : Owned t [] (g :: gs) := by
  obtain ⟨hsz, fuel, c, hscan, ⟨-, hroom, r, hr, rfl⟩ | ⟨hne, -, -⟩⟩ := step_malloc hstep
  · by_cases hbrk : s.heap.brk = 0
    · obtain ⟨h1, -, -, -, he⟩ := Heap.expand_zero hsz hroom hbrk
      obtain rfl := Except.ok.inj (hr.symm.trans he)
      rw [Sys.grant_null] at hlive
      exact absurd (congrArg List.length hlive) (by simp)
    · obtain ⟨h2, he, hbelow, hhead, -, hbrk', hlen⟩ := Heap.expand_above hsz hroom hbrk
      have hinv := ho.inv.expand hbelow hhead hbrk' hlen hbrk
      have hsame := ho.inv.blocks.sameBlocks_below hbelow (by omega)
      obtain rfl := Except.ok.inj (hr.symm.trans he)
      rw [Sys.grant_block] at hlive ⊢
      have hptr : g.ptr = s.heap.brk + headerSize := by
        simp only [List.cons.injEq, Allocation.mk.injEq] at hlive
        exact hlive.1.1.symm
      have hheader : g.header = s.heap.brk := by rw [Grant.header, hptr, Nat.add_sub_cancel]
      have ho' := ho.transfer (t := ⟨_, _⟩) hinv (by simp [headers]) hsame.length
      refine ⟨hinv, List.forall_mem_cons.mpr ⟨?_, ho'.block⟩,
        List.forall_mem_cons.mpr ⟨?_, ho'.length⟩, List.forall_mem_cons.mpr ⟨by omega, ho'.ptr⟩,
        List.forall_mem_cons.mpr ⟨hsz, ho'.size⟩⟩
      · rw [hheader]
        simp [headers]
      · rw [hheader]
        exact hlen
  · rw [ho.freeLlHead] at hscan
    cases fuel with
    | zero => cases hscan
    | succ fuel => exact absurd (Option.some.inj hscan).symm hne

theorem Owned.free {k : Nat} {al : Allocation} (ho : Owned s fl gs) (hal : s.live[k]? = some al)
    (hstep : Step s (.free k) t) :
    Owned t ((al.ptr - headerSize) :: fl) gs ∧ t.heap.brk = s.heap.brk := by
  obtain ⟨al', hal', rfl⟩ := step_free hstep
  obtain rfl : al = al' := Option.some.inj (hal.symm.trans hal')
  exact ⟨ho.transfer (ho.inv.free hal) (headers_eraseIdx_perm fl hal).subset
    (ho.inv.free_same hal).length, s.heap.poFree_brk al.ptr⟩

theorem Owned.scan {g : Grant} {rest : List Nat} (ho : Owned s (g.header :: rest) gs) (hg : g ∈ gs)
    (fuel : Nat) :
    s.heap.freeLlHead = g.header ∧ g.header ≠ 0 ∧
      s.heap.scan g.size (fuel + 1) s.heap.freeLlHead = some g.header := by
  obtain ⟨hhead, hne⟩ := ho.inv.chain.of_cons
  refine ⟨hhead, hne, ?_⟩
  rw [hhead, Heap.scan, if_neg hne, if_pos (ho.length g hg).ge]

/-- **A request for the size of the first free block** gets that block. -/
theorem Owned.request {g : Grant} {rest : List Nat} (ho : Owned s (g.header :: rest) gs)
    (hg : g ∈ gs) :
    (∃ t, Step s (.malloc g.size) t) ∧ ∀ t, Step s (.malloc g.size) t →
      t.live = ⟨g.ptr, g.size, fun _ => none⟩ :: s.live ∧ t.heap.brk = s.heap.brk ∧
        Owned t rest gs := by
  obtain ⟨hhead, hne, hscan⟩ := ho.scan hg 0
  have hsz := ho.size g hg
  have hlen := ho.length g hg
  constructor
  · have hcall : s.heap.poMalloc 1 g.size = .ok (s.heap.takeFree g.size g.header) :=
      Heap.poMalloc_of_block hscan hne
    refine ⟨s.grant g.size (s.heap.takeFree g.size g.header), 1, ?_⟩
    rw [Sys.exec, if_pos ⟨hsz, fun hnull => absurd (Option.some.inj (hscan.symm.trans hnull)) hne⟩,
      hcall]
    rfl
  · intro t hstep
    have hscan_all : ∀ fuel c, s.heap.scan g.size fuel s.heap.freeLlHead = some c →
        c = g.header := by
      intro fuel c hc
      cases fuel with
      | zero => cases hc
      | succ fuel => exact Option.some.inj (hc.symm.trans (ho.scan hg fuel).2.2)
    obtain ⟨-, fuel, c, hscan', ⟨rfl, -, -⟩ | ⟨-, -, rfl⟩⟩ := step_malloc hstep
    · exact absurd (hscan_all fuel 0 hscan').symm hne
    · obtain rfl := hscan_all fuel c hscan'
      have hlt := ho.inv.head_lt
      have hptr := ho.ptr g hg
      have hsame := ho.inv.takeHead_same (by rwa [hhead])
      have hfit : g.size ≤ s.heap.blockLength s.heap.freeLlHead := by
        rw [hhead]
        exact hlen.ge
      obtain ⟨rest', hrest, hinv⟩ := ho.inv.takeHead (by rwa [hhead]) hfit
      obtain rfl : rest = rest' := (List.cons.inj hrest).2
      rw [hhead] at hlt hsame hinv
      rw [Heap.takeFree_whole hsz (by omega), freeBlockMemory_eq hlt, Sys.grant_block]
      refine ⟨?_, s.heap.llRemove_brk _, ho.transfer hinv ?_ hsame.length⟩
      · rw [Grant.header, Nat.sub_add_cancel hptr.le]
      · simp [headers]

end Owned

/-! ## The three phases -/

theorem Owned.allocates {s t : Sys} {gs new : List Grant} (ho : Owned s [] gs)
    (ha : Allocates s new t) : Owned t [] (new ++ gs) := by
  induction ha generalizing gs with
  | nil hw => exact (ho.writes hw).1
  | @cons s s1 s2 t g new hw hstep hlive _ ih =>
    refine (ih ((ho.writes hw).1.malloc hstep hlive)).mono fun g' hg' => ?_
    simp only [List.cons_append, List.mem_cons, List.mem_append] at hg' ⊢
    tauto

theorem Owned.frees {s t : Sys} {fl : List Nat} {gs freed : List Grant} (ho : Owned s fl gs)
    (hf : Frees s freed t) :
    Owned t (freed.reverse.map Grant.header ++ fl) gs ∧ t.heap.brk = s.heap.brk := by
  induction hf generalizing fl with
  | nil hw => exact ho.writes hw
  | @cons s s1 s2 t k al freed hw hal hstep _ ih =>
    obtain ⟨ho1, hbrk1⟩ := ho.writes hw
    obtain ⟨ho2, hbrk2⟩ := ho1.free hal hstep
    obtain ⟨ho3, hbrk3⟩ := ih ho2
    refine ⟨?_, by rw [hbrk3, hbrk2, hbrk1]⟩
    rw [List.reverse_cons, List.map_append, List.append_assoc]
    exact ho3

theorem Owned.reuses {s : Sys} {gs reqs : List Grant} (ho : Owned s (reqs.map Grant.header) gs)
    (hsub : reqs ⊆ gs) : Reuses s.heap.brk reqs s := by
  induction reqs generalizing s with
  | nil =>
    intro t hw
    obtain ⟨ho', hbrk⟩ := ho.writes hw
    exact ⟨ho'.freeLlHead, hbrk⟩
  | cons g reqs ih =>
    intro t hw
    obtain ⟨ho', hbrk⟩ := ho.writes hw
    obtain ⟨hreturns, hgranted⟩ := ho'.request (hsub List.mem_cons_self)
    refine ⟨hreturns, fun u hstep => ?_⟩
    obtain ⟨hlive, hbrk', hou⟩ := hgranted u hstep
    refine ⟨hlive, hbrk'.trans hbrk, ?_⟩
    rw [← hbrk, ← hbrk']
    exact ih hou fun g hg => hsub (List.mem_cons_of_mem _ hg)

/-- **Last-in first-out reuse.** Blocks allocated with nothing on the free list and then all freed,
in any order, are handed out again, each at its address, when their sizes are requested in the
reverse order; the break does not move and the free list is empty in the end. -/
theorem reuses_freed (s t u : Sys) (gs freed : List Grant) (hs : Inv s.heap s.live [])
    (halloc : Allocates s gs t) (hfree : Frees t freed u) (hperm : freed.Perm gs) :
    u.heap.brk = t.heap.brk ∧ Reuses t.heap.brk freed.reverse u := by
  have hstart : Owned s [] [] := ⟨hs, nofun, nofun, nofun, nofun⟩
  obtain ⟨hou, hbrk⟩ := (hstart.allocates halloc).frees hfree
  rw [List.append_nil] at hou
  refine ⟨hbrk, ?_⟩
  rw [← hbrk]
  refine hou.reuses fun g hg => ?_
  rw [List.append_nil]
  exact hperm.subset (List.mem_reverse.mp hg)

theorem step_malloc_top {s : Sys} {size : Nat} (hhead : s.heap.freeLlHead = 0)
    (hsz : size + headerSize < addrSpace)
    (hroom : s.heap.brk + (size + headerSize) ≤ s.heap.limit) (hbrk : s.heap.brk ≠ 0) :
    ∃ h2 : Heap, Step s (.malloc size) ⟨h2,
        ⟨s.heap.brk + headerSize, size, fun _ => none⟩ :: s.live⟩ ∧
      h2.freeLlHead = 0 ∧ h2.limit = s.heap.limit ∧ h2.brk = s.heap.brk + (size + headerSize) := by
  obtain ⟨h2, he, -, hhead2, hlimit, hbrk2, -⟩ := Heap.expand_above hsz hroom hbrk
  refine ⟨h2, ⟨1, ?_⟩, hhead2.trans hhead, hlimit, hbrk2⟩
  have hcall : s.heap.poMalloc 1 size = s.heap.expand size :=
    Heap.poMalloc_of_null (by rw [hhead]; rfl)
  rw [Sys.exec, if_pos ⟨hsz, fun _ => hroom⟩, hcall, he]
  exact congrArg some (s.grant_block size _ h2)

/-- Two blocks, freed in the order of their allocation. -/
theorem reuses_two_blocks : ∃ t u, Allocates Sys.fresh [⟨8, 4120⟩, ⟨4, 4152⟩] t ∧
    Frees t [⟨8, 4120⟩, ⟨4, 4152⟩] u ∧ u.heap.brk = t.heap.brk ∧
      Reuses t.heap.brk [⟨4, 4152⟩, ⟨8, 4120⟩] u := by
  have hspace : 4156 < addrSpace := by rw [addrSpace_eq]; decide
  have hsz : 8 + headerSize < addrSpace := by unfold headerSize; omega
  have hroom : Sys.fresh.heap.brk + (8 + headerSize) ≤ Sys.fresh.heap.limit := by decide
  obtain ⟨heap1, h1, hhead1, hlimit1, hbrk1⟩ :=
    step_malloc_top (s := Sys.fresh) rfl hsz hroom (by decide)
  have hsz2 : 4 + headerSize < addrSpace := by unfold headerSize; omega
  obtain ⟨heap2, h2, -⟩ := step_malloc_top (s := ⟨heap1, [⟨4120, 8, fun _ => none⟩]⟩)
    hhead1 hsz2 (by rw [hbrk1, hlimit1]; decide) (by rw [hbrk1]; decide)
  rw [hbrk1] at h2
  have h3 : Step ⟨heap2, [⟨4152, 4, fun _ => none⟩, ⟨4120, 8, fun _ => none⟩]⟩ (.free 1)
      ⟨heap2.poFree 4120, [⟨4152, 4, fun _ => none⟩]⟩ := ⟨0, rfl⟩
  have h4 : Step ⟨heap2.poFree 4120, [⟨4152, 4, fun _ => none⟩]⟩ (.free 0)
      ⟨(heap2.poFree 4120).poFree 4152, []⟩ := ⟨0, rfl⟩
  have halloc : Allocates Sys.fresh [⟨8, 4120⟩, ⟨4, 4152⟩]
      ⟨heap2, [⟨4152, 4, fun _ => none⟩, ⟨4120, 8, fun _ => none⟩]⟩ :=
    .cons (.refl _) h1 rfl (.cons (.refl _) h2 rfl (.nil (.refl _)))
  have hfree : Frees ⟨heap2, [⟨4152, 4, fun _ => none⟩, ⟨4120, 8, fun _ => none⟩]⟩
      [⟨8, 4120⟩, ⟨4, 4152⟩] ⟨(heap2.poFree 4120).poFree 4152, []⟩ :=
    .cons (.refl _) rfl h3 (.cons (.refl _) rfl h4 (.nil (.refl _)))
  exact ⟨_, _, halloc, hfree, reuses_freed _ _ _ _ _
    (Inv.init Sys.init_fresh) halloc hfree (.refl _)⟩

end Tlpi.Alloc
