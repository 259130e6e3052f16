import Tlpi.Lib.Lts
import Tlpi.Alloc.Heap

/-!
# A client of the allocator

`Sys` is the heap together with the client's view of it: the allocations that are live, each
with the size that was asked for and the last value the client wrote to each of its bytes. An
operation is a `po_malloc` call, a `po_free` call on a live pointer or a write of one byte
inside a live allocation. `Step` are the operations that return: `po_malloc` for a size whose
`size_plus_header` does not overflow, with `sbrk` succeeding when it is called. A call whose
scan does not end has no step.
-/

namespace Tlpi.Alloc

open Tlpi.Lib

/-- A live allocation: what `po_malloc(size)` returned and what the client wrote since. -/
structure Allocation where
  ptr : Nat
  size : Nat
  data : Nat → Option UInt8

structure Sys where
  heap : Heap
  live : List Allocation

/-- Live allocations are numbered from the most recent one. -/
inductive Op where
  | malloc (size : Nat)
  | free (k : Nat)
  | write (k i : Nat) (v : UInt8)
  deriving DecidableEq

namespace Sys

/-- The initial states: nothing freed and nothing allocated yet. -/
def Init (s : Sys) : Prop := s.heap.freeLlHead = 0 ∧ s.live = []

theorem smallLimit_lt : 65536 < addrSpace := by
  rw [addrSpace_eq]
  decide

/-- A process that has allocated nothing, its heap starting at address 4096. -/
def fresh : Sys :=
  ⟨⟨fun _ => 0, 4096, 65536, 0, by decide, smallLimit_lt⟩, []⟩

theorem init_fresh : fresh.Init := ⟨rfl, rfl⟩

/-- The client keeps what `po_malloc(size)` returned, unless it is `NULL`. -/
def grant (s : Sys) (size : Nat) (r : Nat × Heap) : Sys :=
  { heap := r.2
    live := if r.1 = 0 then s.live else ⟨r.1, size, fun _ => none⟩ :: s.live }

def exec (fuel : Nat) (s : Sys) : Op → Option Sys
  | .malloc size =>
    if size + headerSize < addrSpace ∧
        (s.heap.scan size fuel s.heap.freeLlHead = some 0 →
          s.heap.brk + (size + headerSize) ≤ s.heap.limit) then
      (s.heap.poMalloc fuel size).toOption.map (s.grant size)
    else none
  | .free k => s.live[k]?.map fun al => ⟨s.heap.poFree al.ptr, s.live.eraseIdx k⟩
  | .write k i v => s.live[k]?.bind fun al =>
    if i < al.size then
      some ⟨{ s.heap with mem := storeByte s.heap.mem (al.ptr + i) v },
        s.live.set k { al with data := Function.update al.data i (some v) }⟩
    else none

theorem grant_null (s : Sys) (size : Nat) (h : Heap) : s.grant size (0, h) = ⟨h, s.live⟩ := rfl

theorem grant_block (s : Sys) (size a : Nat) (h : Heap) :
    s.grant size (a + headerSize, h) = ⟨h, ⟨a + headerSize, size, fun _ => none⟩ :: s.live⟩ := by
  simp [grant, headerSize]

end Sys

def Step (s : Sys) (op : Op) (t : Sys) : Prop := ∃ fuel, s.exec fuel op = some t

theorem run_of_execAll {fuel : Nat} {ops : List Op} {s t : Sys}
    (h : execAll (Sys.exec fuel) s ops = some t) : Run Step s ops t :=
  Run.of_execAll (fun _ _ _ he => ⟨fuel, he⟩) h

/-! ## What a step does -/

theorem freeBlockMemory_eq {a : Nat} (ha : a + headerSize < addrSpace) :
    freeBlockMemory a = a + headerSize := Nat.mod_eq_of_lt ha

variable {h : Heap}

theorem Heap.brk_le_pageEnd (h : Heap) : h.brk ≤ h.pageEnd := by
  unfold pageEnd pageSize
  omega

theorem Heap.pageEnd_le (h : Heap) : h.pageEnd ≤ addrSpace := by
  have hle := h.brk_le
  have hlt := h.limit_lt
  rw [addrSpace_eq] at *
  unfold pageEnd pageSize
  omega

/-- The three stores of a header. -/
theorem Heap.storeTop_header (h : Heap) (p size ptr : Nat) :
    (do
      let h ← h.storeTop (p + 16) 0
      let h ← h.storeTop (p + 8) 0
      let h ← h.storeTop p size
      return (ptr, h)) =
      if p + headerSize ≤ h.pageEnd then
        .ok (ptr, ((h.store (p + 16) 0).store (p + 8) 0).store p size)
      else .error .outOfBounds := by
  by_cases hp : p + headerSize ≤ h.pageEnd
  · have h24 : p + headerSize = p + 16 + 8 := rfl
    have h16 : h.storeTop (p + 16) 0 = .ok (h.store (p + 16) 0) := if_pos hp
    have h8 : (h.store (p + 16) 0).storeTop (p + 8) 0 =
        .ok ((h.store (p + 16) 0).store (p + 8) 0) :=
      if_pos (by show p + 8 + 8 ≤ h.pageEnd; omega)
    have h0 : ((h.store (p + 16) 0).store (p + 8) 0).storeTop p size =
        .ok (((h.store (p + 16) 0).store (p + 8) 0).store p size) :=
      if_pos (by show p + 8 ≤ h.pageEnd; omega)
    rw [if_pos hp, h16, ok_bind, h8, ok_bind, h0]
    rfl
  · have hout : h.storeTop (p + 16) 0 = .error .outOfBounds := if_neg hp
    rw [if_neg hp, hout]
    rfl

theorem Heap.expand_room {size : Nat}
    (hroom : h.brk + (size + headerSize) % addrSpace ≤ h.limit) (hbrk : h.brk ≠ 0) :
    ∃ h1 : Heap, h1.mem = h.mem ∧ h1.freeLlHead = h.freeLlHead ∧ h1.limit = h.limit ∧
      h1.brk = h.brk + (size + headerSize) % addrSpace ∧
      h.expand size =
        if h.brk + headerSize ≤ h1.pageEnd then
          .ok (freeBlockMemory h.brk,
            ((h1.store (h.brk + 16) 0).store (h.brk + 8) 0).store h.brk size)
        else .error .outOfBounds := by
  refine ⟨{ h with brk := h.brk + (size + headerSize) % addrSpace, brk_le := hroom },
    rfl, rfl, rfl, rfl, ?_⟩
  rw [← storeTop_header]
  simp only [expand, sbrk, dif_pos hroom, if_neg hbrk]

/-- A failed `sbrk` is not noticed: the header is stored through `(void *)-1`. -/
theorem Heap.expand_failed {size : Nat}
    (hfail : ¬ h.brk + (size + headerSize) % addrSpace ≤ h.limit) :
    h.expand size = .error .outOfBounds := by
  have hne : addrSpace - 1 ≠ 0 := by rw [addrSpace_eq]; decide
  have hend := h.pageEnd_le
  have hout : ¬ addrSpace - 1 + headerSize ≤ h.pageEnd := by
    unfold headerSize
    omega
  have hstore := h.storeTop_header (addrSpace - 1) size (freeBlockMemory (addrSpace - 1))
  rw [if_neg hout] at hstore
  simp only [expand, sbrk, dif_neg hfail, if_neg hne]
  exact hstore

theorem Heap.expand_eq {size : Nat} (hsz : size + headerSize < addrSpace)
    (hroom : h.brk + (size + headerSize) ≤ h.limit) (hbrk : h.brk ≠ 0) :
    ∃ h1 : Heap, h1.mem = h.mem ∧ h1.freeLlHead = h.freeLlHead ∧ h1.limit = h.limit ∧
      h1.brk = h.brk + (size + headerSize) ∧
      h.expand size = .ok (h.brk + headerSize,
        ((h1.store (h.brk + 16) 0).store (h.brk + 8) 0).store h.brk size) := by
  have hlim := h.limit_lt
  have hmod : (size + headerSize) % addrSpace = size + headerSize := Nat.mod_eq_of_lt hsz
  have hroom' : h.brk + (size + headerSize) % addrSpace ≤ h.limit := by rwa [hmod]
  obtain ⟨h1, hmem, hhead, hlimit, hbrk1, he⟩ := expand_room hroom' hbrk
  rw [hmod] at hbrk1
  have hend := h1.brk_le_pageEnd
  refine ⟨h1, hmem, hhead, hlimit, hbrk1, ?_⟩
  rw [he, if_pos (by omega), freeBlockMemory_eq (by omega)]

/-- With the heap at address 0 the block is lost: `po_malloc` takes the break for a failure. -/
theorem Heap.expand_zero {size : Nat} (hsz : size + headerSize < addrSpace)
    (hroom : h.brk + (size + headerSize) ≤ h.limit) (hbrk : h.brk = 0) :
    ∃ h1 : Heap, h1.mem = h.mem ∧ h1.freeLlHead = h.freeLlHead ∧ h.brk ≤ h1.brk ∧
      h.expand size = .ok (0, h1) := by
  refine ⟨{ h with brk := h.brk + (size + headerSize), brk_le := hroom }, rfl, rfl,
    Nat.le_add_right _ _, ?_⟩
  simp only [expand, Nat.mod_eq_of_lt hsz, sbrk, hroom, dif_pos, if_pos hbrk]

theorem Heap.poMalloc_eq_ok {fuel size : Nat} {r : Nat × Heap}
    (hr : h.poMalloc fuel size = .ok r) :
    ∃ c, h.scan size fuel h.freeLlHead = some c ∧
      (c = 0 ∧ h.expand size = .ok r ∨ c ≠ 0 ∧ r = h.takeFree size c) := by
  unfold poMalloc at hr
  split at hr
  · cases hr
  · next hc => exact ⟨0, hc, .inl ⟨rfl, hr⟩⟩
  · next c hne hc => exact ⟨c, hc, .inr ⟨fun e => hne (by rw [e]), (Except.ok.inj hr).symm⟩⟩

theorem Heap.poMalloc_of_null {fuel size : Nat} (hscan : h.scan size fuel h.freeLlHead = some 0) :
    h.poMalloc fuel size = h.expand size := by
  rw [poMalloc, hscan]
  rfl

theorem Heap.poMalloc_of_block {fuel size c : Nat}
    (hscan : h.scan size fuel h.freeLlHead = some c) (hne : c ≠ 0) :
    h.poMalloc fuel size = .ok (h.takeFree size c) := by
  rw [poMalloc, hscan]
  split
  · next heq => cases heq
  · next heq => exact absurd (Option.some.inj heq) hne
  · next heq => rw [Option.some.inj heq]

/-- The scan stops at `NULL` or at a block that is large enough. -/
theorem Heap.le_blockLength_of_scan {size c : Nat} :
    ∀ {fuel a : Nat}, h.scan size fuel a = some c → c ≠ 0 → size ≤ h.blockLength c
  | 0, _, hs, _ => by cases hs
  | fuel + 1, a, hs, hc => by
    unfold scan at hs
    split at hs
    · exact absurd (Option.some.inj hs).symm hc
    · split at hs
      · next hle => rw [← Option.some.inj hs]; exact hle
      · exact le_blockLength_of_scan hs hc

theorem step_malloc {s t : Sys} {size : Nat} (hs : Step s (.malloc size) t) :
    size + headerSize < addrSpace ∧ ∃ fuel c, s.heap.scan size fuel s.heap.freeLlHead = some c ∧
      (c = 0 ∧ s.heap.brk + (size + headerSize) ≤ s.heap.limit ∧
          (∃ r, s.heap.expand size = .ok r ∧ t = s.grant size r) ∨
        c ≠ 0 ∧ size ≤ s.heap.blockLength c ∧ t = s.grant size (s.heap.takeFree size c)) := by
  obtain ⟨fuel, he⟩ := hs
  simp only [Sys.exec] at he
  split at he
  · next hok =>
    obtain ⟨r, hr, rfl⟩ := Option.map_eq_some_iff.mp he
    obtain ⟨c, hc, ⟨rfl, he⟩ | ⟨hne, rfl⟩⟩ := Heap.poMalloc_eq_ok (toOption_eq_some.mp hr)
    · exact ⟨hok.1, fuel, 0, hc, .inl ⟨rfl, hok.2 hc, r, he, rfl⟩⟩
    · exact ⟨hok.1, fuel, c, hc, .inr ⟨hne, Heap.le_blockLength_of_scan hc hne, rfl⟩⟩
  · cases he

theorem step_free {s t : Sys} {k : Nat} (hs : Step s (.free k) t) :
    ∃ al, s.live[k]? = some al ∧ t = ⟨s.heap.poFree al.ptr, s.live.eraseIdx k⟩ := by
  obtain ⟨fuel, he⟩ := hs
  obtain ⟨al, hal, rfl⟩ := Option.map_eq_some_iff.mp he
  exact ⟨al, hal, rfl⟩

theorem step_write {s t : Sys} {k i : Nat} {v : UInt8} (hs : Step s (.write k i v) t) :
    ∃ al, s.live[k]? = some al ∧ i < al.size ∧
      t = ⟨{ s.heap with mem := storeByte s.heap.mem (al.ptr + i) v },
        s.live.set k { al with data := Function.update al.data i (some v) }⟩ := by
  obtain ⟨fuel, he⟩ := hs
  obtain ⟨al, hal, he⟩ := Option.bind_eq_some_iff.mp he
  split at he
  · next hi => exact ⟨al, hal, hi, (Option.some.inj he).symm⟩
  · cases he

end Tlpi.Alloc
