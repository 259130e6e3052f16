import Mathlib

/-!
# Byte-addressed memory with little-endian words

A memory is a function from addresses to bytes over a 64-bit address space: every access
reduces its address modulo `2 ^ 64`. `loadLE m a n` reads the `n`-byte little-endian word
at `a`, `storeLE m a n v` writes one. `InSpan a n x` says that the access of `n` bytes at
`a` touches the address `x`. A store changes its own span only (`storeLE_out`), and a load
reads its own span only (`loadLE_congr`); everything else about overlapping accesses
follows from the two.
-/

namespace Tlpi.Lib

/-- The number of addresses. -/
@[irreducible] def addrSpace : Nat := 2 ^ 64

theorem addrSpace_eq : addrSpace = 256 ^ 8 := by unfold addrSpace; rfl

abbrev Mem := Nat → UInt8

def loadByte (m : Mem) (a : Nat) : UInt8 := m (a % addrSpace)

def storeByte (m : Mem) (a : Nat) (b : UInt8) : Mem := fun x => if x = a % addrSpace then b else m x

def loadLE (m : Mem) : Nat → Nat → Nat
  | _, 0 => 0
  | a, n + 1 => (loadByte m a).toNat + 256 * loadLE m (a + 1) n

def storeLE (m : Mem) : Nat → Nat → Nat → Mem
  | _, 0, _ => m
  | a, n + 1, v => storeLE (storeByte m a (UInt8.ofNat v)) (a + 1) n (v / 256)

/-- The access of `n` bytes at `a` touches `x`. -/
def InSpan (a n x : Nat) : Prop := ∃ i, i < n ∧ x = (a + i) % addrSpace

theorem inSpan_iff {a n x : Nat} (h : a + n ≤ addrSpace) : InSpan a n x ↔ a ≤ x ∧ x < a + n := by
  constructor
  · rintro ⟨i, hi, rfl⟩
    rw [Nat.mod_eq_of_lt (by omega)]
    omega
  · rintro ⟨h1, h2⟩
    exact ⟨x - a, by omega, by rw [Nat.mod_eq_of_lt (by omega)]; omega⟩

/-! ## Stores -/

theorem storeByte_same (m : Mem) (a : Nat) (b : UInt8) : storeByte m a b (a % addrSpace) = b := by
  simp [storeByte]

theorem storeByte_other (m : Mem) {a x : Nat} (b : UInt8) (h : x ≠ a % addrSpace) :
    storeByte m a b x = m x := by
  simp [storeByte, h]

theorem loadByte_storeByte_same (m : Mem) (a : Nat) (b : UInt8) :
    loadByte (storeByte m a b) a = b := storeByte_same m a b

theorem loadByte_storeByte_other (m : Mem) {a x : Nat} (b : UInt8) (ha : a < addrSpace)
    (hx : x < addrSpace) (h : x ≠ a) : loadByte (storeByte m a b) x = loadByte m x :=
  storeByte_other m b (by rwa [Nat.mod_eq_of_lt ha, Nat.mod_eq_of_lt hx])

theorem storeLE_out {x : Nat} : ∀ {n : Nat} {m : Mem} {a v : Nat}, ¬ InSpan a n x →
    storeLE m a n v x = m x
  | 0, _, _, _, _ => rfl
  | n + 1, m, a, v, h => by
    have h1 : x ≠ a % addrSpace := fun e => h ⟨0, by omega, e⟩
    have h2 : ¬ InSpan (a + 1) n x := by
      rintro ⟨i, hi, e⟩
      exact h ⟨i + 1, by omega, by rw [e]; congr 1; omega⟩
    rw [storeLE, storeLE_out h2, storeByte_other _ _ h1]

/-- Storing zero leaves every byte as it was or makes it zero. -/
theorem storeLE_zero {x : Nat} : ∀ {n : Nat} {m : Mem} {a : Nat}, m x = 0 → storeLE m a n 0 x = 0
  | 0, _, _, h => h
  | n + 1, m, a, h => by
    rw [storeLE]
    refine storeLE_zero ?_
    unfold storeByte
    split
    · rfl
    · exact h

theorem storeLE_zero_self {x : Nat} : ∀ {n : Nat} {m : Mem} {a : Nat}, InSpan a n x →
    storeLE m a n 0 x = 0
  | 0, _, _, h => by obtain ⟨i, hi, _⟩ := h; omega
  | n + 1, m, a, h => by
    obtain ⟨i, hi, e⟩ := h
    rw [storeLE]
    rcases i with _ | i
    · exact storeLE_zero (by rw [e]; exact storeByte_same m a _)
    · exact storeLE_zero_self ⟨i, by omega, by rw [e]; congr 1; omega⟩

/-! ## Loads -/

theorem loadLE_congr {m m' : Mem} : ∀ {n a : Nat}, (∀ x, InSpan a n x → m' x = m x) →
    loadLE m' a n = loadLE m a n
  | 0, _, _ => rfl
  | n + 1, a, h => by
    have h0 : loadByte m' a = loadByte m a := h _ ⟨0, by omega, rfl⟩
    have h1 : loadLE m' (a + 1) n = loadLE m (a + 1) n := loadLE_congr fun x hx => by
      obtain ⟨i, hi, e⟩ := hx
      exact h x ⟨i + 1, by omega, by rw [e]; congr 1; omega⟩
    rw [loadLE, loadLE, h0, h1]

theorem loadLE_lt (m : Mem) : ∀ (n a : Nat), loadLE m a n < 256 ^ n
  | 0, _ => by simp [loadLE]
  | n + 1, a => by
    have h0 := (loadByte m a).toNat_lt
    have h1 := loadLE_lt m n (a + 1)
    rw [loadLE, Nat.pow_succ]
    omega

theorem loadLE_eq_zero {m : Mem} : ∀ {n a : Nat}, loadLE m a n = 0 ↔ ∀ x, InSpan a n x → m x = 0
  | 0, a => by simp [loadLE, InSpan]
  | n + 1, a => by
    have ih := loadLE_eq_zero (m := m) (n := n) (a := a + 1)
    rw [loadLE]
    constructor
    · intro h x hx
      obtain ⟨i, hi, rfl⟩ := hx
      rcases i with _ | i
      · exact UInt8.toNat_inj.mp (by simp only [loadByte] at h; simp; omega)
      · exact ih.mp (by omega) _ ⟨i, by omega, by congr 1; omega⟩
    · intro h
      have h0 : loadByte m a = 0 := h _ ⟨0, by omega, rfl⟩
      have h1 : loadLE m (a + 1) n = 0 := ih.mpr fun x hx => by
        obtain ⟨i, hi, e⟩ := hx
        exact h x ⟨i + 1, by omega, by rw [e]; congr 1; omega⟩
      simp [h0, h1]

/-- **A word reads back.** -/
theorem loadLE_storeLE_same : ∀ {n : Nat} (m : Mem) (a v : Nat), n ≤ addrSpace →
    loadLE (storeLE m a n v) a n = v % 256 ^ n
  | 0, _, _, v, _ => by simp [loadLE, Nat.mod_one]
  | n + 1, m, a, v, h => by
    have hout : ¬ InSpan (a + 1) n (a % addrSpace) := by
      rintro ⟨i, hi, e⟩
      unfold addrSpace at e h
      omega
    have h0 : loadByte (storeLE m a (n + 1) v) a = UInt8.ofNat v := by
      rw [loadByte, storeLE, storeLE_out hout, storeByte_same]
    rw [loadLE, h0, storeLE, loadLE_storeLE_same _ _ _ (by omega), Nat.pow_succ,
      Nat.mul_comm (256 ^ n), Nat.mod_mul]
    simp

theorem loadLE_storeLE_other {m : Mem} {a b n k v : Nat} (h : ∀ x, InSpan a n x → ¬ InSpan b k x) :
    loadLE (storeLE m b k v) a n = loadLE m a n :=
  loadLE_congr fun x hx => storeLE_out (h x hx)

theorem loadLE_storeLE_apart {m : Mem} {a b n k v : Nat} (ha : a + n ≤ addrSpace)
    (hb : b + k ≤ addrSpace) (h : a + n ≤ b ∨ b + k ≤ a) :
    loadLE (storeLE m b k v) a n = loadLE m a n :=
  loadLE_storeLE_other fun x h1 h2 => by
    rw [inSpan_iff ha] at h1
    rw [inSpan_iff hb] at h2
    omega

theorem loadLE_storeByte_apart {m : Mem} {a b n : Nat} {v : UInt8} (ha : a + n ≤ addrSpace)
    (hb : b < addrSpace) (h : b < a ∨ a + n ≤ b) :
    loadLE (storeByte m b v) a n = loadLE m a n :=
  loadLE_congr fun x hx => storeByte_other _ _ (by
    rw [inSpan_iff ha] at hx
    rw [Nat.mod_eq_of_lt hb]
    omega)

-- Unification would otherwise run the word accesses byte by byte.
attribute [irreducible] loadLE storeLE

end Tlpi.Lib
