import Mathlib

/-!
# Descriptor tables

The descriptors of a process as a finite partial map to open file descriptions with their
close-on-exec flags, and the calls on it. `limit` bounds the descriptors that may be handed out; a
descriptor that was opened before the limit was lowered may lie above it. `F_DUPFD` takes the lowest
free descriptor from its argument on (`lowestFree`).
-/

namespace Tlpi.Lib

inductive Errno where
  | EBADF
  | EINVAL
  | EMFILE
  deriving DecidableEq

/-- What an open descriptor refers to. -/
structure Desc where
  description : Nat
  cloexec : Bool
  deriving DecidableEq

@[ext]
structure FdTable where
  desc : Int → Option Desc
  limit : Nat
  nonneg : ∀ fd, desc fd ≠ none → 0 ≤ fd
  finite : {fd | desc fd ≠ none}.Finite

namespace FdTable

variable (t : FdTable) (fd arg : Int)

def IsOpen : Prop := t.desc fd ≠ none

instance : Decidable (t.IsOpen fd) := inferInstanceAs (Decidable (_ ≠ _))

/-- `fcntl(fd, F_GETFD)`: the flag `FD_CLOEXEC` is 1. -/
def getFd : Except Errno Int :=
  match t.desc fd with
  | none => .error .EBADF
  | some d => .ok (if d.cloexec then 1 else 0)

theorem eq_or_of_update {f : Int → Option Desc} {fd x : Int} {v : Option Desc}
    (h : Function.update f fd v x ≠ none) : x = fd ∧ v ≠ none ∨ f x ≠ none := by
  rcases eq_or_ne x fd with rfl | hne
  · rw [Function.update_self] at h
    exact .inl ⟨rfl, h⟩
  · rw [Function.update_of_ne hne] at h
    exact .inr h

def remove : FdTable where
  desc := Function.update t.desc fd none
  limit := t.limit
  nonneg := fun x hx => t.nonneg x ((eq_or_of_update hx).resolve_left fun h => h.2 rfl)
  finite := t.finite.subset fun _ hx => (eq_or_of_update hx).resolve_left fun h => h.2 rfl

def insert (fd : Int) (hfd : 0 ≤ fd) (d : Desc) : FdTable where
  desc := Function.update t.desc fd (some d)
  limit := t.limit
  nonneg := fun x hx => (eq_or_of_update hx).elim (fun h => h.1 ▸ hfd) (t.nonneg x)
  finite := (t.finite.insert fd).subset fun _ hx => (eq_or_of_update hx).imp And.left id

/-- `close(fd)` -/
def close : Except Errno Unit × FdTable :=
  match t.desc fd with
  | none => (.error .EBADF, t)
  | some _ => (.ok (), t.remove fd)

/-- How far above `arg` the lowest free descriptor below the limit is. -/
def lowestFree : Option Nat :=
  (List.range (t.limit - arg).toNat).find? fun i => t.desc (arg + i) = none

/-- `fcntl(fd, F_DUPFD, arg)` -/
def dupFd : Except Errno Int × FdTable :=
  match t.desc fd with
  | none => (.error .EBADF, t)
  | some d =>
    if h : 0 ≤ arg ∧ arg < t.limit then
      match t.lowestFree arg with
      | none => (.error .EMFILE, t)
      | some i =>
        (.ok (arg + i),
          t.insert (arg + i) (by omega) { description := d.description, cloexec := false })
    else (.error .EINVAL, t)

/-! ## What the calls do -/

variable {t fd arg} {d : Desc}

theorem isOpen_iff : t.IsOpen fd ↔ ∃ d, t.desc fd = some d := Option.ne_none_iff_exists'

theorem getFd_open (h : t.IsOpen fd) : ∃ flag, t.getFd fd = .ok flag := by
  obtain ⟨d, hd⟩ := isOpen_iff.mp h
  exact ⟨_, by rw [getFd, hd]⟩

theorem getFd_closed (h : ¬ t.IsOpen fd) : t.getFd fd = .error .EBADF := by
  rw [getFd, not_not.mp h]

theorem close_open (h : t.IsOpen fd) : (t.close fd).2 = t.remove fd := by
  obtain ⟨d, hd⟩ := isOpen_iff.mp h
  rw [close, hd]

theorem remove_self : (t.remove fd).desc fd = none := Function.update_self ..

theorem remove_other {x : Int} (h : x ≠ fd) : (t.remove fd).desc x = t.desc x :=
  Function.update_of_ne h ..

theorem insert_self (hfd : 0 ≤ fd) : (t.insert fd hfd d).desc fd = some d := Function.update_self ..

theorem insert_other (hfd : 0 ≤ fd) {x : Int} (h : x ≠ fd) :
    (t.insert fd hfd d).desc x = t.desc x := Function.update_of_ne h ..

theorem remove_ne (h : t.IsOpen fd) : t.remove fd ≠ t := by
  intro heq
  refine h ?_
  rw [← heq, remove_self]

theorem dupFd_outside (hfd : t.IsOpen fd) (h : ¬ (0 ≤ arg ∧ arg < t.limit)) :
    t.dupFd fd arg = (.error .EINVAL, t) := by
  obtain ⟨d, hd⟩ := isOpen_iff.mp hfd
  rw [dupFd, hd]
  exact dif_neg h

/-- **A free descriptor that is asked for is the one that is taken.** -/
theorem dupFd_free (hd : t.desc fd = some d) (h0 : 0 ≤ arg) (hlt : arg < t.limit)
    (hfree : t.desc arg = none) :
    t.dupFd fd arg =
      (.ok arg, t.insert arg h0 { description := d.description, cloexec := false }) := by
  have hlowest : t.lowestFree arg = some 0 := by
    obtain ⟨n, hn⟩ : ∃ n, (t.limit - arg).toNat = n + 1 := ⟨(t.limit - arg).toNat - 1, by omega⟩
    rw [lowestFree, hn, List.range_succ_eq_map, List.find?_cons_of_pos]
    simp [hfree]
  rw [dupFd, hd]
  simp only [h0, hlt, and_self, dif_pos, hlowest]
  simp

theorem dupFd_ok {n : Int} (h : (t.dupFd fd arg).1 = .ok n) :
    arg ≤ n ∧ n < t.limit ∧ t.desc n = none ∧ (∀ x, arg ≤ x → x < n → t.IsOpen x) ∧
      ∃ d, t.desc fd = some d ∧
        (t.dupFd fd arg).2.desc = Function.update t.desc n
          (some { description := d.description, cloexec := false }) := by
  cases hd : t.desc fd with
  | none =>
    rw [dupFd, hd] at h
    cases h
  | some d =>
    rw [dupFd, hd] at h ⊢
    dsimp only at h ⊢
    split at h
    · next hrange =>
      rw [dif_pos hrange]
      cases hlowest : t.lowestFree arg with
      | none =>
        rw [hlowest] at h
        cases h
      | some i =>
        rw [hlowest] at h
        obtain rfl : arg + i = n := Except.ok.inj h
        obtain ⟨hfree, hmem, hmin⟩ := List.find?_range_eq_some.mp hlowest
        rw [List.mem_range] at hmem
        refine ⟨by omega, by omega, of_decide_eq_true hfree, fun x hx hlt => ?_, d, rfl, rfl⟩
        have hopen := hmin (x - arg).toNat (by omega)
        rw [show arg + ((x - arg).toNat : Int) = x by omega] at hopen
        show t.desc x ≠ none
        simpa using hopen
    · cases h

end FdTable

end Tlpi.Lib
