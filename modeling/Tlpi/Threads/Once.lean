import Tlpi.Lib.Lts
import Tlpi.Lib.Threads

/-!
# One-time initialisation

`one_time_init` of `tlpi-dist/threads/one_time_init.c`, called by any number of threads, each as
often as it likes (the threads of the program: twice). The initialisation function may take its
time: it begins in one step and comes to its end in another one.

Whoever calls first initialises, and while it does, the others wait for the mutex (`Inv.once`). So
the initialisation begins once, and every call that returns, returns after its end
(`once_correct`).
-/

namespace Tlpi.OneTimeInit

open Tlpi.Lib

inductive Pc where
  /-- Before the next call, if there is one. -/
  | call
  | lock
  /-- At `!once_control->called`. -/
  | test
  /-- In `(*init)()`. -/
  | init
  /-- At `once_control->called = 1`. -/
  | set
  | unlock
  | ended
  deriving DecidableEq

/-- A thread, and how many of its calls have returned. -/
structure Thread where
  pc : Pc
  returned : Nat

/-- `struct once_struct`, and how often the initialisation has begun and come to its end. -/
structure Shared (ι : Type*) where
  mtx : Option ι
  called : Bool
  begun : Nat
  done : Nat

abbrev Sys (ι : Type*) := Conf ι (Shared ι) Thread

variable {ι : Type*} [DecidableEq ι] (calls : ι → Nat)

/-- The next step of thread `i`. -/
def oneTimeInit (i : ι) (s : Shared ι) (t : Thread) : Option (Shared ι × Thread) :=
  match t.pc with
  | .call => some (s, { t with pc := if t.returned < calls i then .lock else .ended })
  | .lock => if s.mtx = none then some ({ s with mtx := some i }, { t with pc := .test }) else none
  | .test =>
    if s.called = false then some ({ s with begun := s.begun + 1 }, { t with pc := .init })
    else some (s, { t with pc := .unlock })
  | .init => some ({ s with done := s.done + 1 }, { t with pc := .set })
  | .set => some ({ s with called := true }, { t with pc := .unlock })
  | .unlock =>
    if s.mtx = some i then
      some ({ s with mtx := none }, { pc := .call, returned := t.returned + 1 })
    else none
  | .ended => none

def exec (c : Sys ι) (i : ι) : Option (Sys ι) :=
  (oneTimeInit calls i c.shared (c.own i)).map fun r => c.set i r.1 r.2

def Step (c : Sys ι) (i : ι) (c' : Sys ι) : Prop := exec calls c i = some c'

/-- `ONCE_INITIALISER` -/
def start : Sys ι where
  shared := { mtx := none, called := false, begun := 0, done := 0 }
  own _ := { pc := .call, returned := 0 }

def Ended (c : Sys ι) : Prop := ∀ i, (c.own i).pc = .ended

/-! ## What every step keeps -/

variable {calls} {c c' : Sys ι} {i : ι}

def Pc.Inside (pc : Pc) : Prop := pc = .test ∨ pc = .init ∨ pc = .set ∨ pc = .unlock

/-- A thread, `called` as it is: what it has seen. -/
structure ThreadOk (calls : Nat) (called : Bool) (t : Thread) : Prop where
  le : t.returned ≤ calls
  lt : t.pc ≠ .call → t.pc ≠ .ended → t.returned < calls
  ended : t.pc = .ended → t.returned = calls
  called : t.pc = .unlock ∨ 0 < t.returned → called = true

/-- How far the initialisation is, `o` being the owner of the mutex. -/
def OnceOk (s : Shared ι) (own : ι → Thread) : Prop :=
  if s.called then s.begun = 1 ∧ s.done = 1 ∧ ∀ i, (own i).pc ≠ .init ∧ (own i).pc ≠ .set
  else match s.mtx with
    | none => s.begun = 0 ∧ s.done = 0
    | some o => ((own o).pc = .test ∧ s.begun = 0 ∧ s.done = 0) ∨
        ((own o).pc = .init ∧ s.begun = 1 ∧ s.done = 0) ∨
        ((own o).pc = .set ∧ s.begun = 1 ∧ s.done = 1)

structure Inv (calls : ι → Nat) (c : Sys ι) : Prop where
  thread : ∀ i, ThreadOk (calls i) c.shared.called (c.own i)
  excl : c.Excl (fun s i => s.mtx = some i) fun t => t.pc.Inside
  once : OnceOk c.shared c.own

omit [DecidableEq ι] in
theorem inv_start : Inv calls (start : Sys ι) where
  thread i := ⟨Nat.zero_le _, fun h => absurd rfl h, by simp [start], by simp [start]⟩
  excl i := by simp [start, Pc.Inside]
  once := by simp [OnceOk, start]

/-- The steps of a thread, one constructor for each. -/
inductive ThreadStep (calls : Nat) (i : ι) (s : Shared ι) (t : Thread) :
    Shared ι → Thread → Prop where
  | call (hpc : t.pc = .call) :
      ThreadStep calls i s t s { t with pc := if t.returned < calls then .lock else .ended }
  | lock (hpc : t.pc = .lock) (hm : s.mtx = none) :
      ThreadStep calls i s t { s with mtx := some i } { t with pc := .test }
  | begin (hpc : t.pc = .test) (hc : s.called = false) :
      ThreadStep calls i s t { s with begun := s.begun + 1 } { t with pc := .init }
  | skip (hpc : t.pc = .test) (hc : s.called = true) :
      ThreadStep calls i s t s { t with pc := .unlock }
  | init (hpc : t.pc = .init) :
      ThreadStep calls i s t { s with done := s.done + 1 } { t with pc := .set }
  | set (hpc : t.pc = .set) :
      ThreadStep calls i s t { s with called := true } { t with pc := .unlock }
  | unlock (hpc : t.pc = .unlock) (hm : s.mtx = some i) :
      ThreadStep calls i s t { s with mtx := none } { pc := .call, returned := t.returned + 1 }

theorem threadStep {s s' : Shared ι} {t t' : Thread} (h : oneTimeInit calls i s t = some (s', t')) :
    ThreadStep (calls i) i s t s' t' := by
  unfold oneTimeInit at h
  cases hpc : t.pc <;> simp only [hpc, reduceCtorEq] at h
  case call => cases h; exact .call hpc
  case lock =>
    obtain ⟨hm, h⟩ := Option.ite_none_right_eq_some.mp h
    cases h
    exact .lock hpc hm
  case test =>
    split at h <;> cases h
    · exact .begin hpc ‹_›
    · exact .skip hpc (by simpa using ‹¬ s.called = false›)
  case init => cases h; exact .init hpc
  case set => cases h; exact .set hpc
  case unlock =>
    obtain ⟨hm, h⟩ := Option.ite_none_right_eq_some.mp h
    cases h
    exact .unlock hpc hm

/-- A step of thread `i` with a new owner, once the initialisation is over or by a thread that is
not the owner. -/
theorem OnceOk.set {s : Shared ι} (h : OnceOk c.shared c.own) {t : Thread}
    (hc : s.called = c.shared.called) (hb : s.begun = c.shared.begun) (hd : s.done = c.shared.done)
    (hm : c.shared.called = true ∨ (s.mtx = c.shared.mtx ∧ c.shared.mtx ≠ some i))
    (ht : t.pc ≠ .init ∧ t.pc ≠ .set) : OnceOk s (c.set i s t).own := by
  unfold OnceOk at h ⊢
  rw [hc, hb, hd]
  by_cases hcd : c.shared.called
  · rw [if_pos hcd] at h ⊢
    exact ⟨h.1, h.2.1, (c.forall_set i s t (P := fun _ t => t.pc ≠ .init ∧ t.pc ≠ .set)).mpr
      ⟨ht, fun j _ => h.2.2 j⟩⟩
  · rw [if_neg hcd] at h ⊢
    obtain ⟨hm, hne⟩ := hm.resolve_left hcd
    rw [hm]
    cases ho : c.shared.mtx with
    | none => simpa [ho] using h
    | some o =>
      have : o ≠ i := fun he => hne (by rw [ho, he])
      simp only [ho] at h ⊢
      rwa [c.set_own_of_ne _ _ this]

omit [DecidableEq ι] in
theorem OnceOk.not_called {s : Shared ι} {own : ι → Thread} (h : OnceOk s own)
    (hp : (own i).pc = .init ∨ (own i).pc = .set) : s.called = false := by
  by_contra hc
  rw [OnceOk, if_pos (by simpa using hc)] at h
  exact hp.elim (h.2.2 i).1 (h.2.2 i).2

omit [DecidableEq ι] in
theorem OnceOk.first {s : Shared ι} {own : ι → Thread} (h : OnceOk s own) (hc : s.called = false)
    (hm : s.mtx = some i) :
    ((own i).pc = .test ∧ s.begun = 0 ∧ s.done = 0) ∨
      ((own i).pc = .init ∧ s.begun = 1 ∧ s.done = 0) ∨
      ((own i).pc = .set ∧ s.begun = 1 ∧ s.done = 1) := by
  simpa [OnceOk, hc, hm] using h

omit [DecidableEq ι] in
theorem ThreadOk.mono {n : Nat} {b b' : Bool} {t : Thread} (h : ThreadOk n b t)
    (hb : b = true → b' = true) : ThreadOk n b' t :=
  ⟨h.le, h.lt, h.ended, fun hp => hb (h.called hp)⟩

theorem Inv.thread_step (h : Inv calls c) {s : Shared ι} {t : Thread}
    (hs : ThreadStep (calls i) i c.shared (c.own i) s t) : Inv calls (c.set i s t) := by
  have hi := h.thread i
  have hown : (c.own i).pc.Inside → c.shared.mtx = some i := (h.excl i).mp
  have hthreads : ∀ {s : Shared ι} {t : Thread}, (c.shared.called = true → s.called = true) →
      ThreadOk (calls i) s.called t → ∀ j, ThreadOk (calls j) s.called ((c.set i s t).own j) :=
    fun {s t} hc ht => (c.forall_set i s t (P := fun j t => ThreadOk (calls j) s.called t)).mpr
      ⟨ht, fun j _ => (h.thread j).mono hc⟩
  cases hs with
  | call hpc =>
    have hout : c.shared.mtx ≠ some i := fun hm => by
      have := (h.excl i).mpr hm
      simp [Pc.Inside, hpc] at this
    refine ⟨hthreads id ⟨hi.le, ?_, ?_, ?_⟩, h.excl.keep (fun _ => Iff.rfl) ?_,
      h.once.set rfl rfl rfl (.inr ⟨rfl, hout⟩) ?_⟩
    · split <;> simp [*]
    · have := hi.le
      split
      · simp
      · exact fun _ => by simp only; omega
    · refine fun hp => hi.called (.inr (hp.resolve_left ?_))
      simp only
      split <;> simp
    · simp only
      split <;> simp [Pc.Inside, hpc]
    · simp only
      split <;> simp
  | lock hpc hm =>
    refine ⟨hthreads id ⟨hi.le, fun _ _ => hi.lt (by simp [hpc]) (by simp [hpc]), by simp,
      fun hp => hi.called (.inr (hp.resolve_left (by simp)))⟩,
      h.excl.lock (by simp [hm]) (fun j => by simp [eq_comm]) (.inl rfl), ?_⟩
    by_cases hc : c.shared.called
    · exact h.once.set rfl rfl rfl (.inl hc) (by simp)
    · have := h.once
      simp only [OnceOk, hc, hm] at this ⊢
      exact .inl ⟨by simp, this⟩
  | begin hpc hc =>
    have hm := hown (.inl hpc)
    refine ⟨hthreads id ⟨hi.le, fun _ _ => hi.lt (by simp [hpc]) (by simp [hpc]), by simp,
      fun hp => hi.called (.inr (hp.resolve_left (by simp)))⟩,
      h.excl.keep (fun _ => Iff.rfl) (by simp [Pc.Inside, hpc]), ?_⟩
    have hfirst := h.once.first hc hm
    simp only [hpc, reduceCtorEq, true_and, false_and, or_false] at hfirst
    simp [OnceOk, hc, hm, hfirst]
  | skip hpc hc =>
    exact ⟨hthreads id ⟨hi.le, fun _ _ => hi.lt (by simp [hpc]) (by simp [hpc]), by simp,
      fun _ => hc⟩, h.excl.keep (fun _ => Iff.rfl) (by simp [Pc.Inside, hpc]),
      h.once.set rfl rfl rfl (.inl hc) (by simp)⟩
  | init hpc =>
    have hm := hown (.inr (.inl hpc))
    have hc := h.once.not_called (.inl hpc)
    refine ⟨hthreads id ⟨hi.le, fun _ _ => hi.lt (by simp [hpc]) (by simp [hpc]), by simp,
      fun hp => hi.called (.inr (hp.resolve_left (by simp)))⟩,
      h.excl.keep (fun _ => Iff.rfl) (by simp [Pc.Inside, hpc]), ?_⟩
    have hfirst := h.once.first hc hm
    simp only [hpc, reduceCtorEq, true_and, false_and, or_false, false_or] at hfirst
    simp [OnceOk, hc, hm, hfirst]
  | set hpc =>
    have hm := hown (.inr (.inr (.inl hpc)))
    have hc := h.once.not_called (.inr hpc)
    refine ⟨hthreads (fun _ => rfl) ⟨hi.le, fun _ _ => hi.lt (by simp [hpc]) (by simp [hpc]),
      by simp, fun _ => rfl⟩,
      h.excl.keep (fun _ => Iff.rfl) (by simp [Pc.Inside, hpc]), ?_⟩
    have hfirst := h.once.first hc hm
    simp only [hpc, reduceCtorEq, true_and, false_and, false_or] at hfirst
    -- the others are not inside
    refine ⟨hfirst.1, hfirst.2,
      (c.forall_set i _ _ (P := fun _ t => t.pc ≠ .init ∧ t.pc ≠ .set)).mpr
        ⟨by simp, fun j hj => ?_⟩⟩
    have hout : ¬ (c.own j).pc.Inside :=
      fun hin => hj (by simpa [hm, eq_comm] using (h.excl j).mp hin)
    exact ⟨fun hp => hout (.inr (.inl hp)), fun hp => hout (.inr (.inr (.inl hp)))⟩
  | unlock hpc hm =>
    have hc := hi.called (.inl hpc)
    have hlt := hi.lt (by simp [hpc]) (by simp [hpc])
    exact ⟨hthreads id ⟨hlt, fun hn => absurd rfl hn, by simp, fun _ => hc⟩,
      h.excl.unlock (fun j hj => by simpa [hm, eq_comm] using hj) (by simp) (by simp [Pc.Inside]),
      h.once.set rfl rfl rfl (.inl hc) (by simp)⟩

theorem Inv.step (h : Inv calls c) (hs : Step calls c i c') : Inv calls c' := by
  obtain ⟨⟨s, t⟩, hl, rfl⟩ := Option.map_eq_some_iff.mp hs
  exact h.thread_step (threadStep hl)

/-! ## Every call returns -/

/-- Steps that a thread has still to make. -/
def Thread.left (calls : Nat) (t : Thread) : Nat :=
  7 * (calls - t.returned) +
    match t.pc with
    | .call => 6 | .lock => 5 | .test => 4 | .init => 3 | .set => 2 | .unlock => 1 | .ended => 0

theorem Inv.left_lt [Fintype ι] (h : Inv calls c) (hs : Step calls c i c') :
    (c'.total fun i t => t.left (calls i)) < c.total fun i t => t.left (calls i) := by
  obtain ⟨⟨s, t⟩, hl, rfl⟩ := Option.map_eq_some_iff.mp hs
  refine c.total_set_lt ?_
  have hlt := (h.thread i).lt
  cases threadStep hl with
  | call hpc =>
    by_cases hr : (c.own i).returned < calls i <;> simp [Thread.left, hpc, hr]
  | lock hpc | begin hpc | skip hpc | init hpc | set hpc => simp [Thread.left, hpc]
  | unlock hpc =>
    have := hlt (by simp [hpc]) (by simp [hpc])
    simp only [Thread.left, hpc]
    omega

theorem Inv.next (h : Inv calls c) : Ended c ∨ ∃ i c', Step calls c i c' := by
  by_cases hall : Ended c
  · exact .inl hall
  refine .inr ?_
  have hthread : ∀ i, (oneTimeInit calls i c.shared (c.own i)).isSome →
      ∃ i c', Step calls c i c' := fun i hs => by
    obtain ⟨r, hr⟩ := Option.isSome_iff_exists.mp hs
    exact ⟨i, _, Option.map_eq_some_iff.mpr ⟨r, hr, rfl⟩⟩
  cases hm : c.shared.mtx with
  | some o =>
    refine hthread o ?_
    unfold oneTimeInit
    rcases (h.excl o).mpr hm with hp | hp | hp | hp <;> simp only [hp]
    · split <;> rfl
    · rfl
    · rfl
    · rw [if_pos hm]
      rfl
  | none =>
    simp only [Ended, not_forall] at hall
    obtain ⟨i, hi⟩ := hall
    have hout : ¬ (c.own i).pc.Inside := fun hin => by simpa [hm] using (h.excl i).mp hin
    refine hthread i ?_
    unfold oneTimeInit
    cases hp : (c.own i).pc with
    | call => rfl
    | lock => simp [hm]
    | ended => exact absurd hp hi
    | test => exact absurd (.inl hp) hout
    | init => exact absurd (.inr (.inl hp)) hout
    | set => exact absurd (.inr (.inr (.inl hp))) hout
    | unlock => exact absurd (.inr (.inr (.inr hp))) hout

omit [DecidableEq ι] in
theorem OnceOk.le {s : Shared ι} {own : ι → Thread} (h : OnceOk s own) :
    s.begun ≤ 1 ∧ s.done ≤ s.begun := by
  unfold OnceOk at h
  split at h
  · omega
  · cases hm : s.mtx with
    | none =>
      simp only [hm] at h
      omega
    | some o =>
      simp only [hm] at h
      omega

/-- **Initialised once**: in every interleaving the initialisation begins at most once, and a call
that has returned, has returned after its end. All calls return. -/
theorem once_correct [Fintype ι] (calls : ι → Nat) :
    (∀ as c, Run (Step calls) start as c →
      c.shared.begun ≤ 1 ∧ c.shared.done ≤ c.shared.begun ∧
      (∀ i, 0 < (c.own i).returned → c.shared.done = 1) ∧
      (Ended c → ∀ i, (c.own i).returned = calls i)) ∧
    Ends (Step calls) start Ended := by
  refine ⟨fun as c hr => ?_, Ends.of_measure
    (fun c i c' h (hs : Step calls c i c') => ⟨h.step hs, h.left_lt hs⟩) (fun c h => h.next)
    inv_start⟩
  have h : Inv calls c := hr.invariant (fun _ _ _ h hs => h.step hs) inv_start
  refine ⟨h.once.le.1, h.once.le.2, fun i hi => ?_, fun he i => (h.thread i).ended (he i)⟩
  have hc := (h.thread i).called (.inr hi)
  have ho := h.once
  rw [OnceOk, if_pos hc] at ho
  exact ho.2.1

end Tlpi.OneTimeInit
