import Tlpi.Lib.Lts
import Tlpi.Lib.CInt
import Tlpi.Lib.Threads

/-!
# Producers, a consumer and a condition variable

`tlpi-dist/threads/prod_condvar.c`: any number of producer threads, and `main`, which consumes.
A run starts when `main` has created the threads (they may have run before; then it has only not
come to its loop yet). The mutex has an owner, and `main` is the only one that ever waits on the
condition variable, so this is whether `main` sleeps on it; a signal wakes it, and so may nothing at
all (`Act.spurious`).

Nothing is consumed twice or lost (`Inv.balance`), and a sleeping `main` has nothing to consume, or
a signal is on its way (`Inv.asleep`). So `main` comes to its end whenever there is anything to
produce, and only then (`producer_correct`).
-/

namespace Tlpi.Producer

open Tlpi.Lib

inductive ThreadPc where
  /-- At `j < cnt`. -/
  | test
  | lock
  /-- At `avail++`. -/
  | incr
  | unlock
  | signal
  | ended
  deriving DecidableEq

structure Thread where
  j : Int
  pc : ThreadPc

inductive MainPc where
  | lock
  /-- At `avail == 0`. -/
  | check
  /-- In `pthread_cond_wait`. -/
  | asleep
  /-- In `pthread_cond_wait`, woken: it takes the mutex again. -/
  | woken
  /-- At `avail > 0`. -/
  | consume
  | unlock
  | exited
  deriving DecidableEq

/-- The globals, and the variables of `main`. -/
structure Shared (ι : Type*) where
  avail : Int
  mtx : Owner ι
  pc : MainPc
  numConsumed : Int
  done : Bool

abbrev Sys (ι : Type*) := Conf ι (Shared ι) Thread

variable {ι : Type*} [DecidableEq ι]

/-- The next step of producer `i`, which is to make `cnt` units. -/
def threadFunc (cnt : Int) (i : ι) (s : Shared ι) (t : Thread) : Option (Shared ι × Thread) :=
  match t.pc with
  | .test => some (s, { t with pc := if t.j < cnt then .lock else .ended })
  | .lock =>
    if s.mtx = .nobody then some ({ s with mtx := .thread i }, { t with pc := .incr }) else none
  | .incr => some ({ s with avail := toInt32 (s.avail + 1) }, { t with pc := .unlock })
  | .unlock =>
    if s.mtx = .thread i then some ({ s with mtx := .nobody }, { t with pc := .signal }) else none
  | .signal => some (if s.pc = .asleep then { s with pc := .woken } else s,
      { t with j := toInt32 (t.j + 1), pc := .test })
  | .ended => none

/-- The next step of `main` in its loop. -/
def mainLoop (totRequired : Int) (s : Shared ι) : Option (Shared ι) :=
  match s.pc with
  | .lock | .woken => if s.mtx = .nobody then some { s with mtx := .main, pc := .check } else none
  | .check =>
    if s.avail = 0 then some { s with mtx := .nobody, pc := .asleep }
    else some { s with pc := .consume }
  | .consume =>
    if 0 < s.avail then
      some { s with
        numConsumed := toInt32 (s.numConsumed + 1), avail := toInt32 (s.avail - 1)
        done := decide (totRequired ≤ toInt32 (s.numConsumed + 1)) }
    else some { s with pc := .unlock }
  | .unlock =>
    if s.mtx = .main then
      some { s with mtx := .nobody, pc := if s.done then .exited else .lock }
    else none
  | .asleep | .exited => none

inductive Act (ι : Type*) where
  | main
  | thread (i : ι)
  | spurious

def Act.isSpurious : Act ι → Bool
  | .spurious => true
  | _ => false

variable [Fintype ι] (cnt : ι → Int)

/-- `totRequired`, where `cnt i` is what `atoi` makes of the argument of producer `i`. -/
def totRequired : Int := toInt32 (∑ i, cnt i)

/-- The units that the producers make: none where the count is negative. -/
def units : Int := ∑ i, max (cnt i) 0

/-- Neither the units nor the sum of the counts leave the range of `int`. -/
structure Fits (cnt : ι → Int) : Prop where
  units_le : units cnt ≤ INT_MAX
  le_sum : -2 ^ 31 ≤ ∑ i, cnt i

/-- The process ends with `main`. -/
def exec (c : Sys ι) : Act ι → Option (Sys ι)
  | .main => (mainLoop (totRequired cnt) c.shared).map fun s => { c with shared := s }
  | .thread i =>
    if c.shared.pc = .exited then none
    else (threadFunc (cnt i) i c.shared (c.own i)).map fun r => c.set i r.1 r.2
  | .spurious =>
    if c.shared.pc = .asleep then some { c with shared := { c.shared with pc := .woken } } else none

def Step (c : Sys ι) (a : Act ι) (c' : Sys ι) : Prop := exec cnt c a = some c'

def start : Sys ι where
  shared := { avail := 0, mtx := .nobody, pc := .lock, numConsumed := 0, done := false }
  own _ := { j := 0, pc := .test }

def Exited (c : Sys ι) : Prop := c.shared.pc = .exited

/-! ## One producer -/

variable {cnt} {c c' : Sys ι} {i : ι}

/-- The units that it has made available. -/
def Thread.made (t : Thread) : Nat :=
  t.j.toNat + if t.pc = .unlock ∨ t.pc = .signal then 1 else 0

def ThreadPc.Inside (pc : ThreadPc) : Prop := pc = .incr ∨ pc = .unlock

/-- It has made a unit available and not yet signalled it. -/
def ThreadPc.Signals (pc : ThreadPc) : Prop := pc = .unlock ∨ pc = .signal

structure ThreadOk (cnt : Int) (t : Thread) : Prop where
  nonneg : 0 ≤ t.j
  le : t.j ≤ max cnt 0
  lt : t.pc ≠ .test → t.pc ≠ .ended → t.j < cnt
  ended : t.pc = .ended → t.j = max cnt 0

theorem made_le {cnt : Int} {t : Thread} (h : ThreadOk cnt t) : (t.made : Int) ≤ max cnt 0 := by
  have h0 := h.nonneg
  have hle := h.le
  have hlt := h.lt
  unfold Thread.made
  split
  · next hp => rcases hp with hp | hp <;> simp [hp] at hlt <;> omega
  · omega

omit [DecidableEq ι] in
theorem Fits.cnt_le (hf : Fits cnt) (i : ι) : cnt i ≤ INT_MAX := by
  have hone : max (cnt i) 0 ≤ units cnt := Finset.single_le_sum (f := fun j => max (cnt j) 0)
    (fun j _ => le_max_right (cnt j) 0) (Finset.mem_univ i)
  exact (le_max_left (cnt i) 0).trans (hone.trans hf.units_le)

omit [DecidableEq ι] in
theorem sum_le_units (cnt : ι → Int) : ∑ i, cnt i ≤ units cnt :=
  Finset.sum_le_sum fun i _ => le_max_left (cnt i) 0

omit [DecidableEq ι] in
theorem units_pos_iff : 0 < units cnt ↔ ∃ i, 0 < cnt i := by
  rw [units, Finset.sum_pos_iff_of_nonneg fun i _ => le_max_right (cnt i) 0]
  simp

omit [DecidableEq ι] in
theorem units_of_nonneg (hcnt : ∀ i, 0 ≤ cnt i) : units cnt = ∑ i, cnt i :=
  Finset.sum_congr rfl fun i _ => max_eq_left (hcnt i)

omit [DecidableEq ι] in
theorem Fits.totRequired_eq (hf : Fits cnt) : totRequired cnt = ∑ i, cnt i := by
  have hle := (sum_le_units cnt).trans hf.units_le
  unfold INT_MAX at hle
  exact toInt32_of_range hf.le_sum (by omega)

omit [DecidableEq ι] in
theorem Fits.toInt32_succ (hf : Fits cnt) {t : Thread} (h : ThreadOk (cnt i) t)
    (hlt : t.j < cnt i) : toInt32 (t.j + 1) = t.j + 1 := by
  have h0 := h.nonneg
  have hmax := hf.cnt_le i
  unfold INT_MAX at hmax
  exact toInt32_of_range (by omega) (by omega)

omit [DecidableEq ι] in
theorem threadOk_next (hf : Fits cnt) {t : Thread} (h : ThreadOk (cnt i) t) (hlt : t.j < cnt i) :
    ThreadOk (cnt i) { j := toInt32 (t.j + 1), pc := .test } := by
  have h0 := h.nonneg
  rw [hf.toInt32_succ h hlt]
  exact ⟨by simp only; omega, by simp only; omega, fun hn => absurd rfl hn, by simp⟩

/-- Steps that it has still to make, ten for a unit and its signal. -/
def Thread.left (cnt : Int) (t : Thread) : Nat :=
  30 * (cnt - t.j).toNat +
    match t.pc with
    | .test => 25 | .lock => 24 | .incr => 23 | .unlock => 11 | .signal => 10 | .ended => 0

/-! ## The consumer -/

def MainPc.Inside (pc : MainPc) : Prop := pc = .check ∨ pc = .consume ∨ pc = .unlock

/-- What `main` keeps. -/
structure MainOk (totRequired : Int) (s : Shared ι) : Prop where
  inside : s.pc.Inside ↔ s.mtx = .main
  avail : 0 ≤ s.avail
  consumed : 0 ≤ s.numConsumed
  le : s.numConsumed + s.avail ≤ INT_MAX
  done : s.done = true ↔ 0 < s.numConsumed ∧ totRequired ≤ s.numConsumed
  consume : s.pc = .consume → 0 < s.avail ∨ 0 < s.numConsumed
  unlock : s.pc = .unlock → s.avail = 0 ∧ 0 < s.numConsumed
  exited : s.pc = .exited → s.avail = 0 ∧ s.done = true
  waits : s.pc = .lock ∨ s.pc = .check ∨ s.pc = .asleep ∨ s.pc = .woken → s.done = false

section main

variable {tot : Int} {s s' : Shared ι}

omit [DecidableEq ι] [Fintype ι]

theorem MainOk.mtx (h : MainOk tot s) {o : Owner ι} (ho : o = .main ↔ s.mtx = .main) :
    MainOk tot { s with mtx := o } :=
  ⟨h.inside.trans ho.symm, h.avail, h.consumed, h.le, h.done, h.consume, h.unlock,
    h.exited, h.waits⟩

theorem MainOk.wake (h : MainOk tot s) (hpc : s.pc = .asleep) :
    MainOk tot { s with pc := .woken } := by
  have hm := h.inside
  rw [hpc] at hm
  exact ⟨by simpa [MainPc.Inside] using hm, h.avail, h.consumed, h.le, h.done, by simp, by simp,
    by simp, fun _ => h.waits (by simp [hpc])⟩

theorem MainOk.incr (h : MainOk tot s) (hm : s.mtx ≠ .main) (hne : s.pc ≠ .exited)
    (hle : s.numConsumed + s.avail < INT_MAX) :
    MainOk tot { s with avail := s.avail + 1 } := by
  have h1 := h.avail
  have hout : ¬ s.pc.Inside := fun hi => hm (h.inside.mp hi)
  refine ⟨h.inside, ?_, h.consumed, ?_, h.done, fun hp => ?_, fun hp => ?_, fun hp => absurd hp hne,
    h.waits⟩
  · simp only
    omega
  · simp only
    omega
  · exact absurd (.inr (.inl hp)) hout
  · exact absurd (.inr (.inr hp)) hout

theorem MainOk.consume_unit (h : MainOk tot s) (hpc : s.pc = .consume) (hpos : 0 < s.avail) :
    toInt32 (s.numConsumed + 1) = s.numConsumed + 1 ∧ toInt32 (s.avail - 1) = s.avail - 1 ∧
      MainOk tot { s with
        numConsumed := s.numConsumed + 1, avail := s.avail - 1
        done := decide (tot ≤ s.numConsumed + 1) } := by
  have h2 := h.consumed
  have hle := h.le
  unfold INT_MAX at hle
  refine ⟨toInt32_of_range (by omega) (by omega), toInt32_of_range (by omega) (by omega),
    h.inside, ?_, ?_, ?_, ?_, fun _ => .inr ?_, ?_, ?_, ?_⟩
  · simp only
    omega
  · simp only
    omega
  · refine le_trans (le_of_eq ?_) h.le
    simp only
    omega
  · simp only [decide_eq_true_eq]
    omega
  · simp only
    omega
  all_goals simp [hpc]

end main

/-- The steps of `main`, one constructor for each. -/
inductive MainStep (tot : Int) (s : Shared ι) : Shared ι → Prop where
  | lock (hpc : s.pc = .lock ∨ s.pc = .woken) (hm : s.mtx = .nobody) :
      MainStep tot s { s with mtx := .main, pc := .check }
  | wait (hpc : s.pc = .check) (hz : s.avail = 0) :
      MainStep tot s { s with mtx := .nobody, pc := .asleep }
  | enter (hpc : s.pc = .check) (hpos : 0 < s.avail) : MainStep tot s { s with pc := .consume }
  | consume (hpc : s.pc = .consume) (hpos : 0 < s.avail) :
      MainStep tot s { s with
        numConsumed := s.numConsumed + 1, avail := s.avail - 1
        done := decide (tot ≤ s.numConsumed + 1) }
  | leave (hpc : s.pc = .consume) (hz : s.avail = 0) : MainStep tot s { s with pc := .unlock }
  | unlock (hpc : s.pc = .unlock) :
      MainStep tot s { s with mtx := .nobody, pc := if s.done then .exited else .lock }

section main

variable {tot : Int} {s s' : Shared ι}

omit [Fintype ι] in
theorem MainOk.mainStep (h : MainOk tot s) (hs : mainLoop tot s = some s') : MainStep tot s s' := by
  have h1 := h.avail
  unfold mainLoop at hs
  cases hpc : s.pc <;> simp only [hpc, reduceCtorEq] at hs
  case lock | woken =>
    obtain ⟨hm, hs⟩ := Option.ite_none_right_eq_some.mp hs
    cases hs
    exact .lock (by simp [hpc]) hm
  case check =>
    split at hs <;> cases hs
    · exact .wait hpc ‹_›
    · exact .enter hpc (by omega)
  case consume =>
    split at hs
    · next hpos =>
      obtain ⟨hn, ha, -⟩ := h.consume_unit hpc hpos
      rw [hn, ha] at hs
      cases hs
      exact hpc ▸ .consume hpc hpos
    · cases hs
      exact .leave hpc (by omega)
  case unlock =>
    obtain ⟨-, hs⟩ := Option.ite_none_right_eq_some.mp hs
    cases hs
    exact .unlock hpc

omit [DecidableEq ι] [Fintype ι] in
theorem MainOk.step (h : MainOk tot s) (hs : MainStep tot s s') : MainOk tot s' := by
  cases hs with
  | lock hpc hm =>
    refine ⟨by simp [MainPc.Inside], h.avail, h.consumed, h.le, h.done, by simp, by simp, by simp,
      fun _ => h.waits ?_⟩
    rcases hpc with hpc | hpc <;> simp [hpc]
  | wait hpc hz =>
    exact ⟨by simp [MainPc.Inside], h.avail, h.consumed, h.le, h.done, by simp, by simp, by simp,
      fun _ => h.waits (by simp [hpc])⟩
  | enter hpc hpos =>
    have hm := h.inside.mp (.inl hpc)
    exact ⟨by simp [MainPc.Inside, hm], h.avail, h.consumed, h.le, h.done,
      fun _ => .inl hpos, by simp, by simp, by simp⟩
  | consume hpc hpos => exact (h.consume_unit hpc hpos).2.2
  | leave hpc hz =>
    have hm := h.inside.mp (.inr (.inl hpc))
    have hn := (h.consume hpc).resolve_left (by omega)
    exact ⟨by simp [MainPc.Inside, hm], h.avail, h.consumed, h.le, h.done, by simp,
      fun _ => ⟨hz, hn⟩, by simp, by simp⟩
  | unlock hpc =>
    obtain ⟨hz, -⟩ := h.unlock hpc
    refine ⟨?_, h.avail, h.consumed, h.le, h.done, ?_, ?_, ?_, ?_⟩ <;>
      cases hd : s.done <;> simp [MainPc.Inside, hz]

end main

/-! ## What every step keeps -/

structure Inv (cnt : ι → Int) (c : Sys ι) : Prop where
  thread : ∀ i, ThreadOk (cnt i) (c.own i)
  excl : c.Excl (fun s i => s.mtx = .thread i) fun t => t.pc.Inside
  main : MainOk (totRequired cnt) c.shared
  balance : c.shared.numConsumed + c.shared.avail = c.total fun _ t => t.made
  asleep : c.shared.pc = .asleep → c.shared.avail = 0 ∨ ∃ i, (c.own i).pc.Signals

omit [DecidableEq ι] in
theorem inv_start (cnt : ι → Int) : Inv cnt (start : Sys ι) where
  thread i := ⟨le_rfl, le_max_right _ _, fun h => absurd rfl h, by simp [start]⟩
  excl i := by simp [start, ThreadPc.Inside]
  main := ⟨by simp [start, MainPc.Inside], le_rfl, le_rfl, (by decide : (0 : Int) + 0 ≤ INT_MAX),
    by simp [start], by simp [start], by simp [start], by simp [start], fun _ => rfl⟩
  balance := by simp [start, Conf.total, Thread.made]
  asleep h := by simp [start] at h

omit [DecidableEq ι] in
theorem Inv.le_units (h : Inv cnt c) : c.shared.numConsumed + c.shared.avail ≤ units cnt := by
  rw [h.balance]
  exact c.total_le_sum fun i => made_le (h.thread i)

omit [DecidableEq ι] in
theorem Inv.main_step (h : Inv cnt c) {s : Shared ι}
    (hs : MainStep (totRequired cnt) c.shared s) : Inv cnt { c with shared := s } := by
  refine ⟨h.thread, fun i => (h.excl i).trans ?_, h.main.step hs, ?_, ?_⟩
  · cases hs with
    | lock hpc hm => simp [hm]
    | wait hpc hz => simp [h.main.inside.mp (.inl hpc)]
    | unlock hpc => simp [h.main.inside.mp (.inr (.inr hpc))]
    | enter | consume | leave => exact Iff.rfl
  · refine Eq.trans ?_ h.balance
    cases hs with
    | consume hpc hpos =>
      show c.shared.numConsumed + 1 + (c.shared.avail - 1) = _
      omega
    | lock | wait | enter | leave | unlock => rfl
  · cases hs with
    | lock hpc hm => simp
    | wait hpc hz => exact fun _ => .inl hz
    | consume hpc => simp [hpc]
    | enter | leave => simp
    | unlock => intro hp; cases hd : c.shared.done <;> simp [hd] at hp

/-- The steps of producer `i`, one constructor for each. -/
inductive ThreadStep (cnt : Int) (i : ι) (s : Shared ι) (t : Thread) :
    Shared ι → Thread → Prop where
  | test (hpc : t.pc = .test) :
      ThreadStep cnt i s t s { t with pc := if t.j < cnt then .lock else .ended }
  | lock (hpc : t.pc = .lock) (hm : s.mtx = .nobody) :
      ThreadStep cnt i s t { s with mtx := .thread i } { t with pc := .incr }
  | incr (hpc : t.pc = .incr) :
      ThreadStep cnt i s t { s with avail := toInt32 (s.avail + 1) } { t with pc := .unlock }
  | unlock (hpc : t.pc = .unlock) (hm : s.mtx = .thread i) :
      ThreadStep cnt i s t { s with mtx := .nobody } { t with pc := .signal }
  | signal (hpc : t.pc = .signal) :
      ThreadStep cnt i s t (if s.pc = .asleep then { s with pc := .woken } else s)
        { t with j := toInt32 (t.j + 1), pc := .test }

omit [Fintype ι] in
theorem threadStep {cnt : Int} {s s' : Shared ι} {t t' : Thread}
    (h : threadFunc cnt i s t = some (s', t')) : ThreadStep cnt i s t s' t' := by
  unfold threadFunc at h
  cases hpc : t.pc <;> simp only [hpc, reduceCtorEq] at h
  case test => cases h; exact .test hpc
  case lock =>
    obtain ⟨hm, h⟩ := Option.ite_none_right_eq_some.mp h
    cases h
    exact .lock hpc hm
  case incr => cases h; exact .incr hpc
  case unlock =>
    obtain ⟨hm, h⟩ := Option.ite_none_right_eq_some.mp h
    cases h
    exact .unlock hpc hm
  case signal => cases h; exact .signal hpc

omit [DecidableEq ι] in
theorem Inv.room (hf : Fits cnt) (h : Inv cnt c) (hpc : (c.own i).pc = .incr) :
    c.shared.numConsumed + c.shared.avail < INT_MAX ∧
      toInt32 (c.shared.avail + 1) = c.shared.avail + 1 := by
  have hi := h.thread i
  have hlt := hi.lt (by simp [hpc]) (by simp [hpc])
  have h0 := hi.nonneg
  have h1 := h.main.avail
  have h2 := h.main.consumed
  have hroom : c.shared.numConsumed + c.shared.avail < INT_MAX := by
    rw [h.balance]
    refine lt_of_lt_of_le (c.total_lt_sum (i := i) (fun j => made_le (h.thread j)) ?_) hf.units_le
    simp [Thread.made, hpc]
    omega
  refine ⟨hroom, ?_⟩
  unfold INT_MAX at hroom
  exact toInt32_of_range (by omega) (by omega)

theorem Inv.thread_step (hf : Fits cnt) (h : Inv cnt c) (hne : c.shared.pc ≠ .exited) {s : Shared ι}
    {t : Thread} (hs : ThreadStep (cnt i) i c.shared (c.own i) s t) : Inv cnt (c.set i s t) := by
  have hi := h.thread i
  have hthreads : ThreadOk (cnt i) t → ∀ j, ThreadOk (cnt j) ((c.set i s t).own j) :=
    fun ht => (c.forall_set i s t (P := fun j t => ThreadOk (cnt j) t)).mpr
      ⟨ht, fun j _ => h.thread j⟩
  -- a sleeping `main` is still to be signalled by a thread that was to do so
  have hsignals : ((c.own i).pc.Signals → t.pc.Signals) → (∃ j, (c.own j).pc.Signals) →
      ∃ j, ((c.set i s t).own j).pc.Signals := fun ht ⟨j, hj⟩ => by
    by_cases hji : j = i
    · exact ⟨i, by rw [Conf.set_own_self]; exact ht (hji ▸ hj)⟩
    · exact ⟨j, by rwa [c.set_own_of_ne _ _ hji]⟩
  cases hs with
  | test hpc =>
    have hle := hi.le
    have h0 := hi.nonneg
    refine ⟨hthreads ⟨hi.nonneg, hi.le, ?_, ?_⟩, h.excl.keep (fun _ => Iff.rfl) ?_, h.main, ?_,
      fun hp => (h.asleep hp).imp_right (hsignals (by simp [ThreadPc.Signals, hpc]))⟩
    · split <;> simp [*]
    · split
      · simp
      · exact fun _ => by simp only; omega
    · split <;> simp [ThreadPc.Inside, hpc]
    · rw [c.total_set_eq (by simp only [Thread.made, hpc]; split <;> simp)]
      exact h.balance
  | lock hpc hm =>
    refine ⟨hthreads ⟨hi.nonneg, hi.le, fun _ _ => hi.lt (by simp [hpc]) (by simp [hpc]), by simp⟩,
      h.excl.lock (by simp [hm]) (fun j => by simp [eq_comm]) (.inl rfl),
      h.main.mtx (by simp [hm]), ?_,
      fun hp => (h.asleep hp).imp_right (hsignals (by simp [ThreadPc.Signals, hpc]))⟩
    rw [c.total_set_eq (by simp [Thread.made, hpc])]
    exact h.balance
  | incr hpc =>
    have hlt := hi.lt (by simp [hpc]) (by simp [hpc])
    have hm : c.shared.mtx = .thread i := (h.excl i).mp (.inl hpc)
    obtain ⟨hroom, ha⟩ := h.room hf hpc
    simp only [ha]
    refine ⟨hthreads ⟨hi.nonneg, hi.le, fun _ _ => hlt, by simp⟩,
      h.excl.keep (fun _ => Iff.rfl) (by simp [ThreadPc.Inside, hpc]),
      h.main.incr (by simp [hm]) hne hroom, ?_, fun _ => .inr ⟨i, ?_⟩⟩
    · rw [c.total_set_succ (by simp [Thread.made, hpc])]
      have := h.balance
      simp only [Conf.set_shared]
      push_cast
      omega
    · rw [Conf.set_own_self]
      exact .inl rfl
  | unlock hpc hm =>
    refine ⟨hthreads ⟨hi.nonneg, hi.le, fun _ _ => hi.lt (by simp [hpc]) (by simp [hpc]), by simp⟩,
      h.excl.unlock (fun j => by simp [hm, eq_comm]) (by simp) (by simp [ThreadPc.Inside]),
      h.main.mtx (by simp [hm]), ?_,
      fun hp => (h.asleep hp).imp_right (hsignals (by simp [ThreadPc.Signals]))⟩
    rw [c.total_set_eq (by simp [Thread.made, hpc])]
    exact h.balance
  | signal hpc =>
    have hlt := hi.lt (by simp [hpc]) (by simp [hpc])
    have h0 := hi.nonneg
    have hd : ({ c.own i with j := toInt32 ((c.own i).j + 1), pc := .test } : Thread).made =
        (c.own i).made := by
      simp only [Thread.made, hpc, hf.toInt32_succ hi hlt]
      simp
      omega
    have hout : ({ c.own i with j := toInt32 ((c.own i).j + 1), pc := .test } : Thread).pc.Inside ↔
        (c.own i).pc.Inside := by simp [ThreadPc.Inside, hpc]
    by_cases ha : c.shared.pc = .asleep
    · simp only [if_pos ha]
      exact ⟨hthreads (threadOk_next hf hi hlt), h.excl.keep (fun _ => Iff.rfl) hout,
        h.main.wake ha, by rw [c.total_set_eq hd]; exact h.balance, by simp⟩
    · simp only [if_neg ha]
      exact ⟨hthreads (threadOk_next hf hi hlt), h.excl.keep (fun _ => Iff.rfl) hout, h.main,
        by rw [c.total_set_eq hd]; exact h.balance, fun hp => absurd hp ha⟩

theorem Inv.step {a : Act ι} (hf : Fits cnt) (h : Inv cnt c) (hs : Step cnt c a c') :
    Inv cnt c' := by
  cases a with
  | main =>
    obtain ⟨s, hl, rfl⟩ := Option.map_eq_some_iff.mp hs
    exact h.main_step (h.main.mainStep hl)
  | thread i =>
    obtain ⟨hne, hs⟩ := Option.ite_none_left_eq_some.mp hs
    obtain ⟨⟨s, t⟩, hl, rfl⟩ := Option.map_eq_some_iff.mp hs
    exact h.thread_step hf hne (threadStep hl)
  | spurious =>
    obtain ⟨hpc, hs⟩ := Option.ite_none_right_eq_some.mp hs
    cases hs
    exact ⟨h.thread, h.excl, h.main.wake hpc, h.balance, by simp⟩

/-! ## `main` comes to its end -/

/-- Steps that `main` has still to make before it sleeps: the unit that it consumes last pays for
coming back to the lock. -/
def Shared.left (s : Shared ι) : Nat :=
  6 * s.avail.toNat +
    match s.pc with
    | .lock | .woken => 3
    | .check => 2
    | .consume => if 0 < s.avail then 1 else 5
    | .unlock => 4
    | .asleep | .exited => 0

def left (cnt : ι → Int) (c : Sys ι) : Nat :=
  (c.total fun i t => t.left (cnt i)) + c.shared.left

omit [DecidableEq ι] [Fintype ι] in
theorem MainStep.left_lt {tot : Int} {s s' : Shared ι} (hs : MainStep tot s s') :
    s'.left < s.left := by
  cases hs with
  | lock hpc hm => rcases hpc with hpc | hpc <;> simp [Shared.left, hpc]
  | wait hpc hz => simp [Shared.left, hpc]
  | enter hpc hpos => simp [Shared.left, hpc, hpos]
  | consume hpc hpos =>
    simp only [Shared.left, hpc, if_pos hpos]
    split <;> omega
  | leave hpc hz => simp [Shared.left, hpc, hz]
  | unlock hpc => cases hd : s.done <;> simp [Shared.left, hpc]

omit [DecidableEq ι] in
/-- A unit pays for its consumption, a signal for waking `main`. -/
theorem ThreadStep.left_lt (hf : Fits cnt) (h : Inv cnt c) {s : Shared ι} {t : Thread}
    (hs : ThreadStep (cnt i) i c.shared (c.own i) s t) :
    t.left (cnt i) + s.left < (c.own i).left (cnt i) + c.shared.left := by
  have hi := h.thread i
  cases hs with
  | test hpc =>
    by_cases hj : (c.own i).j < cnt i <;> simp [Thread.left, hpc, hj]
  | lock hpc hm | unlock hpc hm =>
    simp only [Thread.left, Shared.left, hpc]
    omega
  | incr hpc =>
    have h1 := h.main.avail
    simp only [Thread.left, Shared.left, hpc, (h.room hf hpc).2]
    cases c.shared.pc with
    | consume => simp only; split_ifs <;> omega
    | _ => simp only; omega
  | signal hpc =>
    have hlt := hi.lt (by simp [hpc]) (by simp [hpc])
    simp only [Thread.left, hpc, hf.toInt32_succ hi hlt]
    split
    · next ha =>
      simp only [Shared.left, ha]
      omega
    · omega

theorem Inv.left_lt {a : Act ι} (hf : Fits cnt) (h : Inv cnt c) (hs : Step cnt c a c') :
    left cnt c' + 1 ≤ left cnt c + if a.isSpurious then 4 else 0 := by
  cases a with
  | main =>
    obtain ⟨s, hl, rfl⟩ := Option.map_eq_some_iff.mp hs
    have := (h.main.mainStep hl).left_lt
    simp only [left, Conf.total, Act.isSpurious, Bool.false_eq_true, if_false]
    omega
  | thread i =>
    obtain ⟨hne, hs⟩ := Option.ite_none_left_eq_some.mp hs
    obtain ⟨⟨s, t⟩, hl, rfl⟩ := Option.map_eq_some_iff.mp hs
    have htot := c.total_set i s t fun i t => t.left (cnt i)
    have hlt := (threadStep hl).left_lt hf h
    simp only [left, Conf.set_shared, Act.isSpurious, Bool.false_eq_true, if_false]
    omega
  | spurious =>
    obtain ⟨hpc, hs⟩ := Option.ite_none_right_eq_some.mp hs
    cases hs
    simp only [left, Shared.left, hpc, Conf.total, Act.isSpurious, if_true]
    omega

/-- Somebody can go on without being woken for no reason: `main` does not sleep for ever while there
is something to be made. -/
theorem Inv.next (hf : Fits cnt) (hpos : ∃ i, 0 < cnt i) (h : Inv cnt c) :
    Exited c ∨ ∃ a c', Step cnt c a c' ∧ a.isSpurious = false := by
  by_cases hex : c.shared.pc = .exited
  · exact .inl hex
  refine .inr ?_
  have hmain : (mainLoop (totRequired cnt) c.shared).isSome →
      ∃ a c', Step cnt c a c' ∧ a.isSpurious = false := fun hs => by
    obtain ⟨s, hs⟩ := Option.isSome_iff_exists.mp hs
    exact ⟨.main, _, Option.map_eq_some_iff.mpr ⟨s, hs, rfl⟩, rfl⟩
  have hthread : ∀ i, (threadFunc (cnt i) i c.shared (c.own i)).isSome →
      ∃ a c', Step cnt c a c' ∧ a.isSpurious = false := fun i hs => by
    obtain ⟨r, hs⟩ := Option.isSome_iff_exists.mp hs
    exact ⟨.thread i, c.set i r.1 r.2, by simp [Step, exec, hex, hs], rfl⟩
  cases hm : c.shared.mtx with
  | main =>
    refine hmain ?_
    unfold mainLoop
    rcases h.main.inside.mpr hm with hp | hp | hp <;> simp only [hp]
    · split <;> rfl
    · split <;> rfl
    · rw [if_pos hm]
      rfl
  | thread i =>
    refine hthread i ?_
    unfold threadFunc
    rcases (h.excl i).mpr hm with hp | hp <;> simp [hp, hm]
  | nobody =>
    have hout : ∀ i, ¬ (c.own i).pc.Inside := fun i hi => by
      have := (h.excl i).mp hi
      simp [hm] at this
    have hmout : ¬ c.shared.pc.Inside := fun hi => by
      have := h.main.inside.mp hi
      simp [hm] at this
    cases hp : c.shared.pc with
    | lock | woken => exact hmain (by simp [mainLoop, hp, hm])
    | check => exact absurd (.inl hp) hmout
    | consume => exact absurd (.inr (.inl hp)) hmout
    | unlock => exact absurd (.inr (.inr hp)) hmout
    | exited => exact absurd hp hex
    | asleep =>
      by_cases hall : ∀ i, (c.own i).pc = .ended
      · -- everything has been made, so `main` would have seen it
        have hz : c.shared.avail = 0 := (h.asleep hp).resolve_right fun ⟨i, hi⟩ => by
          simp [ThreadPc.Signals, hall i] at hi
        have hmade : (c.total fun _ t => t.made : Int) = units cnt := by
          unfold Conf.total units
          rw [Nat.cast_sum]
          refine Finset.sum_congr rfl fun i _ => ?_
          simp [Thread.made, hall i, (h.thread i).ended (hall i)]
        have hunits := units_pos_iff.mpr hpos
        have hle := sum_le_units cnt
        have hbal := h.balance
        rw [← hf.totRequired_eq] at hle
        have hd := h.main.done.mpr (by omega)
        exact absurd (h.main.waits (by simp [hp])) (by simp [hd])
      · simp only [not_forall] at hall
        obtain ⟨i, hi⟩ := hall
        refine hthread i ?_
        unfold threadFunc
        cases hpi : (c.own i).pc with
        | incr => exact absurd (.inl hpi) (hout i)
        | unlock => exact absurd (.inr hpi) (hout i)
        | ended => exact absurd hpi hi
        | test | signal => rfl
        | lock => simp [hm]

/-- Every unit that has been made is available or has been consumed, once. When `main` has come to
its end it has consumed as many as are required, and if no count is negative it has consumed all of
them. -/
structure Accounted (cnt : ι → Int) (c : Sys ι) : Prop where
  balance : c.shared.numConsumed + c.shared.avail = (c.total fun _ t => t.made : Nat)
  consumed : 0 ≤ c.shared.numConsumed
  avail : 0 ≤ c.shared.avail
  required : Exited c → 0 < c.shared.numConsumed ∧ ∑ i, cnt i ≤ c.shared.numConsumed
  all : Exited c → (∀ i, 0 ≤ cnt i) →
    c.shared.numConsumed = ∑ i, cnt i ∧ c.shared.avail = 0

omit [DecidableEq ι] in
theorem Inv.accounted (hf : Fits cnt) (h : Inv cnt c) : Accounted cnt c := by
  have hexit : Exited c → c.shared.avail = 0 ∧ 0 < c.shared.numConsumed ∧
      ∑ i, cnt i ≤ c.shared.numConsumed := fun he => by
    obtain ⟨hz, hd⟩ := h.main.exited he
    obtain ⟨hn, hle⟩ := h.main.done.mp hd
    rw [hf.totRequired_eq] at hle
    exact ⟨hz, hn, hle⟩
  refine ⟨h.balance, h.main.consumed, h.main.avail, fun he => (hexit he).2, fun he hcnt => ?_⟩
  obtain ⟨hz, -, hle⟩ := hexit he
  have hunits := h.le_units
  rw [units_of_nonneg hcnt] at hunits
  exact ⟨by omega, hz⟩

/-- **The consumer**: in every interleaving, however often `main` is woken for nothing, the units
are accounted for, and `main` comes to its end if some producer makes a unit; otherwise never. -/
theorem producer_correct (cnt : ι → Int) (hf : Fits cnt) :
    (∀ as c, Run (Step cnt) (start : Sys ι) as c → Accounted cnt c) ∧
      (EndsUpTo (Step cnt) Act.isSpurious (start : Sys ι) Exited ↔ ∃ i, 0 < cnt i) := by
  have hrun : ∀ {as c}, Run (Step cnt) (start : Sys ι) as c → Inv cnt c := fun hr =>
    hr.invariant (fun _ _ _ h hs => h.step hf hs) (inv_start cnt)
  refine ⟨fun as c hr => (hrun hr).accounted hf, fun h => ?_, fun hpos => ?_⟩
  · obtain ⟨as, c, hr, he, -⟩ := h.completes [] start (.nil _)
    have hacc := (hrun hr).accounted hf
    have hle := (hrun hr).le_units
    have hn := (hacc.required he).1
    have h0 := hacc.avail
    exact units_pos_iff.mp (by omega)
  · exact EndsUpTo.of_measure (I := Inv cnt) (μ := left cnt) 3
      (fun c a c' h (hs : Step cnt c a c') => ⟨h.step hf hs, h.left_lt hf hs⟩)
      (fun c h => h.next hf hpos) (inv_start cnt)

/-- One producer of a unit, and one whose count is negative: nothing is required, and yet `main`
ends. -/
theorem producer_correct_negative :
    (∀ as c, Run (Step ![1, -1]) (start : Sys (Fin 2)) as c → Accounted ![1, -1] c) ∧
      (EndsUpTo (Step ![1, -1]) Act.isSpurious (start : Sys (Fin 2)) Exited ↔
        ∃ i : Fin 2, 0 < (![1, -1] : Fin 2 → Int) i) :=
  producer_correct ![1, -1] ⟨by decide, by decide⟩

end Tlpi.Producer
