import Tlpi.Lib.Lts
import Tlpi.Lib.Threads

/-!
# Joining threads as they terminate

`tlpi-dist/threads/thread_multijoin.c`: `n` threads, and `main`, which joins each of them once it
has said that it terminates. A run starts when `main` has created the threads; as in the producers'
program, the mutex has an owner and `main` may be woken for nothing. `pthread_join` waits for its
thread, which has then still to give the mutex back and to signal, while `main` holds the mutex.

The counters are what the comments on them say (`Inv.numLive`, `Inv.numUnjoined`), so they stay
between 0 and `n`. Every thread is joined once, and `main` comes to its end in every interleaving
(`multijoin_correct`).
-/

namespace Tlpi.Multijoin

open Tlpi.Lib

/-- `enum tstate` -/
inductive TState where
  | alive
  | terminated
  | joined
  deriving DecidableEq

inductive ThreadPc where
  | lock
  /-- At `numUnjoined++`. -/
  | count
  /-- At `thread[idx].state = TS_TERMINATED`. -/
  | mark
  | unlock
  | signal
  | ended
  deriving DecidableEq

/-- A thread, its `state` in the array, and how often it has been joined. -/
structure Thread where
  pc : ThreadPc
  state : TState
  joins : Nat

variable {n : Nat}

inductive MainPc (n : Nat) where
  /-- At `numLive > 0`. -/
  | test
  | lock
  /-- At `numUnjoined == 0`. -/
  | check
  | asleep
  | woken
  /-- At `idx < totThreads`. -/
  | scan (idx : Nat)
  /-- At `pthread_join`. -/
  | join (idx : Fin n)
  /-- After it. -/
  | record (idx : Fin n)
  | unlock
  | exited
  deriving DecidableEq

structure Shared (n : Nat) where
  numLive : Int
  numUnjoined : Int
  mtx : Owner (Fin n)
  pc : MainPc n

abbrev Sys (n : Nat) := Conf (Fin n) (Shared n) Thread

def threadFunc (i : Fin n) (s : Shared n) (t : Thread) : Option (Shared n × Thread) :=
  match t.pc with
  | .lock =>
    if s.mtx = .nobody then some ({ s with mtx := .thread i }, { t with pc := .count }) else none
  | .count => some ({ s with numUnjoined := s.numUnjoined + 1 }, { t with pc := .mark })
  | .mark => some (s, { t with state := .terminated, pc := .unlock })
  | .unlock =>
    if s.mtx = .thread i then some ({ s with mtx := .nobody }, { t with pc := .signal }) else none
  | .signal => some (if s.pc = .asleep then { s with pc := .woken } else s, { t with pc := .ended })
  | .ended => none

/-- The next step of `main` in its loop. -/
def mainLoop (c : Sys n) : Option (Sys n) :=
  let s := c.shared
  match s.pc with
  | .test => some { c with shared := { s with pc := if 0 < s.numLive then .lock else .exited } }
  | .lock | .woken =>
    if s.mtx = .nobody then some { c with shared := { s with mtx := .main, pc := .check } }
    else none
  | .check =>
    if s.numUnjoined = 0 then some { c with shared := { s with mtx := .nobody, pc := .asleep } }
    else some { c with shared := { s with pc := .scan 0 } }
  | .scan idx =>
    if h : idx < n then
      if (c.own ⟨idx, h⟩).state = .terminated then
        some { c with shared := { s with pc := .join ⟨idx, h⟩ } }
      else some { c with shared := { s with pc := .scan (idx + 1) } }
    else some { c with shared := { s with pc := .unlock } }
  | .join idx =>
    if (c.own idx).pc = .ended then
      some (c.set idx { s with pc := .record idx }
        { c.own idx with joins := (c.own idx).joins + 1 })
    else none
  | .record idx =>
    some (c.set idx { s with
        numLive := s.numLive - 1, numUnjoined := s.numUnjoined - 1, pc := .scan (idx + 1) }
      { c.own idx with state := .joined })
  | .unlock =>
    if s.mtx = .main then some { c with shared := { s with mtx := .nobody, pc := .test } } else none
  | .asleep | .exited => none

inductive Act (n : Nat) where
  | main
  | thread (i : Fin n)
  | spurious

def Act.isSpurious : Act n → Bool
  | .spurious => true
  | _ => false

def exec (c : Sys n) : Act n → Option (Sys n)
  | .main => mainLoop c
  | .thread i =>
    if c.shared.pc = .exited then none
    else (threadFunc i c.shared (c.own i)).map fun r => c.set i r.1 r.2
  | .spurious =>
    if c.shared.pc = .asleep then some { c with shared := { c.shared with pc := .woken } } else none

def Step (c : Sys n) (a : Act n) (c' : Sys n) : Prop := exec c a = some c'

def start (n : Nat) : Sys n where
  shared := { numLive := n, numUnjoined := 0, mtx := .nobody, pc := .test }
  own _ := { pc := .lock, state := .alive, joins := 0 }

def Exited (c : Sys n) : Prop := c.shared.pc = .exited

/-! ## What a step does -/

variable {c c' : Sys n} {i : Fin n}

/-- The steps of a thread, one constructor for each. -/
inductive ThreadStep (i : Fin n) (s : Shared n) (t : Thread) : Shared n → Thread → Prop where
  | lock (hpc : t.pc = .lock) (hm : s.mtx = .nobody) :
      ThreadStep i s t { s with mtx := .thread i } { t with pc := .count }
  | count (hpc : t.pc = .count) :
      ThreadStep i s t { s with numUnjoined := s.numUnjoined + 1 } { t with pc := .mark }
  | mark (hpc : t.pc = .mark) :
      ThreadStep i s t s { t with state := .terminated, pc := .unlock }
  | unlock (hpc : t.pc = .unlock) (hm : s.mtx = .thread i) :
      ThreadStep i s t { s with mtx := .nobody } { t with pc := .signal }
  | signal (hpc : t.pc = .signal) :
      ThreadStep i s t (if s.pc = .asleep then { s with pc := .woken } else s)
        { t with pc := .ended }

theorem threadStep {s s' : Shared n} {t t' : Thread} (h : threadFunc i s t = some (s', t')) :
    ThreadStep i s t s' t' := by
  unfold threadFunc at h
  cases hpc : t.pc <;> simp only [hpc, reduceCtorEq] at h
  case lock =>
    obtain ⟨hm, h⟩ := Option.ite_none_right_eq_some.mp h
    cases h
    exact .lock hpc hm
  case count => cases h; exact .count hpc
  case mark => cases h; exact .mark hpc
  case unlock =>
    obtain ⟨hm, h⟩ := Option.ite_none_right_eq_some.mp h
    cases h
    exact .unlock hpc hm
  case signal => cases h; exact .signal hpc

/-- The steps of `main`, one constructor for each. -/
inductive MainStep (c : Sys n) : Sys n → Prop where
  | test (hpc : c.shared.pc = .test) :
      MainStep c { c with shared :=
        { c.shared with pc := if 0 < c.shared.numLive then .lock else .exited } }
  | lock (hpc : c.shared.pc = .lock ∨ c.shared.pc = .woken) (hm : c.shared.mtx = .nobody) :
      MainStep c { c with shared := { c.shared with mtx := .main, pc := .check } }
  | wait (hpc : c.shared.pc = .check) (hz : c.shared.numUnjoined = 0) :
      MainStep c { c with shared := { c.shared with mtx := .nobody, pc := .asleep } }
  | enter (hpc : c.shared.pc = .check) (hz : c.shared.numUnjoined ≠ 0) :
      MainStep c { c with shared := { c.shared with pc := .scan 0 } }
  | found {idx : Nat} (hpc : c.shared.pc = .scan idx) (h : idx < n)
      (ht : (c.own ⟨idx, h⟩).state = .terminated) :
      MainStep c { c with shared := { c.shared with pc := .join ⟨idx, h⟩ } }
  | skip {idx : Nat} (hpc : c.shared.pc = .scan idx) (h : idx < n)
      (ht : (c.own ⟨idx, h⟩).state ≠ .terminated) :
      MainStep c { c with shared := { c.shared with pc := .scan (idx + 1) } }
  | leave {idx : Nat} (hpc : c.shared.pc = .scan idx) (h : n ≤ idx) :
      MainStep c { c with shared := { c.shared with pc := .unlock } }
  | join {idx : Fin n} (hpc : c.shared.pc = .join idx) (he : (c.own idx).pc = .ended) :
      MainStep c (c.set idx { c.shared with pc := .record idx }
        { c.own idx with joins := (c.own idx).joins + 1 })
  | record {idx : Fin n} (hpc : c.shared.pc = .record idx) :
      MainStep c (c.set idx { c.shared with
          numLive := c.shared.numLive - 1, numUnjoined := c.shared.numUnjoined - 1,
          pc := .scan (idx + 1) }
        { c.own idx with state := .joined })
  | unlock (hpc : c.shared.pc = .unlock) (hm : c.shared.mtx = .main) :
      MainStep c { c with shared := { c.shared with mtx := .nobody, pc := .test } }

theorem mainStep (h : mainLoop c = some c') : MainStep c c' := by
  unfold mainLoop at h
  cases hpc : c.shared.pc <;> simp only [hpc, reduceCtorEq] at h
  case test => cases h; exact .test hpc
  case lock | woken =>
    obtain ⟨hm, h⟩ := Option.ite_none_right_eq_some.mp h
    cases h
    exact .lock (by simp [hpc]) hm
  case check =>
    split at h <;> cases h
    · exact .wait hpc ‹_›
    · exact .enter hpc ‹_›
  case scan idx =>
    split at h
    · next hi =>
      split at h <;> cases h
      · exact .found hpc hi ‹_›
      · exact .skip hpc hi ‹_›
    · cases h
      exact .leave hpc (by omega)
  case join idx =>
    obtain ⟨he, h⟩ := Option.ite_none_right_eq_some.mp h
    cases h
    exact .join hpc he
  case record idx => cases h; exact .record hpc
  case unlock =>
    obtain ⟨hm, h⟩ := Option.ite_none_right_eq_some.mp h
    cases h
    exact .unlock hpc hm

/-! ## What every step keeps -/

def ThreadPc.Inside (pc : ThreadPc) : Prop := pc = .count ∨ pc = .mark ∨ pc = .unlock

/-- It has counted itself and not yet signalled. -/
def ThreadPc.Signals (pc : ThreadPc) : Prop := pc = .mark ∨ pc = .unlock ∨ pc = .signal

def MainPc.Inside : MainPc n → Prop
  | .check | .scan _ | .join _ | .record _ | .unlock => True
  | _ => False

/-- A thread and its `state`; `r` says that it has been joined and this is not yet recorded. -/
def ThreadOk (r : Prop) (t : Thread) : Prop :=
  match t.pc with
  | .lock | .count | .mark => t.state = .alive ∧ t.joins = 0 ∧ ¬ r
  | .unlock | .signal => t.state = .terminated ∧ t.joins = 0 ∧ ¬ r
  | .ended => (t.state = .terminated ∧ t.joins = 1 ∧ r) ∨
    (t.state = .terminated ∧ t.joins = 0 ∧ ¬ r) ∨ (t.state = .joined ∧ t.joins = 1 ∧ ¬ r)

/-- Terminated and not yet joined. -/
def Thread.unjoined (t : Thread) : Nat := if t.pc = .mark ∨ t.state = .terminated then 1 else 0

/-- Alive, or terminated and not yet joined. -/
def Thread.live (t : Thread) : Nat := if t.state = .joined then 0 else 1

structure Inv (c : Sys n) : Prop where
  thread : ∀ i, ThreadOk (c.shared.pc = .record i) (c.own i)
  excl : c.Excl (fun s i => s.mtx = .thread i) fun t => t.pc.Inside
  main : c.shared.pc.Inside ↔ c.shared.mtx = .main
  numUnjoined : c.shared.numUnjoined = c.total fun _ t => t.unjoined
  numLive : c.shared.numLive = c.total fun _ t => t.live
  join : ∀ i, c.shared.pc = .join i → (c.own i).state = .terminated
  waits : c.shared.pc = .lock ∨ c.shared.pc = .check ∨ c.shared.pc = .asleep ∨
    c.shared.pc = .woken → 0 < c.shared.numLive
  asleep : c.shared.pc = .asleep → c.shared.numUnjoined = 0 ∨ ∃ i, (c.own i).pc.Signals
  exited : c.shared.pc = .exited → c.shared.numLive ≤ 0

theorem inv_start (n : Nat) : Inv (start n) where
  thread i := by simp [start, ThreadOk]
  excl i := by simp [start, ThreadPc.Inside]
  main := by simp [start, MainPc.Inside]
  numUnjoined := by simp [start, Conf.total, Thread.unjoined]
  numLive := by simp [start, Conf.total, Thread.live]
  join i h := by simp [start] at h
  waits h := by simp [start] at h
  asleep h := by simp [start] at h
  exited h := by simp [start] at h

theorem Inv.shared (h : Inv c) {s : Shared n}
    (hr : ∀ i, ¬ s.pc = .record i ∧ c.shared.pc ≠ .record i)
    (hl : s.numLive = c.shared.numLive) (hu : s.numUnjoined = c.shared.numUnjoined)
    (ho : ∀ i, s.mtx = .thread i ↔ c.shared.mtx = .thread i) (hm : s.pc.Inside ↔ s.mtx = .main)
    (hj : ∀ i, s.pc = .join i → (c.own i).state = .terminated)
    (hw : s.pc = .lock ∨ s.pc = .check ∨ s.pc = .asleep ∨ s.pc = .woken → 0 < s.numLive)
    (ha : s.pc = .asleep → s.numUnjoined = 0) (he : s.pc = .exited → s.numLive ≤ 0) :
    Inv { c with shared := s } where
  thread i := by
    have := h.thread i
    rwa [eq_false (hr i).2, ← eq_false (hr i).1] at this
  excl i := (h.excl i).trans (ho i).symm
  main := hm
  numUnjoined := hu.trans h.numUnjoined
  numLive := hl.trans h.numLive
  join := hj
  waits := hw
  asleep hp := .inl (ha hp)
  exited := he

theorem Inv.own (h : Inv c) {s : Shared n} {t : Thread} (hpc : t.pc = (c.own i).pc)
    (ht : ThreadOk (s.pc = .record i) t)
    (hr : ∀ j, j ≠ i → ¬ s.pc = .record j ∧ c.shared.pc ≠ .record j)
    (hm : s.mtx = c.shared.mtx) (hin : s.pc.Inside ↔ s.mtx = .main)
    (hu : s.numUnjoined + (c.own i).unjoined = c.shared.numUnjoined + t.unjoined)
    (hl : s.numLive + (c.own i).live = c.shared.numLive + t.live)
    (hp : (∃ idx, s.pc = .scan idx) ∨ ∃ idx, s.pc = .record idx) : Inv (c.set i s t) := by
  have hpcs : (∀ i, s.pc ≠ .join i) ∧ s.pc ≠ .lock ∧ s.pc ≠ .check ∧ s.pc ≠ .asleep ∧
      s.pc ≠ .woken ∧ s.pc ≠ .exited := by
    rcases hp with ⟨idx, hp⟩ | ⟨idx, hp⟩ <;> simp [hp]
  obtain ⟨h1, h2, h3, h4, h5, h6⟩ := hpcs
  refine ⟨(c.forall_set i s t (P := fun j t => ThreadOk (s.pc = .record j) t)).mpr
    ⟨ht, fun j hj => ?_⟩, h.excl.keep (fun j => by rw [hm]) (by rw [hpc]), hin, ?_, ?_,
    fun j hj => absurd hj (h1 j), by simp [*], fun hp => absurd hp h4, fun hp => absurd hp h6⟩
  · have := h.thread j
    rwa [eq_false (hr j hj).2, ← eq_false (hr j hj).1] at this
  · have := c.total_set i s t fun _ t => t.unjoined
    have := h.numUnjoined
    rw [Conf.set_shared]
    omega
  · have := c.total_set i s t fun _ t => t.live
    have := h.numLive
    rw [Conf.set_shared]
    omega

theorem Inv.main_step (h : Inv c) (hs : MainStep c c') : Inv c' := by
  cases hs with
  | test hpc =>
    have hin := h.main
    simp only [hpc, MainPc.Inside, false_iff] at hin
    by_cases hl : 0 < c.shared.numLive
    · rw [if_pos hl]
      exact h.shared (fun i => by simp [hpc]) rfl rfl (fun _ => Iff.rfl)
        (by simp [MainPc.Inside, hin]) (by simp) (fun _ => hl) (by simp) (by simp)
    · rw [if_neg hl]
      exact h.shared (fun i => by simp [hpc]) rfl rfl (fun _ => Iff.rfl)
        (by simp [MainPc.Inside, hin]) (by simp) (by simp) (by simp) fun _ => not_lt.mp hl
  | lock hpc hm =>
    have hl := h.waits (by rcases hpc with hpc | hpc <;> simp [hpc])
    refine h.shared (fun i => ?_) rfl rfl (by simp [hm]) (by simp [MainPc.Inside]) (by simp)
      (fun _ => hl) (by simp) (by simp)
    rcases hpc with hpc | hpc <;> simp [hpc]
  | wait hpc hz =>
    have hin := h.main
    simp only [hpc, MainPc.Inside, true_iff] at hin
    exact h.shared (fun i => by simp [hpc]) rfl rfl (by simp [hin]) (by simp [MainPc.Inside])
      (by simp) (fun _ => h.waits (by simp [hpc])) (fun _ => hz) (by simp)
  | enter hpc | found hpc hi ht | skip hpc hi ht | leave hpc hi =>
    have hin := h.main
    simp only [hpc, MainPc.Inside, true_iff] at hin
    refine h.shared (fun i => by simp [hpc]) rfl rfl (fun _ => Iff.rfl)
      (by simp [MainPc.Inside, hin]) ?_ (by simp) (by simp) (by simp)
    simp [*]
  | unlock hpc hm =>
    exact h.shared (fun i => by simp [hpc]) rfl rfl (by simp [hm]) (by simp [MainPc.Inside])
      (by simp) (by simp) (by simp) (by simp)
  | @join idx hpc he =>
    have ht := h.thread idx
    have hst := h.join idx hpc
    have hin := h.main
    simp only [hpc, MainPc.Inside, true_iff] at hin
    refine h.own rfl ?_ (fun j hj => ?_) rfl (by simp [MainPc.Inside, hin]) rfl rfl
      (.inr ⟨idx, rfl⟩)
    · simp only [ThreadOk, he, hpc, hst] at ht ⊢
      simpa using ht
    · simp [hpc, Ne.symm hj]
  | @record idx hpc =>
    have ht := h.thread idx
    have hin := h.main
    simp only [hpc, MainPc.Inside, true_iff] at hin
    have hi : (c.own idx).pc = .ended ∧ (c.own idx).state = .terminated ∧
        (c.own idx).joins = 1 := by
      unfold ThreadOk at ht
      cases hp : (c.own idx).pc <;> simp_all
    obtain ⟨h1, h2, h3⟩ := hi
    refine h.own rfl ?_ (fun j hj => ?_) rfl (by simp [MainPc.Inside, hin]) ?_ ?_ (.inl ⟨_, rfl⟩)
    · simp [ThreadOk, h1, h3]
    · simp [hpc, Ne.symm hj]
    · simp [Thread.unjoined, h1, h2]
    · simp [Thread.live, h2]

theorem Inv.wake (h : Inv c) (hpc : c.shared.pc = .asleep) :
    Inv { c with shared := { c.shared with pc := .woken } } := by
  have hin := h.main
  simp only [hpc, MainPc.Inside, false_iff] at hin
  exact h.shared (fun i => by simp [hpc]) rfl rfl (fun _ => Iff.rfl)
    (by simp [MainPc.Inside, hin]) (by simp) (fun _ => h.waits (by simp [hpc])) (by simp) (by simp)

theorem Inv.set (h : Inv c) {t : Thread} (o : Owner (Fin n)) (u : Int)
    (ht : ThreadOk (c.shared.pc = .record i) t)
    (he : (c.set i { c.shared with mtx := o, numUnjoined := u } t).Excl
      (fun s i => s.mtx = .thread i) fun t => t.pc.Inside)
    (ho : o = .main ↔ c.shared.mtx = .main)
    (hu : u + (c.own i).unjoined = c.shared.numUnjoined + t.unjoined)
    (hl : t.live = (c.own i).live) (hj : (c.own i).state = .terminated → t.state = .terminated)
    (hz : u = c.shared.numUnjoined ∨ t.pc.Signals)
    (hsig : c.shared.pc = .asleep → (c.own i).pc.Signals → t.pc.Signals) :
    Inv (c.set i { c.shared with mtx := o, numUnjoined := u } t) where
  thread := (c.forall_set i _ t (P := fun j t => ThreadOk (c.shared.pc = .record j) t)).mpr
    ⟨ht, fun j _ => h.thread j⟩
  excl := he
  main := h.main.trans ho.symm
  numUnjoined := by
    have h1 := c.total_set i { c.shared with mtx := o, numUnjoined := u } t fun _ t => t.unjoined
    have h2 := h.numUnjoined
    dsimp only at h1
    simp only [Conf.set_shared]
    omega
  numLive := by
    rw [c.total_set_eq hl]
    exact h.numLive
  join j hp := by
    have := h.join j hp
    rw [Conf.set_own]
    split
    · next hji => exact hj (hji ▸ this)
    · exact this
  waits := h.waits
  asleep hp := by
    rcases hz with hz | hz
    · refine (h.asleep hp).imp (fun h0 => hz.trans h0) fun ⟨j, hsj⟩ => ?_
      by_cases hji : j = i
      · exact ⟨i, by rw [Conf.set_own_self]; exact hsig hp (hji ▸ hsj)⟩
      · exact ⟨j, by rwa [c.set_own_of_ne _ _ hji]⟩
    · exact .inr ⟨i, by rwa [Conf.set_own_self]⟩
  exited := h.exited

theorem Inv.thread_step (h : Inv c) {s : Shared n} {t : Thread}
    (hs : ThreadStep i c.shared (c.own i) s t) : Inv (c.set i s t) := by
  have hi := h.thread i
  cases hs with
  | lock hpc hm =>
    simp only [ThreadOk, hpc] at hi
    exact h.set (.thread i) c.shared.numUnjoined (by simpa [ThreadOk] using hi)
      (h.excl.lock (by simp [hm]) (fun j => by simp [eq_comm]) (.inl rfl)) (by simp [hm])
      (by simp [Thread.unjoined, hpc]) rfl id (.inl rfl) (by simp [ThreadPc.Signals, hpc])
  | count hpc =>
    simp only [ThreadOk, hpc] at hi
    exact h.set c.shared.mtx (c.shared.numUnjoined + 1) (by simpa [ThreadOk] using hi)
      (h.excl.keep (fun _ => Iff.rfl) (by simp [ThreadPc.Inside, hpc])) Iff.rfl
      (by simp [Thread.unjoined, hpc, hi.1]) rfl id (.inr (.inl rfl))
      (by simp [ThreadPc.Signals, hpc])
  | mark hpc =>
    simp only [ThreadOk, hpc] at hi
    exact h.set c.shared.mtx c.shared.numUnjoined (by simpa [ThreadOk] using hi.2)
      (h.excl.keep (fun _ => Iff.rfl) (by simp [ThreadPc.Inside, hpc])) Iff.rfl
      (by simp [Thread.unjoined, hpc]) (by simp [Thread.live, hi.1]) (fun _ => rfl) (.inl rfl)
      (by simp [ThreadPc.Signals])
  | unlock hpc hm =>
    simp only [ThreadOk, hpc] at hi
    exact h.set .nobody c.shared.numUnjoined (by simpa [ThreadOk] using hi)
      (h.excl.unlock (fun j => by simp [hm, eq_comm]) (by simp) (by simp [ThreadPc.Inside]))
      (by simp [hm]) (by simp [Thread.unjoined, hpc]) rfl id (.inl rfl)
      (by simp [ThreadPc.Signals])
  | signal hpc =>
    -- `main` is woken first, then the thread goes on
    have hset : ∀ {c : Sys n}, Inv c → c.shared.pc ≠ .asleep → (c.own i).pc = .signal →
        Inv (c.set i c.shared { c.own i with pc := .ended }) := fun {c} h ha hpc => by
      have hi := h.thread i
      simp only [ThreadOk, hpc] at hi
      exact h.set c.shared.mtx c.shared.numUnjoined (.inr (.inl hi))
        (h.excl.keep (fun _ => Iff.rfl) (by simp [ThreadPc.Inside, hpc])) Iff.rfl
        (by simp [Thread.unjoined, hpc]) rfl id (.inl rfl) fun hp => absurd hp ha
    by_cases ha : c.shared.pc = .asleep
    · rw [if_pos ha]
      exact hset (h.wake ha) (by simp) hpc
    · rw [if_neg ha]
      exact hset h ha hpc

theorem Inv.step {a : Act n} (h : Inv c) (hs : Step c a c') : Inv c' := by
  cases a with
  | main => exact h.main_step (mainStep hs)
  | thread i =>
    obtain ⟨-, hs⟩ := Option.ite_none_left_eq_some.mp hs
    obtain ⟨⟨s, t⟩, hl, rfl⟩ := Option.map_eq_some_iff.mp hs
    exact h.thread_step (threadStep hl)
  | spurious =>
    obtain ⟨hpc, hs⟩ := Option.ite_none_right_eq_some.mp hs
    cases hs
    exact h.wake hpc

/-! ## `main` comes to its end -/

/-- There is a thread to be joined from `idx` on. -/
def Found (c : Sys n) (idx : Nat) : Prop := ∃ j : Fin n, idx ≤ j ∧ (c.own j).state = .terminated

instance (c : Sys n) (idx : Nat) : Decidable (Found c idx) :=
  inferInstanceAs (Decidable (∃ j : Fin n, idx ≤ j ∧ (c.own j).state = .terminated))

/-- Steps that `main` has still to make before it sleeps, or before it joins a thread, which pays
for coming back to the lock. -/
def mainLeft (c : Sys n) : Nat :=
  match c.shared.pc with
  | .unlock => 3 * n + 5
  | .test => 3 * n + 4
  | .lock | .woken => 3 * n + 3
  | .check => 3 * n + 2
  | .scan idx => 3 * (n - idx) + 1 + if Found c idx then 0 else 3 * n + 5
  | .join idx => 3 * (n - idx)
  | .record idx => 3 * (n - idx) - 1
  | .asleep | .exited => 0

def Thread.left (n : Nat) (t : Thread) : Nat :=
  (if t.state = .joined then 0 else 3 * n + 5) +
    match t.pc with
    | .lock => 3 * n + 8 | .count => 3 * n + 7 | .mark => 3 * n + 6 | .unlock => 3 * n + 5
    | .signal => 3 * n + 4 | .ended => 0

def left (c : Sys n) : Nat := (c.total fun _ t => t.left n) + mainLeft c

theorem Inv.found (h : Inv c) (hpc : c.shared.pc = .check) (hz : c.shared.numUnjoined ≠ 0) :
    Found c 0 := by
  have hm := h.main.mp (by simp [hpc, MainPc.Inside])
  by_contra hnone
  refine hz (h.numUnjoined.trans ?_)
  rw [Nat.cast_eq_zero, c.total_eq_zero]
  intro j
  have hmark : (c.own j).pc ≠ .mark := fun hp => by
    have := (h.excl j).mp (.inr (.inl hp))
    simp [hm] at this
  have hst : (c.own j).state ≠ .terminated := fun hst => hnone ⟨j, Nat.zero_le _, hst⟩
  simp [Thread.unjoined, hmark, hst]

/-- Beyond a thread that is not to be joined there is as much to be found. -/
theorem found_succ {idx : Nat} (hi : idx < n) (ht : (c.own ⟨idx, hi⟩).state ≠ .terminated) :
    Found c (idx + 1) ↔ Found c idx := by
  refine ⟨fun ⟨j, hj, hst⟩ => ⟨j, by omega, hst⟩, fun ⟨j, hj, hst⟩ => ⟨j, ?_, hst⟩⟩
  rcases Nat.lt_or_eq_of_le hj with hlt | heq
  · exact hlt
  · obtain rfl : j = ⟨idx, hi⟩ := Fin.ext heq.symm
    exact absurd hst ht

theorem MainStep.left_lt (h : Inv c) (hs : MainStep c c') : left c' < left c := by
  cases hs with
  | test hpc =>
    by_cases hl : 0 < c.shared.numLive <;> simp [left, Conf.total, mainLeft, hpc, hl]
  | lock hpc hm => rcases hpc with hpc | hpc <;> simp [left, Conf.total, mainLeft, hpc]
  | wait hpc hz => simp [left, Conf.total, mainLeft, hpc]
  | enter hpc hz =>
    have hf : Found { c with shared := { c.shared with pc := .scan 0 } } 0 := h.found hpc hz
    simp [left, Conf.total, mainLeft, hpc, hf]
  | @found idx hpc hi ht =>
    have hf : Found c idx := ⟨⟨idx, hi⟩, le_rfl, ht⟩
    simp [left, Conf.total, mainLeft, hpc, hf]
  | @skip idx hpc hi ht =>
    have hf : Found { c with shared := { c.shared with pc := .scan (idx + 1) } } (idx + 1) ↔
        Found c idx := found_succ hi ht
    simp only [left, Conf.total, mainLeft, hpc, hf]
    omega
  | @leave idx hpc hi =>
    have hf : ¬ Found c idx := by
      rintro ⟨j, hj, -⟩
      omega
    simp only [left, Conf.total, mainLeft, hpc, if_neg hf]
    omega
  | @join idx hpc he =>
    have := c.total_set_eq (i := idx) (s := { c.shared with pc := .record idx })
      (t := { c.own idx with joins := (c.own idx).joins + 1 }) (g := fun _ t => t.left n) rfl
    dsimp only at this
    simp only [left, mainLeft, Conf.set_shared, hpc, this]
    omega
  | @record idx hpc =>
    have hi : (c.own idx).pc = .ended ∧ (c.own idx).state = .terminated := by
      have ht := h.thread idx
      unfold ThreadOk at ht
      cases hp : (c.own idx).pc <;> simp_all
    have h1 : (c.own idx).left n = 3 * n + 5 := by simp [Thread.left, hi]
    have h2 : ({ c.own idx with state := .joined } : Thread).left n = 0 := by
      simp [Thread.left, hi]
    have htot := c.total_set idx { c.shared with
        numLive := c.shared.numLive - 1, numUnjoined := c.shared.numUnjoined - 1,
        pc := .scan (idx + 1) }
      { c.own idx with state := .joined } fun _ t => t.left n
    dsimp only at htot h2
    have hlt := idx.isLt
    simp only [left, mainLeft, Conf.set_shared, hpc]
    split <;> omega
  | unlock hpc hm => simp [left, Conf.total, mainLeft, hpc]

theorem mainLeft_le (hpc : c'.shared.pc = c.shared.pc)
    (hf : ∀ j, (c.own j).state = .terminated → (c'.own j).state = .terminated) :
    mainLeft c' ≤ mainLeft c := by
  unfold mainLeft
  rw [hpc]
  cases c.shared.pc with
  | scan idx =>
    by_cases h : Found c idx
    · have h' : Found c' idx := h.imp fun j hj => ⟨hj.1, hf j hj.2⟩
      simp [h, h']
    · simp only [if_neg h]
      split <;> omega
  | _ => exact le_rfl

/-- The signal of a thread pays for waking `main`. -/
theorem ThreadStep.left_lt (h : Inv c) {s : Shared n} {t : Thread}
    (hs : ThreadStep i c.shared (c.own i) s t) : left (c.set i s t) < left c := by
  have hi := h.thread i
  have htot := c.total_set i s t fun _ t => t.left n
  have hle : ∀ {t : Thread} {s : Shared n}, s.pc = c.shared.pc →
      ((c.own i).state = .terminated → t.state = .terminated) →
      mainLeft (c.set i s t) ≤ mainLeft c := fun hp ht => mainLeft_le hp fun j hj => by
    rw [Conf.set_own]
    split
    · next hji => exact ht (hji ▸ hj)
    · exact hj
  suffices t.left n + mainLeft (c.set i s t) < (c.own i).left n + mainLeft c by
    unfold left
    omega
  cases hs with
  | lock hpc | count hpc | unlock hpc =>
    exact Nat.add_lt_add_of_lt_of_le (by simp [Thread.left, hpc]) (hle rfl id)
  | mark hpc =>
    simp only [ThreadOk, hpc] at hi
    exact Nat.add_lt_add_of_lt_of_le (by simp [Thread.left, hpc, hi.1]) (hle rfl fun _ => rfl)
  | signal hpc =>
    by_cases ha : c.shared.pc = .asleep
    · simp only [if_pos ha]
      simp only [Thread.left, mainLeft, Conf.set_shared, hpc, ha]
      omega
    · simp only [if_neg ha]
      exact Nat.add_lt_add_of_lt_of_le (by simp [Thread.left, hpc]) (hle rfl id)

theorem Inv.left_lt {a : Act n} (h : Inv c) (hs : Step c a c') :
    left c' + 1 ≤ left c + if a.isSpurious then 3 * n + 4 else 0 := by
  cases a with
  | main => exact (mainStep hs).left_lt h
  | thread i =>
    obtain ⟨-, hs⟩ := Option.ite_none_left_eq_some.mp hs
    obtain ⟨⟨s, t⟩, hl, rfl⟩ := Option.map_eq_some_iff.mp hs
    exact (threadStep hl).left_lt h
  | spurious =>
    obtain ⟨hpc, hs⟩ := Option.ite_none_right_eq_some.mp hs
    cases hs
    simp only [left, Conf.total, mainLeft, hpc, Act.isSpurious, if_true]
    omega

theorem Inv.next (h : Inv c) : Exited c ∨ ∃ a c', Step c a c' ∧ a.isSpurious = false := by
  by_cases hex : c.shared.pc = .exited
  · exact .inl hex
  refine .inr ?_
  have hmain : (mainLoop c).isSome → ∃ a c', Step c a c' ∧ a.isSpurious = false := fun hs => by
    obtain ⟨c', hs⟩ := Option.isSome_iff_exists.mp hs
    exact ⟨.main, c', hs, rfl⟩
  have hthread : ∀ i, (threadFunc i c.shared (c.own i)).isSome →
      ∃ a c', Step c a c' ∧ a.isSpurious = false := fun i hs => by
    obtain ⟨r, hs⟩ := Option.isSome_iff_exists.mp hs
    exact ⟨.thread i, c.set i r.1 r.2, by simp [Step, exec, hex, hs], rfl⟩
  -- a thread that has still to signal needs the mutex at most for itself
  have hgo : ∀ i, (c.own i).pc ≠ .ended → ((c.own i).pc = .lock → c.shared.mtx = .nobody) →
      ∃ a c', Step c a c' ∧ a.isSpurious = false := fun i hi hl => by
    refine hthread i ?_
    unfold threadFunc
    cases hp : (c.own i).pc with
    | lock => simp [hl hp]
    | unlock => simp [show c.shared.mtx = .thread i from (h.excl i).mp (.inr (.inr hp))]
    | ended => exact absurd hp hi
    | count | mark | signal => rfl
  cases hm : c.shared.mtx with
  | main =>
    have hin := h.main.mpr hm
    cases hp : c.shared.pc with
    | join idx =>
      by_cases he : (c.own idx).pc = .ended
      · exact hmain (by simp [mainLoop, hp, he])
      · -- its thread has still to signal
        have hi := h.thread idx
        refine hgo idx he fun hl => ?_
        simp [ThreadOk, hl, h.join idx hp] at hi
    | check =>
      refine hmain ?_
      simp only [mainLoop, hp]
      split <;> rfl
    | scan idx =>
      refine hmain ?_
      simp only [mainLoop, hp]
      split
      · split <;> rfl
      · rfl
    | record idx => exact hmain (by simp [mainLoop, hp])
    | unlock => exact hmain (by simp [mainLoop, hp, hm])
    | test | lock | asleep | woken | exited => simp [hp, MainPc.Inside] at hin
  | thread i =>
    refine hgo i ?_ ?_ <;> rcases (h.excl i).mpr hm with hp | hp | hp <;> simp [hp]
  | nobody =>
    have hin : ¬ c.shared.pc.Inside := fun hi => by
      have := h.main.mp hi
      simp [hm] at this
    cases hp : c.shared.pc with
    | test => exact hmain (by simp [mainLoop, hp])
    | lock | woken => exact hmain (by simp [mainLoop, hp, hm])
    | exited => exact absurd hp hex
    | check | scan idx | join idx | record idx | unlock => simp [hp, MainPc.Inside] at hin
    | asleep =>
      by_cases hall : ∀ i, (c.own i).pc = .ended
      · -- every thread has been joined, so `main` would not wait
        have hz : c.shared.numUnjoined = 0 := (h.asleep hp).resolve_right fun ⟨i, hi⟩ => by
          simp [ThreadPc.Signals, hall i] at hi
        have hun := (c.total_eq_zero _).mp (Nat.cast_eq_zero.mp (h.numUnjoined.symm.trans hz))
        have hlive : (c.total fun _ t => t.live) = 0 := by
          refine (c.total_eq_zero _).mpr fun i => ?_
          have hi := h.thread i
          have hu := hun i
          simp only [ThreadOk, hall i] at hi
          simp only [Thread.unjoined, hall i] at hu
          rcases hi with hi | hi | hi <;> simp_all [Thread.live]
        have := h.waits (by simp [hp])
        rw [h.numLive, hlive] at this
        exact absurd this (by simp)
      · simp only [not_forall] at hall
        obtain ⟨i, hi⟩ := hall
        exact hgo i hi fun _ => hm

/-- **Joining**: `numLive` counts the threads that have not been recorded as joined, and
`numUnjoined`, when nobody holds the mutex, those that have terminated and not been; no thread is
joined twice. `main` comes to its end in every interleaving, however often it is woken for nothing,
and has then joined every thread. -/
theorem multijoin_correct (n : Nat) :
    EndsUpTo Step Act.isSpurious (start n) Exited ∧
      ∀ as c, Run Step (start n) as c →
        c.shared.numLive = (c.total fun _ t => if t.state = .joined then 0 else 1 : Nat) ∧
        (c.shared.mtx = .nobody → c.shared.numUnjoined =
          (c.total fun _ t => if t.state = .terminated then 1 else 0 : Nat)) ∧
        (∀ i, (c.own i).joins ≤ 1) ∧
        (Exited c → ∀ i, (c.own i).state = .joined ∧ (c.own i).joins = 1) := by
  refine ⟨EndsUpTo.of_measure (I := Inv) (μ := left) (3 * n + 3)
    (fun c a c' h (hs : Step c a c') => ⟨h.step hs, h.left_lt hs⟩) (fun c h => h.next)
    (inv_start n),
    fun as c hr => ?_⟩
  have h := hr.invariant (fun _ _ _ h hs => Inv.step h hs) (inv_start n)
  refine ⟨h.numLive, fun hm => h.numUnjoined.trans ?_, fun i => ?_, fun he i => ?_⟩
  · have hmark : ∀ i, (c.own i).pc ≠ .mark := fun i hp => by
      have := (h.excl i).mp (.inr (.inl hp))
      simp [hm] at this
    simp [Conf.total, Thread.unjoined, hmark]
  · have hi := h.thread i
    unfold ThreadOk at hi
    cases hp : (c.own i).pc <;> simp only [hp] at hi <;> omega
  · have hlive := h.exited he
    rw [h.numLive] at hlive
    have hz := (c.total_eq_zero _).mp (by omega : (c.total fun _ t => t.live) = 0) i
    have hst : (c.own i).state = .joined := by
      by_contra hne
      simp [Thread.live, hne] at hz
    have hi := h.thread i
    unfold ThreadOk at hi
    cases hp : (c.own i).pc <;> simp_all

end Tlpi.Multijoin
