import Tlpi.Lib.Lts
import Tlpi.Lib.CInt
import Tlpi.Lib.Threads

/-!
# Threads that increment a global

`threadFunc` of `tlpi-dist/threads/thread_incr.c`, `tlpi-dist/threads/thread_incr_mutex.c` and
`tlpi-dist/psem/thread_incr_psem.c`, one access to a shared variable at a time, run by any number
of threads. A run starts when the threads are created; `main` joins them, so what it prints is
`glob` in the state where all have ended.

Whatever the version, the threads end (`run_ends`). With a mutex or a semaphore the printed value
counts every iteration (`locked_prints`). Without one the two threads of `main` can print every
value from 2 (or 1, for a single iteration) to the number of iterations, and no other
(`glob_iff_of_plain`).
-/

namespace Tlpi.ThreadIncr

open Tlpi.Lib

/-- What stands around the three statements of the loop body. -/
inductive Version where
  /-- `thread_incr.c`: nothing. -/
  | plain
  /-- `thread_incr_mutex.c`: `mtx`. -/
  | mutex
  /-- `thread_incr_psem.c`: `sem`, initialised to 1. -/
  | psem
  deriving DecidableEq

/-- `argv[1]`, as `getInt(.., GN_GT_0, ..)` lets it through. -/
structure NumLoops where
  val : Int
  pos : 0 < val
  le : val ≤ INT_MAX

/-- The globals: `mtx` is its owner, `sem` its value. -/
structure Shared (ι : Type*) where
  glob : Int
  mtx : Option ι
  sem : Nat

inductive Pc where
  /-- At `j < loops`. -/
  | test
  | lock
  /-- At `loc = glob`. -/
  | load
  /-- At `loc++`. -/
  | incr
  /-- At `glob = loc`. -/
  | store
  | unlock
  /-- At `j++`. -/
  | next
  | ended
  deriving DecidableEq

structure Thread where
  j : Int
  loc : Int
  pc : Pc

variable {ι : Type*} [DecidableEq ι] (v : Version) (loops : NumLoops)

/-- `pthread_mutex_lock` or `sem_wait` by thread `i`: `none` while it blocks. -/
def Version.lock (i : ι) (s : Shared ι) : Option (Shared ι) :=
  match v with
  | .plain => some s
  | .mutex => if s.mtx = none then some { s with mtx := some i } else none
  | .psem => if 0 < s.sem then some { s with sem := s.sem - 1 } else none

/-- `pthread_mutex_unlock` by the owner, or `sem_post`. -/
def Version.unlock (i : ι) (s : Shared ι) : Option (Shared ι) :=
  match v with
  | .plain => some s
  | .mutex => if s.mtx = some i then some { s with mtx := none } else none
  | .psem => some { s with sem := s.sem + 1 }

/-- The next step of thread `i`. -/
def threadFunc (i : ι) (s : Shared ι) (t : Thread) : Option (Shared ι × Thread) :=
  match t.pc with
  | .test => some (s, { t with pc := if t.j < loops.val then .lock else .ended })
  | .lock => (v.lock i s).map fun s => (s, { t with pc := .load })
  | .load => some (s, { t with loc := s.glob, pc := .incr })
  | .incr => some (s, { t with loc := toInt32 (t.loc + 1), pc := .store })
  | .store => some ({ s with glob := t.loc }, { t with pc := .unlock })
  | .unlock => (v.unlock i s).map fun s => (s, { t with pc := .next })
  | .next => some (s, { t with j := toInt32 (t.j + 1), pc := .test })
  | .ended => none

abbrev Sys (ι : Type*) := Conf ι (Shared ι) Thread

/-- The threads have just been created. -/
def start : Sys ι :=
  { shared := { glob := 0, mtx := none, sem := 1 }
    own := fun _ => { j := 0, loc := 0, pc := .test } }

/-- Thread `i` runs up to its next access. -/
def exec (c : Sys ι) (i : ι) : Option (Sys ι) :=
  (threadFunc v loops i c.shared (c.own i)).map fun r => c.set i r.1 r.2

def Step (c : Sys ι) (i : ι) (c' : Sys ι) : Prop := exec v loops c i = some c'

/-- What `pthread_join` of every thread waits for. -/
def Ended (c : Sys ι) : Prop := ∀ i, (c.own i).pc = .ended

/-! ## What a step does -/

/-- The steps of `threadFunc`, one constructor for each. -/
inductive Moves (i : ι) (s : Shared ι) (t : Thread) : Shared ι → Thread → Prop where
  | enter (hp : t.pc = .test) (hj : t.j < loops.val) : Moves i s t s { t with pc := .lock }
  | leave (hp : t.pc = .test) (hj : ¬ t.j < loops.val) : Moves i s t s { t with pc := .ended }
  | lock (hp : t.pc = .lock) {s' : Shared ι} (hs : v.lock i s = some s') :
      Moves i s t s' { t with pc := .load }
  | load (hp : t.pc = .load) : Moves i s t s { t with loc := s.glob, pc := .incr }
  | incr (hp : t.pc = .incr) : Moves i s t s { t with loc := toInt32 (t.loc + 1), pc := .store }
  | store (hp : t.pc = .store) : Moves i s t { s with glob := t.loc } { t with pc := .unlock }
  | unlock (hp : t.pc = .unlock) {s' : Shared ι} (hs : v.unlock i s = some s') :
      Moves i s t s' { t with pc := .next }
  | next (hp : t.pc = .next) : Moves i s t s { t with j := toInt32 (t.j + 1), pc := .test }

variable {v loops} {c c' : Sys ι} {i : ι}

theorem Step.moves (h : Step v loops c i c') : ∃ s t, c' = c.set i s t ∧
    Moves v loops i c.shared (c.own i) s t := by
  obtain ⟨⟨s, t⟩, hr, rfl⟩ := Option.map_eq_some_iff.mp h
  refine ⟨s, t, rfl, ?_⟩
  unfold threadFunc at hr
  cases hp : (c.own i).pc <;> simp only [hp, Option.some.injEq, Prod.mk.injEq, reduceCtorEq,
    Option.map_eq_some_iff] at hr
  case test =>
    obtain ⟨rfl, rfl⟩ := hr
    split
    · exact .enter hp ‹_›
    · exact .leave hp ‹_›
  case lock => obtain ⟨s', hs, rfl, rfl⟩ := hr; exact .lock hp hs
  case load => obtain ⟨rfl, rfl⟩ := hr; exact .load hp
  case incr => obtain ⟨rfl, rfl⟩ := hr; exact .incr hp
  case store => obtain ⟨rfl, rfl⟩ := hr; exact .store hp
  case unlock => obtain ⟨s', hs, rfl, rfl⟩ := hr; exact .unlock hp hs
  case next => obtain ⟨rfl, rfl⟩ := hr; exact .next hp

/-- Only a thread that waits for the lock, or unlocks, can be unable to go on. -/
theorem exists_step (h : (c.own i).pc ≠ .ended)
    (hl : (c.own i).pc = .lock → (v.lock i c.shared).isSome)
    (hu : (c.own i).pc = .unlock → (v.unlock i c.shared).isSome) :
    ∃ c', Step v loops c i c' := by
  suffices (exec v loops c i).isSome from Option.isSome_iff_exists.mp this
  unfold exec threadFunc
  cases hp : (c.own i).pc <;> simp_all

/-! ## A thread on its own -/

/-- The iterations whose store has been made. -/
def Thread.done (t : Thread) : Nat :=
  t.j.toNat + if t.pc = .unlock ∨ t.pc = .next then 1 else 0

/-- What a thread keeps whatever the others do. -/
structure ThreadOk (loops : NumLoops) (t : Thread) : Prop where
  nonneg : 0 ≤ t.j
  le : t.j ≤ loops.val
  lt : t.pc ≠ .test → t.pc ≠ .ended → t.j < loops.val
  ended : t.pc = .ended → t.j = loops.val

theorem toInt32_succ {t : Thread} (h : ThreadOk loops t) (hj : t.j < loops.val) :
    toInt32 (t.j + 1) = t.j + 1 := by
  have := h.nonneg
  have := loops.le
  unfold INT_MAX at this
  exact toInt32_of_range (by omega) (by omega)

theorem ThreadOk.moves {s s' : Shared ι} {t t' : Thread} (h : ThreadOk loops t)
    (hm : Moves v loops i s t s' t') : ThreadOk loops t' := by
  cases hm with
  | enter hp hj => exact ⟨h.nonneg, h.le, fun _ _ => hj, by simp⟩
  | leave hp hj => exact ⟨h.nonneg, h.le, fun _ hn => absurd rfl hn,
      fun _ => le_antisymm h.le (not_lt.mp hj)⟩
  | next hp =>
    have hj := h.lt (by simp [hp]) (by simp [hp])
    have h0 := h.nonneg
    rw [toInt32_succ h hj]
    exact ⟨by simp only; omega, by simp only; omega, fun hn => absurd rfl hn, by simp⟩
  | lock hp | load hp | incr hp | store hp | unlock hp =>
    exact ⟨h.nonneg, h.le, fun _ _ => h.lt (by simp [hp]) (by simp [hp]), by simp⟩

/-- Steps that a thread has still to make: eight for an iteration. -/
def Thread.left (loops : NumLoops) (t : Thread) : Nat :=
  8 * (loops.val - t.j).toNat +
    match t.pc with
    | .test => 7 | .lock => 6 | .load => 5 | .incr => 4 | .store => 3 | .unlock => 2 | .next => 1
    | .ended => 0

theorem Moves.left_lt {s s' : Shared ι} {t t' : Thread} (h : ThreadOk loops t)
    (hm : Moves v loops i s t s' t') : t'.left loops < t.left loops := by
  cases hm with
  | next hp =>
    have hj := h.lt (by simp [hp]) (by simp [hp])
    simp only [Thread.left, hp, toInt32_succ h hj]
    omega
  | enter hp | leave hp | lock hp | load hp | incr hp | store hp | unlock hp =>
    simp only [Thread.left, hp]
    omega

/-! ## The lock -/

/-- Between `lock` and the end of `unlock`. -/
def Pc.Inside (pc : Pc) : Prop := pc = .load ∨ pc = .incr ∨ pc = .store ∨ pc = .unlock

/-- The lock says that `o` is inside. -/
def Version.Held (s : Shared ι) (o : Option ι) : Prop :=
  match v with
  | .plain => False
  | .mutex => s.mtx = o
  | .psem => s.sem = if o.isSome then 0 else 1

omit [DecidableEq ι] in
theorem lock_spec {s s' : Shared ι} {o : Option ι} (hh : v.Held s o) (h : v.lock i s = some s') :
    o = none ∧ v.Held s' (some i) ∧ s'.glob = s.glob := by
  cases v with
  | plain => cases hh
  | mutex =>
    obtain ⟨hn, h⟩ := Option.ite_none_right_eq_some.mp h
    cases h
    exact ⟨hh.symm.trans hn, rfl, rfl⟩
  | psem =>
    obtain ⟨hs, h⟩ := Option.ite_none_right_eq_some.mp h
    cases h
    cases o with
    | none => exact ⟨rfl, by simp [Version.Held, show s.sem = 1 from hh], rfl⟩
    | some o => exact absurd hs (by simp [show s.sem = 0 from hh])

omit [DecidableEq ι] in
theorem lock_isSome {s : Shared ι} (hh : v.Held s none) : (v.lock i s).isSome := by
  cases v with
  | plain => cases hh
  | mutex => simp [Version.lock, show s.mtx = none from hh]
  | psem => simp [Version.lock, show s.sem = 1 from hh]

theorem unlock_spec {s s' : Shared ι} (hh : v.Held s (some i)) (h : v.unlock i s = some s') :
    v.Held s' none ∧ s'.glob = s.glob := by
  cases v with
  | plain => cases hh
  | mutex =>
    obtain ⟨-, h⟩ := Option.ite_none_right_eq_some.mp h
    cases h
    exact ⟨rfl, rfl⟩
  | psem =>
    cases h
    exact ⟨by simp [Version.Held, show s.sem = 0 from hh], rfl⟩

theorem unlock_isSome {s : Shared ι} (hh : v.Held s (some i)) : (v.unlock i s).isSome := by
  cases v with
  | plain => cases hh
  | mutex => simp [Version.unlock, show s.mtx = some i from hh]
  | psem => rfl

/-- `o` is the one thread inside, and the lock says so. -/
def Owned (v : Version) (c : Sys ι) (o : Option ι) : Prop :=
  v.Held c.shared o ∧ ∀ i, (c.own i).pc.Inside ↔ o = some i

theorem Owned.set {o : Option ι} (h : Owned v c o) {s : Shared ι} {t : Thread}
    (hs : v.Held c.shared o → v.Held s o) (ht : t.pc.Inside ↔ (c.own i).pc.Inside) :
    Owned v (c.set i s t) o :=
  ⟨hs h.1, (c.forall_set i s t (P := fun j t => t.pc.Inside ↔ o = some j)).mpr
    ⟨ht.trans (h.2 i), fun j _ => h.2 j⟩⟩

theorem Owned.step {o : Option ι} (h : Owned v c o) (hs : Step v loops c i c') :
    ∃ o', Owned v c' o' := by
  obtain ⟨s, t, rfl, hm⟩ := hs.moves
  cases hm with
  | lock hp hl =>
    obtain ⟨rfl, hh, -⟩ := lock_spec h.1 hl
    refine ⟨some i, hh, fun j => ?_⟩
    by_cases hj : j = i
    · simp [hj, Pc.Inside]
    · simpa [hj, Ne.symm hj, Conf.set_own] using h.2 j
  | unlock hp hl =>
    obtain rfl := (h.2 i).mp (by simp [Pc.Inside, hp])
    refine ⟨none, (unlock_spec h.1 hl).1, fun j => ?_⟩
    by_cases hj : j = i
    · simp [hj, Pc.Inside]
    · simpa [hj, Ne.symm hj, Conf.set_own] using h.2 j
  | store hp =>
    refine ⟨o, h.set (fun hh => ?_) (by simp [Pc.Inside, hp])⟩
    cases v <;> exact hh
  | enter hp | leave hp | load hp | incr hp | next hp =>
    exact ⟨o, h.set id (by simp [Pc.Inside, hp])⟩

/-! ## Every run ends -/

/-- What every version keeps. -/
structure Control (v : Version) (loops : NumLoops) (c : Sys ι) : Prop where
  thread : ∀ i, ThreadOk loops (c.own i)
  owner : v ≠ .plain → ∃ o, Owned v c o

omit [DecidableEq ι] in
theorem control_start (v : Version) (loops : NumLoops) : Control v loops (start : Sys ι) where
  thread _ := ⟨le_rfl, loops.pos.le, fun h => absurd rfl h, by simp [start]⟩
  owner h := ⟨none, by cases v <;> simp_all [Version.Held, start], by simp [start, Pc.Inside]⟩

theorem Control.step (h : Control v loops c) (hs : Step v loops c i c') : Control v loops c' := by
  refine ⟨?_, fun hv => ?_⟩
  · obtain ⟨s, t, rfl, hm⟩ := hs.moves
    exact (c.forall_set i s t).mpr ⟨(h.thread i).moves hm, fun j _ => h.thread j⟩
  · obtain ⟨o, ho⟩ := h.owner hv
    exact ho.step hs

theorem Control.next (h : Control v loops c) : Ended c ∨ ∃ i c', Step v loops c i c' := by
  by_cases he : Ended c
  · exact .inl he
  refine .inr ?_
  simp only [Ended, not_forall] at he
  obtain ⟨k, hk⟩ := he
  by_cases hv : v = .plain
  · subst hv
    exact ⟨k, exists_step hk (fun _ => rfl) fun _ => rfl⟩
  obtain ⟨o, ho⟩ := h.owner hv
  cases o with
  | none =>
    refine ⟨k, exists_step hk (fun _ => lock_isSome ho.1) fun hu => ?_⟩
    exact absurd ((ho.2 k).mp (by simp [Pc.Inside, hu])) (by simp)
  | some i =>
    have hi : (c.own i).pc.Inside := (ho.2 i).mpr rfl
    refine ⟨i, exists_step ?_ (fun hl => ?_) fun _ => unlock_isSome ho.1⟩
    · rintro he
      simp [he, Pc.Inside] at hi
    · simp [hl, Pc.Inside] at hi

/-- **The threads end in every version**: no interleaving of their accesses runs for ever, and
none blocks them. -/
theorem run_ends [Fintype ι] (v : Version) (loops : NumLoops) :
    Ends (Step v loops) (start : Sys ι) Ended :=
  Ends.of_measure (μ := fun c => c.total fun _ t => t.left loops)
    (fun c i c' h hs => ⟨h.step hs, by
      obtain ⟨s, t, rfl, hm⟩ := hs.moves
      exact c.total_set_lt (hm.left_lt (h.thread i))⟩)
    (fun _ h => h.next) (control_start v loops)

/-! ## With a lock -/

/-- What the thread inside has read is what `glob` still holds, and `glob` counts the stores. -/
structure Counted [Fintype ι] (c : Sys ι) : Prop where
  glob : c.shared.glob = toInt32 (c.total fun _ t => t.done)
  incr : ∀ i, (c.own i).pc = .incr → (c.own i).loc = c.shared.glob
  store : ∀ i, (c.own i).pc = .store → (c.own i).loc = toInt32 (c.shared.glob + 1)

theorem toInt32_add_one (n : Nat) : toInt32 (toInt32 n + 1) = toInt32 ((n + 1 : Nat) : Int) := by
  rw [Nat.cast_add, Nat.cast_one]
  exact Int.bmod_add_bmod

section locked

variable [Fintype ι]

theorem Counted.set (h : Counted c) {s : Shared ι} {t : Thread} (hs : s.glob = c.shared.glob)
    (hd : t.done = (c.own i).done) (hi : t.pc = .incr → t.loc = c.shared.glob)
    (hst : t.pc = .store → t.loc = toInt32 (c.shared.glob + 1)) : Counted (c.set i s t) := by
  refine ⟨?_, fun j hj => ?_, fun j hj => ?_⟩
  · rw [Conf.set_shared, hs, h.glob, c.total_set_eq hd]
  all_goals
    rw [Conf.set_shared, hs]
    by_cases hji : j = i
    · subst hji
      rw [Conf.set_own_self] at hj ⊢
      first | exact hi hj | exact hst hj
    · rw [c.set_own_of_ne s t hji] at hj ⊢
      first | exact h.incr j hj | exact h.store j hj

theorem Counted.step {o : Option ι} (h : Counted c) (ho : Owned v c o)
    (hc : ThreadOk loops (c.own i)) (hs : Step v loops c i c') : Counted c' := by
  obtain ⟨s, t, rfl, hm⟩ := hs.moves
  cases hm with
  | enter hp | leave hp => exact h.set rfl (by simp [Thread.done, hp]) (by simp) (by simp)
  | lock hp hl =>
    exact h.set (lock_spec ho.1 hl).2.2 (by simp [Thread.done, hp]) (by simp) (by simp)
  | load hp => exact h.set rfl (by simp [Thread.done, hp]) (by simp) (by simp)
  | incr hp =>
    refine h.set rfl (by simp [Thread.done, hp]) (by simp) fun _ => ?_
    simp only
    rw [h.incr i hp]
  | unlock hp hl =>
    obtain rfl := (ho.2 i).mp (by simp [Pc.Inside, hp])
    exact h.set (unlock_spec ho.1 hl).2 (by simp [Thread.done, hp]) (by simp) (by simp)
  | next hp =>
    have hlt := hc.lt (by simp [hp]) (by simp [hp])
    have h0 := hc.nonneg
    refine h.set rfl ?_ (by simp) (by simp)
    simp only [Thread.done, hp, toInt32_succ hc hlt]
    simp
    omega
  | store hp =>
    -- the one inside, so nobody else relies on `glob`
    have hin := (ho.2 i).mp (by simp [Pc.Inside, hp])
    have hother : ∀ j, j ≠ i → ¬ (c.own j).pc.Inside := fun j hj hj' => by
      rw [ho.2 j, hin, Option.some.injEq] at hj'
      exact hj hj'.symm
    refine ⟨?_, fun j hj => ?_, fun j hj => ?_⟩
    · rw [c.total_set_succ (by simp [Thread.done, hp])]
      calc (c.own i).loc = toInt32 (c.shared.glob + 1) := h.store i hp
        _ = _ := by rw [h.glob, toInt32_add_one]
    all_goals
      by_cases hji : j = i
      · subst hji
        simp at hj
      · rw [c.set_own_of_ne _ _ hji] at hj
        exact absurd (by simp [Pc.Inside, hj]) (hother j hji)

omit [DecidableEq ι] in
theorem counted_start : Counted (start : Sys ι) := by
  refine ⟨?_, by simp [start], by simp [start]⟩
  rw [((start : Sys ι).total_eq_zero _).mpr fun i => by simp [start, Thread.done]]
  exact (toInt32_of_range (x := 0) (by norm_num) (by norm_num)).symm

theorem glob_eq_of_locked (hv : v ≠ .plain) {as : List ι} (h : Run (Step v loops) start as c)
    (hend : Ended c) : c.shared.glob = toInt32 (Fintype.card ι * loops.val) := by
  obtain ⟨hctl, hcnt⟩ := h.invariant (I := fun c => Control v loops c ∧ Counted c)
    (fun c i c' ⟨h1, h2⟩ hs => ⟨h1.step hs, by
      obtain ⟨o, ho⟩ := h1.owner hv
      exact h2.step ho (h1.thread i) hs⟩) ⟨control_start v loops, counted_start⟩
  have hpos := loops.pos
  rw [hcnt.glob, c.total_const _ (n := loops.val.toNat) fun i => ?_]
  · rw [Nat.cast_mul, Int.toNat_of_nonneg hpos.le]
  · simp [Thread.done, hend i, (hctl.thread i).ended (hend i)]

/-- **With a mutex or a semaphore no update is lost**: the threads end in every interleaving,
with the number of iterations of all of them in `glob` (as an `int`). -/
theorem locked_prints (ι : Type*) [DecidableEq ι] [Fintype ι] (loops : NumLoops)
    (hv : v ≠ .plain) :
    Ends (Step v loops) (start : Sys ι) Ended ∧
      ∀ as c, Run (Step v loops) (start : Sys ι) as c → Ended c →
        c.shared.glob = toInt32 (Fintype.card ι * loops.val) :=
  ⟨run_ends v loops, fun _ _ h hend => glob_eq_of_locked hv h hend⟩

/-- The default of `main`. -/
def defaultLoops : NumLoops := ⟨10000000, by decide, by decide⟩

theorem locked_prints_default :
    ∃ as c, Run (Step .mutex defaultLoops) (start : Sys (Fin 2)) as c ∧ Ended c ∧
      c.shared.glob = 20000000 := by
  obtain ⟨hends, hglob⟩ := locked_prints (v := .mutex) (Fin 2) defaultLoops (by decide)
  obtain ⟨as, c, hr, hend⟩ := hends.completes [] start (.nil _)
  refine ⟨as, c, hr, hend, (hglob as c hr hend).trans ?_⟩
  rw [Fintype.card_fin]
  exact toInt32_of_range (x := 2 * 10000000) (by norm_num) (by norm_num)

end locked

/-! ## Without a lock: bounds -/

/-- The local copy of a thread, `n` stores having been made in all: it has seen no more than
these, and not less than what its own last store left behind. -/
structure LocOk (n : Nat) (t : Thread) : Prop where
  incr : t.pc = .incr → min 1 (t.done : Int) ≤ t.loc ∧ t.loc ≤ n
  store : t.pc = .store → min 2 (t.done + 1 : Int) ≤ t.loc ∧ t.loc ≤ n + 1

/-- What threads that race keep. -/
structure Racing [Fintype ι] (loops : NumLoops) (c : Sys ι) : Prop where
  thread : ∀ i, ThreadOk loops (c.own i)
  nonneg : 0 ≤ c.shared.glob
  le : c.shared.glob ≤ c.total fun _ t => t.done
  pos : ∀ i, 1 ≤ (c.own i).done → 1 ≤ c.shared.glob
  two : 2 ≤ c.shared.glob ∨ ∃ i, (c.own i).done ≤ 1
  loc : ∀ i, LocOk (c.total fun _ t => t.done) (c.own i)

section race

variable [Fintype ι]

theorem Racing.set (h : Racing loops c) {t : Thread} (ht : ThreadOk loops t) {s : Shared ι}
    (hs : s.glob = c.shared.glob) (hd : t.done = (c.own i).done)
    (hl : LocOk (c.total fun _ t => t.done) t) : Racing loops (c.set i s t) := by
  have htot : (c.set i s t).total (fun _ t => t.done) = c.total fun _ t => t.done :=
    c.total_set_eq hd
  have hdone : ∀ j, ((c.set i s t).own j).done = (c.own j).done :=
    (c.forall_set i s t (P := fun j t => t.done = (c.own j).done)).mpr ⟨hd, fun _ _ => rfl⟩
  refine ⟨(c.forall_set i s t).mpr ⟨ht, fun j _ => h.thread j⟩, ?_, ?_, ?_, ?_, ?_⟩
  · simpa [hs] using h.nonneg
  · simpa [hs, htot] using h.le
  · simpa only [Conf.set_shared, hs, hdone] using h.pos
  · simpa only [Conf.set_shared, hs, hdone] using h.two
  · rw [htot]
    exact (c.forall_set i s t (P := fun _ => LocOk _)).mpr ⟨hl, fun j _ => h.loc j⟩

theorem done_le {t : Thread} (h : ThreadOk loops t) : (t.done : Int) ≤ loops.val := by
  have h0 := h.nonneg
  have hle := h.le
  have hlt := h.lt
  unfold Thread.done
  split
  · next hp => rcases hp with hp | hp <;> simp [hp] at hlt <;> omega
  · omega

omit [DecidableEq ι] in
theorem Racing.total_lt (h : Racing loops c) (hi : ((c.own i).done : Int) < loops.val) :
    ((c.total fun _ t => t.done : Nat) : Int) < Fintype.card ι * loops.val := by
  have := c.total_lt_sum (g := fun _ t => t.done) (f := fun _ => loops.val)
    (fun j => done_le (h.thread j)) hi
  rwa [Finset.sum_const, Finset.card_univ, nsmul_eq_mul] at this

theorem Racing.store (h : Racing loops c) (hp : (c.own i).pc = .store)
    (ht : ThreadOk loops { c.own i with pc := .unlock }) :
    Racing loops (c.set i { c.shared with glob := (c.own i).loc }
      { c.own i with pc := .unlock }) := by
  have hd : ({ c.own i with pc := .unlock } : Thread).done = (c.own i).done + 1 := by
    simp [Thread.done, hp]
  obtain ⟨hlow, hup⟩ := (h.loc i).store hp
  have hnext := (h.nonneg).trans h.le
  refine ⟨(c.forall_set i _ _).mpr ⟨ht, fun j _ => h.thread j⟩, ?_, ?_, fun _ _ => ?_, ?_, ?_⟩
  · rw [Conf.set_shared]
    simp only
    omega
  · rw [c.total_set_succ hd, Conf.set_shared]
    simp only
    omega
  · rw [Conf.set_shared]
    simp only
    omega
  · -- a first store leaves this thread with one, a later one writes at least 2
    by_cases h0 : (c.own i).done = 0
    · refine .inr ⟨i, ?_⟩
      rw [Conf.set_own_self, hd, h0]
    · refine .inl ?_
      rw [Conf.set_shared]
      simp only
      omega
  · rw [c.total_set_succ hd]
    refine (c.forall_set i _ _ (P := fun _ => LocOk _)).mpr ⟨⟨by simp, by simp⟩, fun j _ => ?_⟩
    have hj := h.loc j
    refine ⟨fun hp => ?_, fun hp => ?_⟩
    · have := hj.incr hp
      omega
    · have := hj.store hp
      omega

theorem Racing.step (hmax : Fintype.card ι * loops.val ≤ INT_MAX) (h : Racing loops c)
    (hs : Step .plain loops c i c') : Racing loops c' := by
  obtain ⟨s, t, rfl, hm⟩ := hs.moves
  have ht := (h.thread i).moves hm
  cases hm with
  | enter hp | leave hp =>
    exact h.set ht rfl (by simp [Thread.done, hp]) ⟨by simp, by simp⟩
  | lock hp hl | unlock hp hl =>
    cases hl
    exact h.set ht rfl (by simp [Thread.done, hp]) ⟨by simp, by simp⟩
  | load hp =>
    have hd : ({ c.own i with loc := c.shared.glob, pc := .incr } : Thread).done =
        (c.own i).done := by simp [Thread.done, hp]
    refine h.set ht rfl hd ⟨fun _ => ⟨?_, h.le⟩, by simp⟩
    have h1 := h.pos i
    have h2 := h.nonneg
    rw [hd]
    simp only
    omega
  | incr hp =>
    have hd : ({ c.own i with loc := toInt32 ((c.own i).loc + 1), pc := .store } : Thread).done =
        (c.own i).done := by simp [Thread.done, hp]
    obtain ⟨h1, h2⟩ := (h.loc i).incr hp
    have h3 := (h.thread i).lt (by simp [hp]) (by simp [hp])
    have h4 := (h.thread i).nonneg
    have h5 : (c.own i).done = (c.own i).j.toNat := by simp [Thread.done, hp]
    have h6 := h.total_lt (i := i) (by omega)
    have hloc : toInt32 ((c.own i).loc + 1) = (c.own i).loc + 1 := by
      unfold INT_MAX at hmax
      exact toInt32_of_range (by omega) (by omega)
    refine h.set ht rfl hd ⟨by simp, fun _ => ?_⟩
    rw [hd]
    simp only [hloc]
    omega
  | next hp =>
    have hlt := (h.thread i).lt (by simp [hp]) (by simp [hp])
    have h0 := (h.thread i).nonneg
    refine h.set ht rfl ?_ ⟨by simp, by simp⟩
    simp only [Thread.done, hp, toInt32_succ (h.thread i) hlt]
    simp
    omega
  | store hp => exact h.store hp ht

/-- The bounds without a lock, for any number of threads. -/
theorem racing_bounds [Nonempty ι] (hmax : Fintype.card ι * loops.val ≤ INT_MAX) {as : List ι}
    (h : Run (Step .plain loops) start as c) (hend : Ended c) :
    min 2 loops.val ≤ c.shared.glob ∧ c.shared.glob ≤ Fintype.card ι * loops.val := by
  have hstart : Racing loops (start : Sys ι) :=
    ⟨(control_start .plain loops).thread, le_rfl, Int.natCast_nonneg _,
      by simp [start, Thread.done],
      .inr ⟨Classical.arbitrary ι, by simp [start, Thread.done]⟩,
      fun _ => ⟨by simp [start], by simp [start]⟩⟩
  have hr := h.invariant (fun c i c' hc hs => Racing.step hmax hc hs) hstart
  have hpos := loops.pos
  have hdone : ∀ i, (c.own i).done = loops.val.toNat := fun i => by
    simp [Thread.done, hend i, (hr.thread i).ended (hend i)]
  refine ⟨?_, ?_⟩
  · have h1 := hr.pos (Classical.arbitrary ι) (by rw [hdone]; omega)
    rcases hr.two with h2 | ⟨i, hi⟩
    · omega
    · rw [hdone] at hi
      omega
  · have hle := hr.le
    rwa [c.total_const _ hdone, Nat.cast_mul, Int.toNat_of_nonneg hpos.le] at hle

end race

/-! ## Without a lock: every value between the bounds -/

/-- `n` steps of thread `i` while the others wait. -/
def alone (loops : NumLoops) (i : ι) : Nat → Shared ι → Thread → Option (Shared ι × Thread)
  | 0, s, t => some (s, t)
  | n + 1, s, t => (threadFunc .plain loops i s t).bind fun r => alone loops i n r.1 r.2

theorem run_alone {n : Nat} {s : Shared ι} {t : Thread}
    (h : alone loops i n c.shared (c.own i) = some (s, t)) :
    Run (Step .plain loops) c (List.replicate n i) (c.set i s t) := by
  induction n generalizing c with
  | zero =>
    cases h
    rw [Conf.set, Function.update_eq_self]
    exact .nil c
  | succ n ih =>
    obtain ⟨⟨s1, t1⟩, h1, h2⟩ := Option.bind_eq_some_iff.mp h
    refine .cons (t := c.set i s1 t1) (Option.map_eq_some_iff.mpr ⟨_, h1, rfl⟩) ?_
    have := ih (c := c.set i s1 t1) (by simpa using h2)
    rwa [Conf.set_set] at this

/-- Between two iterations. -/
def Top (j : Int) (t : Thread) : Prop := t.pc = .test ∧ t.j = j

/-- In an iteration that has read `l`. -/
def Loaded (j l : Int) (t : Thread) : Prop := t.pc = .incr ∧ t.j = j ∧ t.loc = l

/-- Thread `i` alone can bring `c` to a state with `g` in `glob` and itself where `P` holds. -/
def Solo (loops : NumLoops) (i : ι) (c : Sys ι) (g : Int) (P : Thread → Prop) : Prop :=
  ∃ as c', Run (Step .plain loops) c as c' ∧ c'.shared.glob = g ∧
    (∀ k, k ≠ i → c'.own k = c.own k) ∧ P (c'.own i)

theorem Solo.of_alone {n : Nat} {s : Shared ι} {t : Thread} {P : Thread → Prop}
    (h : alone loops i n c.shared (c.own i) = some (s, t)) (hp : P t) :
    Solo loops i c s.glob P :=
  ⟨_, _, run_alone h, rfl, fun _ hk => c.set_own_of_ne s t hk, by rwa [Conf.set_own_self]⟩

theorem Solo.trans {g g' : Int} {P Q : Thread → Prop} (h : Solo loops i c g P)
    (h' : ∀ c', c'.shared.glob = g → P (c'.own i) → Solo loops i c' g' Q) :
    Solo loops i c g' Q := by
  obtain ⟨as, c1, hr, hg, hk, hp⟩ := h
  obtain ⟨bs, c2, hr', hg', hk', hq⟩ := h' c1 hg hp
  exact ⟨as ++ bs, c2, hr.append hr', hg', fun k hne => (hk' k hne).trans (hk k hne), hq⟩

theorem solo_read {j : Int} (h : Top j (c.own i)) (hj : j < loops.val) :
    Solo loops i c c.shared.glob (Loaded j c.shared.glob) := by
  obtain ⟨hp, rfl⟩ := h
  refine Solo.of_alone (n := 3) (s := c.shared)
    (t := { c.own i with loc := c.shared.glob, pc := .incr }) ?_ ⟨rfl, rfl, rfl⟩
  simp [alone, threadFunc, Version.lock, hp, hj]

theorem solo_write {j l : Int} (h : Loaded j l (c.own i)) (hj : 0 ≤ j) (hlt : j < loops.val)
    (hl : 0 ≤ l) (hmax : l < INT_MAX) : Solo loops i c (l + 1) (Top (j + 1)) := by
  obtain ⟨hp, rfl, rfl⟩ := h
  have hle := loops.le
  unfold INT_MAX at hmax hle
  have h1 : toInt32 ((c.own i).loc + 1) = (c.own i).loc + 1 :=
    toInt32_of_range (by omega) (by omega)
  have h2 : toInt32 ((c.own i).j + 1) = (c.own i).j + 1 := toInt32_of_range (by omega) (by omega)
  refine Solo.of_alone (n := 4) (s := { c.shared with glob := (c.own i).loc + 1 })
    (t := ⟨(c.own i).j + 1, (c.own i).loc + 1, .test⟩) ?_ ⟨rfl, rfl⟩
  simp [alone, threadFunc, Version.unlock, hp, h1, h2]

theorem solo_iterate (k : Nat) {j : Int} (h : Top j (c.own i)) (hj : 0 ≤ j)
    (hlt : j + k ≤ loops.val) (hg : 0 ≤ c.shared.glob) (hmax : c.shared.glob + k ≤ INT_MAX) :
    Solo loops i c (c.shared.glob + k) (Top (j + k)) := by
  induction k generalizing c j with
  | zero => exact ⟨[], c, .nil c, by simp, fun _ _ => rfl, by simpa using h⟩
  | succ k ih =>
    push_cast at hlt hmax ⊢
    refine (solo_read h (by omega)).trans fun c1 h1 hl => ?_
    refine (solo_write hl hj (by omega) hg (by omega)).trans fun c2 h2 ht => ?_
    have := ih ht (by omega) (by omega) (by omega) (by omega)
    rwa [h2, add_right_comm, add_assoc, add_right_comm j, add_assoc j] at this

theorem solo_end (h : Top loops.val (c.own i)) :
    Solo loops i c c.shared.glob fun t => t.pc = .ended := by
  obtain ⟨hp, hj⟩ := h
  refine Solo.of_alone (n := 1) (s := c.shared) (t := { c.own i with pc := .ended }) ?_ rfl
  simp [alone, threadFunc, hp, hj]

/-- The two threads of `main` can come to `g` in `glob`, thread `i` where `P` holds and the other
one where `Q` does. -/
def Reach (loops : NumLoops) (i : Fin 2) (g : Int) (P Q : Thread → Prop) : Prop :=
  ∃ as c, Run (Step .plain loops) start as c ∧ c.shared.glob = g ∧ P (c.own i) ∧ Q (c.own (1 - i))

section reach

variable {k : Fin 2} {g j l : Int} {P Q : Thread → Prop}

theorem Reach.solo {g' : Int} {P' : Thread → Prop} (h : Reach loops k g P Q)
    (hs : ∀ c, c.shared.glob = g → P (c.own k) → Solo loops k c g' P') :
    Reach loops k g' P' Q := by
  obtain ⟨as, c, hr, hg, hp, hq⟩ := h
  obtain ⟨bs, c', hr', hg', hk, hp'⟩ := hs c hg hp
  exact ⟨as ++ bs, c', hr.append hr', hg', hp', hk (1 - k) (by fin_cases k <;> decide) ▸ hq⟩

theorem Reach.switch (h : Reach loops k g P Q) : Reach loops (1 - k) g Q P := by
  obtain ⟨as, c, hr, hg, hp, hq⟩ := h
  exact ⟨as, c, hr, hg, hq, by rwa [sub_sub_cancel]⟩

theorem Reach.iterate (n : Nat) (h : Reach loops k g (Top j) Q) (hj : 0 ≤ j)
    (hlt : j + n ≤ loops.val) (hg : 0 ≤ g) (hmax : g + n ≤ INT_MAX) :
    Reach loops k (g + n) (Top (j + n)) Q :=
  h.solo fun _ hc ht => hc ▸ solo_iterate n ht hj hlt (hc ▸ hg) (hc ▸ hmax)

theorem Reach.read (h : Reach loops k g (Top j) Q) (hlt : j < loops.val) :
    Reach loops k g (Loaded j g) Q :=
  h.solo fun _ hc ht => hc ▸ solo_read ht hlt

theorem Reach.write (h : Reach loops k g (Loaded j l) Q) (hj : 0 ≤ j) (hlt : j < loops.val)
    (hl : 0 ≤ l) (hmax : l < INT_MAX) : Reach loops k (l + 1) (Top (j + 1)) Q :=
  h.solo fun _ _ ht => solo_write ht hj hlt hl hmax

theorem Reach.finish (h : Reach loops 0 g (Top loops.val) (Top loops.val)) :
    ∃ as c, Run (Step .plain loops) (start : Sys (Fin 2)) as c ∧ Ended c ∧ c.shared.glob = g := by
  have h1 := (h.solo fun c hc ht => hc ▸ solo_end ht).switch
  obtain ⟨as, c, hr, hg, hp, hq⟩ := h1.solo fun c hc ht => hc ▸ solo_end ht
  exact ⟨as, c, hr, fun i => by fin_cases i <;> assumption, hg⟩

end reach

/-- From one to two times the number of iterations: the first store of thread 0 undoes the first
iterations of thread 1. -/
theorem exists_run_of_le {x : Int} (hmax : 2 * loops.val ≤ INT_MAX) (h1 : loops.val ≤ x)
    (h2 : x ≤ 2 * loops.val) :
    ∃ as c, Run (Step .plain loops) (start : Sys (Fin 2)) as c ∧ Ended c ∧ c.shared.glob = x := by
  have hpos := loops.pos
  obtain ⟨n, hn⟩ := Int.eq_ofNat_of_zero_le (show 0 ≤ 2 * loops.val - x by omega)
  obtain ⟨m, hm⟩ := Int.eq_ofNat_of_zero_le hpos.le
  have h0 : Reach loops 0 0 (Top 0) (Top 0) := ⟨[], start, .nil _, rfl, ⟨rfl, rfl⟩, ⟨rfl, rfl⟩⟩
  have h1 : Reach loops 1 0 (Top 0) (Loaded 0 0) := (h0.read hpos).switch
  have h2 : Reach loops 0 (0 + n) (Loaded 0 0) (Top (0 + n)) :=
    (h1.iterate n le_rfl (by omega) le_rfl (by omega)).switch
  have h3 : Reach loops 0 (0 + 1) (Top (0 + 1)) (Top (0 + n)) :=
    h2.write le_rfl hpos le_rfl (by omega)
  have h4 := (h3.iterate (m - 1) (by omega) (by omega) (by omega) (by omega)).switch
  have h5 := (h4.iterate (m - n) (by omega) (by omega) (by omega) (by omega)).switch
  rw [show (0 : Int) + n + (m - n : Nat) = loops.val by omega,
    show (0 : Int) + 1 + (m - 1 : Nat) = loops.val by omega,
    show loops.val + (m - n : Nat) = x by omega] at h5
  exact h5.finish

/-- From 2 on: both threads start their last, or only, remaining iterations from 1. -/
theorem exists_run_of_lt {x : Int} (hmax : 2 * loops.val ≤ INT_MAX) (h1 : 2 ≤ x)
    (h2 : x < loops.val) :
    ∃ as c, Run (Step .plain loops) (start : Sys (Fin 2)) as c ∧ Ended c ∧ c.shared.glob = x := by
  obtain ⟨n, hn⟩ := Int.eq_ofNat_of_zero_le (show 0 ≤ x by omega)
  obtain ⟨m, hm⟩ := Int.eq_ofNat_of_zero_le loops.pos.le
  have h0 : Reach loops 0 0 (Top 0) (Top 0) := ⟨[], start, .nil _, rfl, ⟨rfl, rfl⟩, ⟨rfl, rfl⟩⟩
  have h1 : Reach loops 1 0 (Top 0) (Loaded 0 0) := (h0.read loops.pos).switch
  -- all iterations of thread 1 but the last one are lost
  have h2 : Reach loops 0 (0 + (m - 1 : Nat)) (Loaded 0 0) (Top (0 + (m - 1 : Nat))) :=
    (h1.iterate (m - 1) le_rfl (by omega) le_rfl (by omega)).switch
  have h3 : Reach loops 1 (0 + 1) (Top (0 + (m - 1 : Nat))) (Top (0 + 1)) :=
    (h2.write le_rfl loops.pos le_rfl (by omega)).switch
  have h4 := (h3.read (by omega)).switch
  -- and then as many of thread 0 as `x` leaves out
  have h5 := (h4.iterate (m + 1 - n) (by omega) (by omega) (by omega) (by omega)).switch
  have h6 := (h5.write (by omega) (by omega) (by omega) (by omega)).switch
  have h7 := h6.iterate (n - 2) (by omega) (by omega) (by omega) (by omega)
  rw [show (0 : Int) + 1 + (m + 1 - n : Nat) + (n - 2 : Nat) = loops.val by omega,
    show (0 : Int) + (m - 1 : Nat) + 1 = loops.val by omega,
    show (0 : Int) + 1 + 1 + (n - 2 : Nat) = x by omega] at h7
  exact h7.finish

/-- **What `thread_incr` can print**: every value between 2 (or 1, for one iteration) and the number
of iterations of both threads, and no other. -/
theorem glob_iff_of_plain (hmax : 2 * loops.val ≤ INT_MAX) (x : Int) :
    (∃ as c, Run (Step .plain loops) (start : Sys (Fin 2)) as c ∧ Ended c ∧ c.shared.glob = x) ↔
      min 2 loops.val ≤ x ∧ x ≤ 2 * loops.val := by
  refine ⟨?_, fun ⟨h1, h2⟩ => ?_⟩
  · rintro ⟨as, c, hr, hend, rfl⟩
    have := racing_bounds (by simpa using hmax) hr hend
    rwa [Fintype.card_fin] at this
  · by_cases h : loops.val ≤ x
    · exact exists_run_of_le hmax h h2
    · exact exists_run_of_lt hmax (by omega) (by omega)

theorem glob_iff_of_plain_default :
    ∃ as c, Run (Step .plain defaultLoops) (start : Sys (Fin 2)) as c ∧ Ended c ∧
      c.shared.glob = 2 :=
  (glob_iff_of_plain (by decide) 2).mpr (by decide)

end Tlpi.ThreadIncr
