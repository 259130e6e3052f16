import Tlpi.Lib.Lts
import Tlpi.Lib.Threads

/-!
# Waiting for children by signal

`tlpi-dist/procexec/multi_SIGCHLD.c`: a parent that creates its children with `SIGCHLD` blocked and
then sleeps in `sigsuspend` until a handler has reaped them all. A signal that is pending is a flag:
any number of children that end before it is delivered are one signal. The handler runs with the
signal blocked again, and `sigsuspend` returns after one run of it.

A dead child that has not been reaped keeps the signal pending, or the handler is still to come to
it (`Inv.zombie`), so the parent does not sleep for ever. The handler runs at least once and
at most as often as there are children, and each such count is possible (`sigCnt_iff`).
-/

namespace Tlpi.MultiSigchld

open Tlpi.Lib

inductive Child where
  /-- Not created yet. -/
  | unborn
  | running
  | zombie
  | reaped
  deriving DecidableEq

inductive Pc where
  /-- At `j < argc` in the loop that creates the children, `j` of them created. -/
  | fork (j : Nat)
  /-- At `numLiveChildren > 0`. -/
  | test
  /-- In `sigsuspend`. -/
  | suspend
  /-- At `waitpid` in the handler. -/
  | handler
  /-- At `sigCnt++`. -/
  | count
  | exited
  deriving DecidableEq

/-- The parent, and its pending `SIGCHLD`. -/
structure Parent where
  pc : Pc
  numLiveChildren : Int
  sigCnt : Int
  pending : Bool

abbrev Sys (n : Nat) := Conf (Fin n) Parent Child

inductive Act (n : Nat) where
  | parent
  /-- `waitpid` in the handler returns child `i`. -/
  | reap (i : Fin n)
  /-- Child `i` ends. -/
  | exit (i : Fin n)

variable {n : Nat}

/-- The next step of the parent, but for a `waitpid` that returns a child: while there is one to be
returned, that is what `waitpid` does. -/
def parent (c : Sys n) : Option (Sys n) :=
  let s := c.shared
  match s.pc with
  | .fork j =>
    if h : j < n then some (c.set ⟨j, h⟩ { s with pc := .fork (j + 1) } .running)
    else some { c with shared := { s with pc := .test } }
  | .test =>
    some { c with shared := { s with pc := if 0 < s.numLiveChildren then .suspend else .exited } }
  | .suspend =>
    if s.pending then some { c with shared := { s with pc := .handler, pending := false } }
    else none
  | .handler =>
    if ∃ i, c.own i = .zombie then none else some { c with shared := { s with pc := .count } }
  | .count => some { c with shared := { s with pc := .test, sigCnt := s.sigCnt + 1 } }
  | .exited => none

def exec (c : Sys n) : Act n → Option (Sys n)
  | .parent => parent c
  | .reap i =>
    if c.shared.pc = .handler ∧ c.own i = .zombie then
      some (c.set i { c.shared with numLiveChildren := c.shared.numLiveChildren - 1 } .reaped)
    else none
  | .exit i =>
    if c.own i = .running then some (c.set i { c.shared with pending := true } .zombie) else none

def Step (c : Sys n) (a : Act n) (c' : Sys n) : Prop := exec c a = some c'

/-- The parent before the loop, for `n` children: that is `argc - 1`, so neither counter can leave
the range of an `int`. -/
def start (n : Nat) : Sys n where
  shared := { pc := .fork 0, numLiveChildren := n, sigCnt := 0, pending := false }
  own _ := .unborn

def Exited (c : Sys n) : Prop := c.shared.pc = .exited

/-! ## What every step keeps -/

variable {c c' : Sys n}

/-- Not reaped yet. -/
def Child.live : Child → Nat
  | .reaped => 0
  | _ => 1

/-- Ended, reaped or not. -/
def Child.dead : Child → Nat
  | .zombie | .reaped => 1
  | _ => 0

/-- In the handler, or between its end and `sigCnt++`. -/
def Pc.handling : Pc → Nat
  | .handler | .count => 1
  | _ => 0

structure Inv (c : Sys n) : Prop where
  live : c.shared.numLiveChildren = c.total fun _ t => t.live
  zombie : ∀ i, c.own i = .zombie → c.shared.pending = true ∨ c.shared.pc = .handler
  signals : c.shared.sigCnt + c.shared.pc.handling + (if c.shared.pending then 1 else 0 : Nat) ≤
    (c.total fun _ t => t.dead : Nat)
  handled : 0 ≤ c.shared.sigCnt ∧
    (∀ i, c.own i = .reaped → 0 < c.shared.sigCnt + c.shared.pc.handling)
  forked : ∀ j, c.shared.pc = .fork j → j ≤ n ∧ ∀ i : Fin n, c.own i = .unborn ↔ j ≤ i
  born : (∀ j, c.shared.pc ≠ .fork j) → ∀ i, c.own i ≠ .unborn
  suspend : c.shared.pc = .suspend → 0 < c.shared.numLiveChildren
  exited : c.shared.pc = .exited → c.shared.numLiveChildren ≤ 0

theorem inv_start (n : Nat) : Inv (start n) where
  live := by simp [start, Conf.total, Child.live]
  zombie i h := by simp [start] at h
  signals := by simp [start, Conf.total, Child.dead, Pc.handling]
  handled := ⟨le_rfl, fun i h => by simp [start] at h⟩
  forked j h := by
    cases h
    simp [start]
  born h := absurd rfl (h 0)
  suspend h := by simp [start] at h
  exited h := by simp [start] at h

/-- The steps of the parent and its children, one constructor for each. -/
inductive SysStep (c : Sys n) : Sys n → Prop where
  | fork {j : Nat} (hpc : c.shared.pc = .fork j) (h : j < n) :
      SysStep c (c.set ⟨j, h⟩ { c.shared with pc := .fork (j + 1) } .running)
  | forked {j : Nat} (hpc : c.shared.pc = .fork j) (h : n ≤ j) :
      SysStep c { c with shared := { c.shared with pc := .test } }
  | test (hpc : c.shared.pc = .test) :
      SysStep c { c with shared :=
        { c.shared with pc := if 0 < c.shared.numLiveChildren then .suspend else .exited } }
  | deliver (hpc : c.shared.pc = .suspend) (hp : c.shared.pending = true) :
      SysStep c { c with shared := { c.shared with pc := .handler, pending := false } }
  | none (hpc : c.shared.pc = .handler) (hz : ∀ i, c.own i ≠ .zombie) :
      SysStep c { c with shared := { c.shared with pc := .count } }
  | count (hpc : c.shared.pc = .count) :
      SysStep c { c with shared := { c.shared with pc := .test, sigCnt := c.shared.sigCnt + 1 } }
  | reap {i : Fin n} (hpc : c.shared.pc = .handler) (hz : c.own i = .zombie) :
      SysStep c (c.set i { c.shared with numLiveChildren := c.shared.numLiveChildren - 1 } .reaped)
  | exit {i : Fin n} (hr : c.own i = .running) :
      SysStep c (c.set i { c.shared with pending := true } .zombie)

theorem sysStep {a : Act n} (h : Step c a c') : SysStep c c' := by
  cases a with
  | parent =>
    simp only [Step, exec, parent] at h
    cases hpc : c.shared.pc <;> simp only [hpc, reduceCtorEq] at h
    case fork j =>
      split at h <;> cases h
      · exact .fork hpc ‹_›
      · exact .forked hpc (by omega)
    case test => cases h; exact .test hpc
    case suspend =>
      obtain ⟨hp, h⟩ := Option.ite_none_right_eq_some.mp h
      cases h
      exact .deliver hpc hp
    case handler =>
      obtain ⟨hz, h⟩ := Option.ite_none_left_eq_some.mp h
      cases h
      exact .none hpc (by simpa using hz)
    case count => cases h; exact .count hpc
  | reap i =>
    obtain ⟨⟨hpc, hz⟩, h⟩ := Option.ite_none_right_eq_some.mp h
    cases h
    exact .reap hpc hz
  | exit i =>
    obtain ⟨hr, h⟩ := Option.ite_none_right_eq_some.mp h
    cases h
    exact .exit hr

theorem Inv.fork (h : Inv c) {j : Nat} (hpc : c.shared.pc = .fork j) (hj : j < n) :
    Inv (c.set ⟨j, hj⟩ { c.shared with pc := .fork (j + 1) } .running) := by
  have hborn := (h.forked j hpc).2
  have hu : c.own ⟨j, hj⟩ = .unborn := (hborn ⟨j, hj⟩).mpr le_rfl
  have hsig := h.signals
  have hpos := h.handled.2
  simp only [hpc, Pc.handling] at hsig hpos
  refine ⟨?_, fun i hi => ?_, ?_, ⟨h.handled.1, fun i hi => ?_⟩, fun k hk => ?_,
    fun hk => absurd rfl (hk (j + 1)), by simp, by simp⟩
  · rw [c.total_set_eq (by simp [hu, Child.live])]
    exact h.live
  · have := (c.forall_set ⟨j, hj⟩ { c.shared with pc := .fork (j + 1) } .running
      (P := fun _ t => t = .zombie → c.shared.pending = true)).mpr
        ⟨by simp, fun i _ hz => by simpa [hpc] using h.zombie i hz⟩
    exact .inl (this i hi)
  · rw [c.total_set_eq (by simp [hu, Child.dead])]
    exact hsig
  · have := (c.forall_set ⟨j, hj⟩ { c.shared with pc := .fork (j + 1) } .running
      (P := fun _ t => t = .reaped → 0 < c.shared.sigCnt)).mpr
        ⟨by simp, fun i _ hr => by simpa using hpos i hr⟩
    simpa [Pc.handling] using this i hi
  · cases hk
    refine ⟨hj, fun i => ?_⟩
    rw [Conf.set_own]
    split
    · next he => simp [he]
    · next he =>
      have : (i : Nat) ≠ j := fun hij => he (Fin.ext hij)
      rw [hborn i]
      omega

theorem Inv.go (h : Inv c) {pc : Pc} {cnt : Int} (h0 : 0 ≤ cnt)
    (hcnt : cnt + pc.handling = c.shared.sigCnt + c.shared.pc.handling)
    (hz : c.shared.pc = .handler → ∀ i, c.own i ≠ .zombie)
    (hborn : ∀ i, c.own i ≠ .unborn) (hf : ∀ j, pc ≠ .fork j)
    (hs : pc = .suspend → 0 < c.shared.numLiveChildren)
    (he : pc = .exited → c.shared.numLiveChildren ≤ 0) :
    Inv { c with shared := { c.shared with pc := pc, sigCnt := cnt } } where
  live := h.live
  zombie i hi := (h.zombie i hi).imp_right fun hpc => absurd hi (hz hpc i)
  signals := by
    have := h.signals
    show cnt + pc.handling + (if c.shared.pending then 1 else 0 : Nat) ≤
      (c.total fun _ t => t.dead : Nat)
    omega
  handled := ⟨h0, fun i hi => by
    have := h.handled.2 i hi
    simp only
    omega⟩
  forked j hj := absurd hj (hf j)
  born _ := hborn
  suspend := hs
  exited := he

theorem Inv.deliver (h : Inv c) (hpc : c.shared.pc = .suspend) (hp : c.shared.pending = true) :
    Inv { c with shared := { c.shared with pc := .handler, pending := false } } := by
  have hsig := h.signals
  have h0 := h.handled.1
  simp only [hpc, hp, Pc.handling, if_true] at hsig
  refine ⟨h.live, fun _ _ => .inr rfl, ?_, ⟨h0, fun _ _ => ?_⟩, by simp,
    fun _ => h.born (by simp [hpc]), by simp, by simp⟩
  · show c.shared.sigCnt + 1 + 0 ≤ (c.total fun _ t => t.dead : Nat)
    simpa using hsig
  · simp only [Pc.handling]
    omega

theorem Inv.reap (h : Inv c) {i : Fin n} (hpc : c.shared.pc = .handler) (hz : c.own i = .zombie) :
    Inv (c.set i { c.shared with numLiveChildren := c.shared.numLiveChildren - 1 } .reaped) := by
  have h0 := h.handled.1
  refine ⟨?_, fun _ _ => .inr hpc, ?_, ⟨h0, fun _ _ => ?_⟩, by simp [hpc], fun _ => ?_,
    by simp [hpc], by simp [hpc]⟩
  · have htot := c.total_set i { c.shared with numLiveChildren := c.shared.numLiveChildren - 1 }
      .reaped fun _ t => t.live
    have hlive := h.live
    rw [hz] at htot
    simp only [show Child.live .zombie = 1 from rfl, show Child.live .reaped = 0 from rfl] at htot
    simp only [Conf.set_shared]
    omega
  · rw [c.total_set_eq (by simp [hz, Child.dead])]
    exact h.signals
  · simp only [Conf.set_shared, hpc, Pc.handling]
    omega
  · exact (c.forall_set i _ _ (P := fun _ t => t ≠ .unborn)).mpr
      ⟨by simp, fun j _ => h.born (by simp [hpc]) j⟩

theorem Inv.exit (h : Inv c) {i : Fin n} (hr : c.own i = .running) :
    Inv (c.set i { c.shared with pending := true } .zombie) := by
  refine ⟨?_, fun _ _ => .inl rfl, ?_, ⟨h.handled.1, fun j hj => ?_⟩, fun j hj => ?_, fun hk => ?_,
    h.suspend, h.exited⟩
  · rw [c.total_set_eq (by simp [hr, Child.live])]
    exact h.live
  · have := h.signals
    rw [c.total_set_succ (by simp [hr, Child.dead])]
    simp only [Conf.set_shared, if_true]
    omega
  · have := (c.forall_set i { c.shared with pending := true } .zombie
      (P := fun _ t => t = .reaped → 0 < c.shared.sigCnt + c.shared.pc.handling)).mpr
        ⟨by simp, fun j _ => h.handled.2 j⟩
    exact this j hj
  · obtain ⟨hle, hborn⟩ := h.forked j hj
    refine ⟨hle, fun k => ?_⟩
    rw [← hborn k, Conf.set_own]
    split
    · next hk => simp [hk, hr]
    · rfl
  · exact (c.forall_set i _ _ (P := fun _ t => t ≠ .unborn)).mpr ⟨by simp, fun j _ => h.born hk j⟩

theorem Inv.step {a : Act n} (h : Inv c) (hs : Step c a c') : Inv c' := by
  have h0 := h.handled.1
  cases sysStep hs with
  | fork hpc hj => exact h.fork hpc hj
  | @forked j hpc hj =>
    have hborn : ∀ i, c.own i ≠ .unborn := fun i hi => by
      have := ((h.forked j hpc).2 i).mp hi
      omega
    exact h.go h0 (by simp [hpc, Pc.handling]) (by simp [hpc]) hborn (by simp) (by simp) (by simp)
  | test hpc =>
    have hborn := h.born (by simp [hpc])
    by_cases hl : 0 < c.shared.numLiveChildren
    · rw [if_pos hl]
      exact h.go h0 (by simp [hpc, Pc.handling]) (by simp [hpc]) hborn (by simp)
        (fun _ => hl) (by simp)
    · rw [if_neg hl]
      exact h.go h0 (by simp [hpc, Pc.handling]) (by simp [hpc]) hborn (by simp) (by simp)
        fun _ => not_lt.mp hl
  | deliver hpc hp => exact h.deliver hpc hp
  | none hpc hz =>
    exact h.go h0 (by simp [hpc, Pc.handling]) (fun _ => hz) (h.born (by simp [hpc])) (by simp)
      (by simp) (by simp)
  | count hpc =>
    exact h.go (by omega) (by simp [hpc, Pc.handling]) (by simp [hpc]) (h.born (by simp [hpc]))
      (by simp) (by simp) (by simp)
  | reap hpc hz => exact h.reap hpc hz
  | exit hr => exact h.exit hr

/-! ## The parent comes to its end -/

/-- Steps still to come on account of a child. -/
def Child.left : Child → Nat
  | .unborn => 8
  | .running => 7
  | .zombie => 1
  | .reaped => 0

/-- Steps of the parent until it sleeps with no signal pending. -/
def Parent.left (s : Parent) : Nat :=
  (if s.pending then 5 else 0) +
    match s.pc with
    | .fork _ => 3 | .test => 2 | .suspend => 1 | .handler => 4 | .count => 3 | .exited => 0

def left (c : Sys n) : Nat := (c.total fun _ t => t.left) + c.shared.left

theorem Inv.left_lt {a : Act n} (h : Inv c) (hs : Step c a c') : left c' < left c := by
  have hset : ∀ (i : Fin n) (s : Parent) (t : Child),
      t.left + s.left < (c.own i).left + c.shared.left → left (c.set i s t) < left c :=
    fun i s t hlt => by
      have := c.total_set i s t fun _ t => t.left
      simp only [left, Conf.set_shared]
      omega
  have hgo : ∀ s : Parent, s.left < c.shared.left → left { c with shared := s } < left c :=
    fun s hlt => Nat.add_lt_add_left hlt _
  cases sysStep hs with
  | @fork j hpc hj =>
    have hu : c.own ⟨j, hj⟩ = .unborn := ((h.forked j hpc).2 ⟨j, hj⟩).mpr le_rfl
    refine hset _ _ _ ?_
    simp only [hu, hpc, Child.left, Parent.left]
    omega
  | forked hpc hj => exact hgo _ (by simp only [Parent.left, hpc]; omega)
  | test hpc =>
    refine hgo _ ?_
    by_cases hl : 0 < c.shared.numLiveChildren <;> simp [Parent.left, hpc, hl]
  | deliver hpc hp => exact hgo _ (by simp [Parent.left, hpc, hp])
  | none hpc hz => exact hgo _ (by simp only [Parent.left, hpc]; omega)
  | count hpc => exact hgo _ (by simp only [Parent.left, hpc]; omega)
  | reap hpc hz =>
    refine hset _ _ _ ?_
    simp only [hz, Child.left, Parent.left]
    omega
  | exit hr =>
    refine hset _ _ _ ?_
    simp only [hr, Child.left, Parent.left, if_true]
    split <;> omega

/-- The parent does not sleep for ever: a child has not ended yet, or has made the signal
pending. -/
theorem Inv.next (h : Inv c) : Exited c ∨ ∃ a c', Step c a c' := by
  have hpar : (parent c).isSome → ∃ a c', Step c a c' := fun hs => by
    obtain ⟨c', hc⟩ := Option.isSome_iff_exists.mp hs
    exact ⟨.parent, c', hc⟩
  cases hpc : c.shared.pc with
  | fork j =>
    refine .inr (hpar ?_)
    simp only [parent, hpc]
    split <;> rfl
  | test | count => exact .inr (hpar (by simp [parent, hpc]))
  | handler =>
    by_cases hz : ∃ i, c.own i = .zombie
    · obtain ⟨i, hi⟩ := hz
      exact .inr ⟨.reap i, _, if_pos ⟨hpc, hi⟩⟩
    · exact .inr (hpar (by simp only [parent, hpc, if_neg hz]; rfl))
  | suspend =>
    have hl := h.suspend hpc
    rw [h.live] at hl
    have hex : ∃ i, c.own i ≠ .reaped := by
      by_contra hall
      simp only [ne_eq, not_exists, not_not] at hall
      rw [(c.total_eq_zero _).mpr fun i => by simp [hall i, Child.live]] at hl
      simp at hl
    obtain ⟨i, hi⟩ := hex
    cases ht : c.own i with
    | unborn => exact absurd ht (h.born (by simp [hpc]) i)
    | running => exact .inr ⟨.exit i, _, if_pos ht⟩
    | zombie =>
      have hp := (h.zombie i ht).resolve_right (by simp [hpc])
      exact .inr (hpar (by simp [parent, hpc, hp]))
    | reaped => exact absurd ht hi
  | exited => exact .inl hpc

theorem Inv.reaped (h : Inv c) (he : Exited c) : ∀ i, c.own i = .reaped := fun i => by
  have hz : c.total (fun _ t => t.live) = 0 := by
    have := h.exited he
    have := h.live
    omega
  have := (c.total_eq_zero _).mp hz i
  cases ht : c.own i <;> simp [ht, Child.live] at this ⊢

theorem Inv.sigCnt_pos (h : Inv c) (he : Exited c) (hn : 0 < n) : 0 < c.shared.sigCnt := by
  have := h.handled.2 ⟨0, hn⟩ (h.reaped he _)
  rw [Exited] at he
  simpa [he, Pc.handling] using this

theorem Inv.sigCnt_le (h : Inv c) : c.shared.sigCnt ≤ (c.total fun _ t => t.dead : Nat) := by
  have := h.signals
  omega

theorem inv_of_reaches (h : Reaches Step (start n) c) : Inv c := by
  obtain ⟨as, hr⟩ := h
  exact hr.invariant (fun _ _ _ h hs => h.step hs) (inv_start n)

/-- **The parent**: it comes to its end in every interleaving, and then it has reaped each of its
children; the handler has never run more often than children have ended. -/
theorem multi_sigchld_correct (n : Nat) :
    (∀ c, Reaches Step (start n) c →
      c.shared.numLiveChildren = (c.total fun _ t => t.live : Nat) ∧
      c.shared.sigCnt ≤ (c.total fun _ t => t.dead : Nat) ∧
      (Exited c → ∀ i, c.own i = .reaped)) ∧
    Ends Step (start n) Exited := by
  refine ⟨fun c hr => ?_, Ends.of_measure
    (fun c a c' h (hs : Step c a c') => ⟨h.step hs, h.left_lt hs⟩) (fun c h => h.next)
    (inv_start n)⟩
  have h := inv_of_reaches hr
  exact ⟨h.live, h.sigCnt_le, h.reaped⟩

/-! ## How often the handler runs -/

/-- The first `d` children reaped, the next up to the `z`-th dead, the others running. -/
def sys (n : Nat) (pc : Pc) (pending : Bool) (cnt : Int) (d z : Nat) : Sys n where
  shared := { pc := pc, numLiveChildren := n - d, sigCnt := cnt, pending := pending }
  own i := if i < d then .reaped else if i < z then .zombie else .running

section runs

variable {pc : Pc} {p : Bool} {cnt : Int} {d z : Nat}

theorem reaches_exit (hd : d ≤ z) (hz : z < n) :
    Reaches Step (sys n pc p cnt d z) (sys n pc true cnt d (z + 1)) := by
  have hr : (sys n pc p cnt d z).own ⟨z, hz⟩ = .running := by simp [sys, not_lt.mpr hd]
  refine .single (a := .exit ⟨z, hz⟩) ((if_pos hr).trans (congrArg some ?_))
  unfold sys Conf.set
  congr 1
  funext i
  rw [Function.update_apply]
  simp only [Fin.ext_iff]
  split_ifs <;> first | rfl | omega

theorem reaches_reap (hd : d < z) (hn : z ≤ n) :
    Reaches Step (sys n .handler p cnt d z) (sys n .handler p cnt (d + 1) z) := by
  have hz : (sys n .handler p cnt d z).own ⟨d, by omega⟩ = .zombie := by simp [sys, hd]
  refine .single (a := .reap ⟨d, by omega⟩) ((if_pos ⟨rfl, hz⟩).trans (congrArg some ?_))
  unfold sys Conf.set
  congr 1
  · simp only [Parent.mk.injEq, true_and]
    refine ⟨?_, trivial⟩
    push_cast
    omega
  · funext i
    rw [Function.update_apply]
    simp only [Fin.ext_iff]
    split_ifs <;> first | rfl | omega

theorem reaches_go {c c' : Sys n} (h : parent c = some c') : Reaches Step c c' :=
  .single (a := .parent) h

theorem reaches_exits (hd : d < z) (hn : z ≤ n) :
    Reaches Step (sys n pc p cnt d d) (sys n pc true cnt d z) := by
  induction z, hd using Nat.le_induction with
  | base => exact reaches_exit le_rfl (by omega)
  | succ z hd ih => exact (ih (by omega)).trans (reaches_exit (by omega) (by omega))

theorem reaches_reaps (hd : d ≤ z) (hn : z ≤ n) :
    Reaches Step (sys n .handler p cnt d z) (sys n .handler p cnt z z) := by
  induction hd using Nat.decreasingInduction with
  | self => exact .refl _
  | of_succ d hd ih => exact (reaches_reap hd hn).trans ih

/-- One run of the handler, for the children up to the `z`-th. -/
theorem reaches_round (hd : d < z) (hn : z ≤ n) :
    Reaches Step (sys n .test false cnt d d) (sys n .test false (cnt + 1) z z) := by
  have hl : d < n := by omega
  have hz : ¬ ∃ i, (sys n .handler false cnt z z).own i = .zombie := by
    rintro ⟨i, hi⟩
    simp only [sys] at hi
    split_ifs at hi
  have h1 : parent (sys n .test true cnt d z) = some (sys n .suspend true cnt d z) := by
    simp [parent, sys, hl]
  have h2 : parent (sys n .suspend true cnt d z) = some (sys n .handler false cnt d z) := rfl
  have h3 : parent (sys n .handler false cnt z z) = some (sys n .count false cnt z z) := if_neg hz
  have h4 : parent (sys n .count false cnt z z) = some (sys n .test false (cnt + 1) z z) := rfl
  have hreap := (reaches_go h2).trans (reaches_reaps (le_of_lt hd) hn)
  exact (reaches_exits hd hn).trans <| (reaches_go h1).trans <| hreap.trans <|
    (reaches_go h3).trans (reaches_go h4)

theorem reaches_rounds (hd : d ≤ n) :
    Reaches Step (sys n .test false cnt d d) (sys n .test false (cnt + (n - d : Nat)) n n) := by
  induction hd using Nat.decreasingInduction generalizing cnt with
  | self =>
    rw [Nat.sub_self, Nat.cast_zero, add_zero]
    exact .refl _
  | of_succ d hd ih =>
    have hcnt : cnt + 1 + (n - (d + 1) : Nat) = cnt + (n - d : Nat) := by omega
    exact hcnt ▸ (reaches_round (Nat.lt_succ_self d) hd).trans ih

theorem reaches_forks (n : Nat) : Reaches Step (start n) (sys n .test false 0 0 0) := by
  have hfork : ∀ j ≤ n, Reaches Step (start n)
      { start n with
        shared := { (start n).shared with pc := .fork j }
        own := fun i => if i < j then .running else .unborn } := fun j hj => by
    induction j with
    | zero => exact .refl _
    | succ j ih =>
      refine (ih (by omega)).trans (reaches_go ?_)
      simp only [parent, dif_pos (show j < n from hj), Conf.set]
      congr 2
      funext i
      rw [Function.update_apply]
      simp only [Fin.ext_iff]
      split_ifs <;> first | rfl | omega
  refine (hfork n le_rfl).trans (reaches_go ?_)
  simp [parent, sys, start]

end runs

end Tlpi.MultiSigchld
