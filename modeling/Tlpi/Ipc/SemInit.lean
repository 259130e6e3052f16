import Tlpi.Lib.Lts
import Tlpi.Lib.CInt
import Tlpi.Lib.Ipc
import Tlpi.Lib.Threads

/-!
# Initialising a System V semaphore

`tlpi-dist/svsem/svsem_good_init.c` and `tlpi-dist/svsem/svsem_bad_init.c`, each in any number of
processes that start at any time. Whoever creates the set initialises it. In the first program it
then performs an operation that changes nothing but the time of the last operation, and the others
wait until they see that time; in the second they do not wait. Processes may be killed, so nobody
may ever initialise the set; the others then give up.

In the first program no operation comes before the initialisation and none is lost
(`good_init_correct`). In the second the value in the end is any from one to the number of
processes (`bad_init_iff`).
-/

namespace Tlpi.SemInit

open Tlpi.Lib

def SEMVMX : Int := 32767

/-- A set of one semaphore: its value, and whether `sem_otime` is not zero. -/
structure Sem where
  val : Int
  otime : Bool

/-- `semop` with one operation and without flags. -/
def semop (s : Sem) (sem_op : Int) : Attempt Sem :=
  if s.val + sem_op < 0 ∨ (sem_op = 0 ∧ s.val ≠ 0) then .blocks
  else if SEMVMX < s.val + sem_op then .error
  else .done { val := s.val + sem_op, otime := true }

inductive Pc where
  /-- At `semget` with `IPC_CREAT | IPC_EXCL`. -/
  | create
  /-- At `SETVAL`. -/
  | setval
  /-- At the operation that changes nothing. -/
  | noop
  /-- At `semget` without these. -/
  | get
  /-- At `IPC_STAT`, for the `j`-th time. -/
  | tries (j : Nat)
  | operate
  | done
  /-- `errExit` or `fatal` -/
  | failed
  | killed
  deriving DecidableEq

abbrev Sys (ι : Type*) := Conf ι (Option Sem) Pc

inductive Act (ι : Type*) where
  | go (i : ι)
  | kill (i : ι)

/-- A step on a set that there is. -/
def onSet (s : Option Sem) (f : Sem → Option (Sem × Pc)) : Option (Option Sem × Pc) :=
  match s with
  | none => some (none, .failed)
  | some s => (f s).map fun r => (some r.1, r.2)

def operate (sem_op : Int) (s : Sem) : Option (Sem × Pc) :=
  (semop s sem_op).resume (fun s => (s, .done)) (s, .failed)

def MAX_TRIES : Nat := 10

variable {ι : Type*} [DecidableEq ι]

/-- `svsem_good_init`: the operation of the command line is `sem_op`, and a new semaphore has the
value `new`. -/
def goodInit (new : Int) (sem_op : Int) (s : Option Sem) : Pc → Option (Option Sem × Pc)
  | .create =>
    match s with
    | none => some (some { val := new, otime := false }, .setval)
    | some s => some (some s, .get)
  | .setval => onSet s fun s => some ({ s with val := 0 }, .noop)
  | .noop => onSet s fun s => (semop s 0).resume (fun s => (s, .operate)) (s, .failed)
  | .get => onSet s fun s => some (s, .tries 0)
  | .tries j => onSet s fun s =>
    some (s, if s.otime then .operate else if j + 1 < MAX_TRIES then .tries (j + 1) else .failed)
  | .operate => onSet s (operate sem_op)
  | .done | .failed | .killed => none

/-- `svsem_bad_init` -/
def badInit (new : Int) (s : Option Sem) : Pc → Option (Option Sem × Pc)
  | .create =>
    match s with
    | none => some (some { val := new, otime := false }, .setval)
    | some s => some (some s, .get)
  | .setval => onSet s fun s => some ({ s with val := 0 }, .operate)
  | .get => onSet s fun s => some (s, .operate)
  | .operate => onSet s (operate 1)
  | .noop | .tries _ | .done | .failed | .killed => none

def Pc.Ended (pc : Pc) : Prop := pc = .done ∨ pc = .failed ∨ pc = .killed

instance (pc : Pc) : Decidable pc.Ended := inferInstanceAs (Decidable (_ ∨ _))

/-- Any number of processes that run `prog`. -/
def exec (prog : ι → Option Sem → Pc → Option (Option Sem × Pc)) (c : Sys ι) :
    Act ι → Option (Sys ι)
  | .go i => (prog i c.shared (c.own i)).map fun r => c.set i r.1 r.2
  | .kill i => if (c.own i).Ended then none else some (c.set i c.shared .killed)

def Act.isKill : Act ι → Bool
  | .kill _ => true
  | _ => false

def Step (prog : ι → Option Sem → Pc → Option (Option Sem × Pc)) (c : Sys ι) (a : Act ι)
    (c' : Sys ι) : Prop := exec prog c a = some c'

/-- There is no set yet. -/
def start : Sys ι where
  shared := none
  own _ := .create

/-! ## The initialisation comes first -/

variable {new : Int} {c c' : Sys ι} {i : ι} [Fintype ι] {sem_op : ι → Int}

/-- Whoever created the set and has not yet performed its first operation. -/
def Pc.creating (pc : Pc) : Nat := if pc = .setval ∨ pc = .noop then 1 else 0

/-- The operations that have been performed. -/
def performed (sem_op : ι → Int) (i : ι) (pc : Pc) : Int := if pc = .done then sem_op i else 0

/-- Not past the initialisation. -/
def Pc.Before (pc : Pc) : Prop := pc ≠ .operate ∧ pc ≠ .done

/-- The set: not there, created, and initialised. -/
inductive Phase (sem_op : ι → Int) (c : Sys ι) : Prop where
  | none (hs : c.shared = none) (h : ∀ i, c.own i = .create ∨ c.own i = .killed)
  | created {s : Sem} (hs : c.shared = some s) (ho : s.otime = false)
      (h : ∀ i, (c.own i).Before) (h1 : c.total (fun _ t => t.creating) ≤ 1)
      (h0 : ∀ i, c.own i = .noop → s.val = 0)
  | ready {s : Sem} (hs : c.shared = some s) (ho : s.otime = true)
      (h0 : ∀ i, c.own i ≠ .setval ∧ c.own i ≠ .noop) (hv : s.val = c.sum (performed sem_op))

omit [DecidableEq ι] in
theorem phase_start : Phase sem_op (start : Sys ι) := .none rfl fun _ => .inl rfl

/-- The steps of a process, one constructor for each. -/
inductive ProcStep (new sem_op : Int) : Option Sem → Pc → Option Sem → Pc → Prop where
  | create : ProcStep new sem_op none .create (some { val := new, otime := false }) .setval
  | exists (s : Sem) : ProcStep new sem_op (some s) .create (some s) .get
  | setval (s : Sem) : ProcStep new sem_op (some s) .setval (some { s with val := 0 }) .noop
  | noop (s : Sem) (h : s.val = 0) :
      ProcStep new sem_op (some s) .noop (some { val := 0, otime := true }) .operate
  | get (s : Sem) : ProcStep new sem_op (some s) .get (some s) (.tries 0)
  | seen (s : Sem) (j : Nat) (h : s.otime = true) :
      ProcStep new sem_op (some s) (.tries j) (some s) .operate
  | again (s : Sem) (j : Nat) (h : j + 1 < MAX_TRIES) :
      ProcStep new sem_op (some s) (.tries j) (some s) (.tries (j + 1))
  | fatal (s : Option Sem) {pc : Pc} (hc : pc ≠ .create) (h : ¬ pc.Ended) :
      ProcStep new sem_op s pc s .failed
  | operate (s : Sem) :
      ProcStep new sem_op (some s) .operate (some { val := s.val + sem_op, otime := true }) .done

theorem semop_eq_done {s t : Sem} {op : Int} (h : semop s op = .done t) :
    t = { val := s.val + op, otime := true } ∧ 0 ≤ s.val + op ∧ (op = 0 → s.val = 0) := by
  unfold semop at h
  split at h
  · cases h
  · next hb =>
    split at h <;> cases h
    rw [not_or, not_lt, not_and_not_right] at hb
    exact ⟨rfl, hb⟩

theorem procStep {op : Int} {s s' : Option Sem} {pc pc' : Pc}
    (h : goodInit new op s pc = some (s', pc')) : ProcStep new op s pc s' pc' := by
  cases s with
  | none =>
    cases pc <;> cases h
    · exact .create
    all_goals exact .fatal _ (by simp) (by simp [Pc.Ended])
  | some s =>
    cases pc with
    | create => cases h; exact .exists s
    | setval => cases h; exact .setval s
    | noop =>
      obtain ⟨r, hr, h⟩ := Option.map_eq_some_iff.mp h
      cases h
      rcases Attempt.resume_eq_some.mp hr with ⟨-, rfl⟩ | ⟨t, ht, rfl⟩
      · exact .fatal _ (by simp) (by simp [Pc.Ended])
      · obtain ⟨rfl, -, h0⟩ := semop_eq_done ht
        simpa [h0 rfl] using ProcStep.noop s (h0 rfl)
    | get => cases h; exact .get s
    | tries j =>
      simp only [goodInit, onSet, Option.map_some, Option.some.injEq, Prod.mk.injEq] at h
      obtain ⟨rfl, rfl⟩ := h
      split
      · exact .seen s j ‹_›
      · split
        · exact .again s j ‹_›
        · exact .fatal _ (by simp) (by simp [Pc.Ended])
    | operate =>
      obtain ⟨r, hr, h⟩ := Option.map_eq_some_iff.mp h
      cases h
      rcases Attempt.resume_eq_some.mp hr with ⟨-, rfl⟩ | ⟨t, ht, rfl⟩
      · exact .fatal _ (by simp) (by simp [Pc.Ended])
      · obtain ⟨rfl, -⟩ := semop_eq_done ht
        exact .operate s
    | done | failed | killed => cases h

/-- A process that is not the creator goes on, or ends. -/
theorem Phase.keep (h : Phase sem_op c) {pc : Pc} (hc : pc.creating = 0)
    (hb : pc ≠ .done) (ho : pc = .operate → ∃ s, c.shared = some s ∧ s.otime = true)
    (hd : c.own i ≠ .done) (hn : c.shared = Option.none → pc = .create ∨ pc = .killed) :
    Phase sem_op (c.set i c.shared pc) := by
  have hpc : pc ≠ .setval ∧ pc ≠ .noop := by
    refine ⟨fun he => ?_, fun he => ?_⟩ <;> simp [he, Pc.creating] at hc
  cases h with
  | none hs h =>
    exact .none hs ((c.forall_set i _ _ (P := fun _ t => t = .create ∨ t = .killed)).mpr
      ⟨hn hs, fun j _ => h j⟩)
  | @created s hs hot h h1 h0 =>
    have hne : pc ≠ .operate := fun he => by
      obtain ⟨s', hs', hot'⟩ := ho he
      cases hs.symm.trans hs'
      simp [hot] at hot'
    refine .created hs hot ((c.forall_set i _ _ (P := fun _ t => t.Before)).mpr
      ⟨⟨hne, hb⟩, fun j _ => h j⟩) ?_
      ((c.forall_set i _ _ (P := fun _ t => t = .noop → s.val = 0)).mpr
      ⟨fun he => absurd he hpc.2, fun j _ => h0 j⟩)
    have := c.total_set i c.shared pc fun _ t => t.creating
    omega
  | @ready s hs hot h0 hv =>
    refine .ready hs hot ((c.forall_set i _ _ (P := fun _ t => t ≠ .setval ∧ t ≠ .noop)).mpr
      ⟨hpc, fun j _ => h0 j⟩) ?_
    have := c.sum_set i c.shared pc (performed sem_op)
    have h1 : performed sem_op i (c.own i) = 0 := if_neg hd
    have h2 : performed sem_op i pc = 0 := if_neg hb
    omega

omit [DecidableEq ι] in
theorem Phase.of_none (h : Phase sem_op c) (hn : c.shared = Option.none) (i : ι) :
    c.own i = .create ∨ c.own i = .killed := by
  cases h with
  | none _ h => exact h i
  | created hs | ready hs => simp [hn] at hs

theorem Phase.proc_step (h : Phase sem_op c) {s : Option Sem} {pc : Pc}
    (hs : ProcStep new (sem_op i) c.shared (c.own i) s pc) : Phase sem_op (c.set i s pc) := by
  generalize hsh : c.shared = s0 at hs
  generalize hpc : c.own i = pc0 at hs
  have hset : ∀ {t : Option Sem}, c.shared = t → c.set i t pc = c.set i c.shared pc := fun ht => by
    rw [ht]
  cases hs with
  | create =>
    cases h with
    | none _ h =>
      refine .created rfl rfl ((c.forall_set i _ _ (P := fun _ t => t.Before)).mpr
        ⟨by simp [Pc.Before], fun j _ => ?_⟩) ?_
        ((c.forall_set i _ _ (P := fun _ t => t = .noop → new = 0)).mpr ⟨by simp, fun j _ hj => ?_⟩)
      · rcases h j with hj | hj <;> simp [hj, Pc.Before]
      · have h0 : c.total (fun _ t => t.creating) = 0 := (c.total_eq_zero _).mpr fun j => by
          rcases h j with hj | hj <;> simp [hj, Pc.creating]
        have := c.total_set i (some { val := new, otime := false }) .setval fun _ t => t.creating
        rw [h0, hpc] at this
        simp [Pc.creating] at this
        simp [Pc.creating, this]
      · rcases h j with hj' | hj' <;> simp [hj'] at hj
    | created hs | ready hs => simp [hsh] at hs
  | «exists» s =>
    rw [hset hsh]
    exact h.keep rfl (by simp) (by simp) (by simp [hpc]) (by simp [hsh])
  | setval s =>
    cases h with
    | none hs => simp [hsh] at hs
    | @created s' hs ho h h1 h0 =>
      cases hsh.symm.trans hs
      refine .created rfl ho ((c.forall_set i _ _ (P := fun _ t => t.Before)).mpr
        ⟨by simp [Pc.Before], fun j _ => h j⟩) ?_ fun _ _ => rfl
      rwa [c.total_set_eq (by simp [hpc, Pc.creating])]
    | ready _ _ h0 => exact absurd hpc (h0 i).1
  | noop s hz =>
    cases h with
    | none hs => simp [hsh] at hs
    | @created s' hs ho h h1 h0 =>
      have hother : ∀ j, j ≠ i → c.own j ≠ .setval ∧ c.own j ≠ .noop := fun j hj => by
        by_contra hc
        refine hj (c.eq_of_total_le_one _ h1 ?_ (by simp [hpc, Pc.creating]))
        rw [not_and_or, not_not, not_not] at hc
        simp [Pc.creating, hc]
      refine .ready rfl rfl ((c.forall_set i _ _ (P := fun _ t => t ≠ .setval ∧ t ≠ .noop)).mpr
        ⟨by simp, hother⟩) ?_
      -- nobody has performed an operation
      refine (Finset.sum_eq_zero fun j _ => if_neg ?_).symm
      exact (c.forall_set i _ _ (P := fun _ t => t ≠ .done)).mpr
        ⟨by simp, fun j _ => (h j).2⟩ j
    | ready _ _ h0 => exact absurd hpc (h0 i).2
  | get s =>
    rw [hset hsh]
    exact h.keep rfl (by simp) (by simp) (by simp [hpc]) (by simp [hsh])
  | seen s j ho =>
    rw [hset hsh]
    exact h.keep rfl (by simp) (fun _ => ⟨s, hsh, ho⟩) (by simp [hpc]) (by simp [hsh])
  | again s j hj =>
    rw [hset hsh]
    exact h.keep rfl (by simp) (by simp) (by simp [hpc]) (by simp [hsh])
  | fatal s hc he =>
    rw [hset hsh]
    refine h.keep rfl (by simp) (by simp) (fun hd => he (.inl (hpc ▸ hd))) fun hn => ?_
    rcases h.of_none hn i with hi | hi <;> rw [hpc] at hi
    · exact absurd hi hc
    · exact absurd (.inr (.inr hi)) he
  | operate s =>
    cases h with
    | none hs => simp [hsh] at hs
    | created _ _ h => exact absurd hpc (h i).1
    | @ready s' hs ho h0 hv =>
      cases hsh.symm.trans hs
      refine .ready rfl rfl ((c.forall_set i _ _ (P := fun _ t => t ≠ .setval ∧ t ≠ .noop)).mpr
        ⟨by simp, fun j _ => h0 j⟩) ?_
      have := c.sum_set i (some { val := s.val + sem_op i, otime := true }) .done (performed sem_op)
      have h1 : performed sem_op i (c.own i) = 0 := if_neg (by simp [hpc])
      have h2 : performed sem_op i .done = sem_op i := if_pos rfl
      show s.val + sem_op i = _
      omega

theorem Phase.step {a : Act ι} (h : Phase sem_op c)
    (hs : Step (fun i => goodInit new (sem_op i)) c a c') : Phase sem_op c' := by
  cases a with
  | go i =>
    obtain ⟨⟨s, pc⟩, hl, rfl⟩ := Option.map_eq_some_iff.mp hs
    exact h.proc_step (procStep hl)
  | kill i =>
    obtain ⟨he, hs⟩ := Option.ite_none_left_eq_some.mp hs
    cases hs
    exact h.keep rfl (by simp) (by simp) (fun hd => he (.inl hd)) (by simp)

/-! ## Everybody comes to an end -/

/-- Steps that a process has still to make. -/
def Pc.left : Pc → Nat
  | .create => 20
  | .setval => 3
  | .noop => 2
  | .get => 15
  | .tries j => 2 + (MAX_TRIES - j)
  | .operate => 1
  | .done | .failed | .killed => 0

theorem left_lt {a : Act ι} (hs : Step (fun i => goodInit new (sem_op i)) c a c') :
    (c'.total fun _ t => t.left) < c.total fun _ t => t.left := by
  cases a with
  | go i =>
    obtain ⟨⟨s, pc⟩, hl, rfl⟩ := Option.map_eq_some_iff.mp hs
    refine c.total_set_lt ?_
    have hstep := procStep hl
    generalize c.shared = s0 at hstep
    generalize c.own i = pc0 at hstep
    cases hstep with
    | fatal s hc he =>
      cases pc0 <;> simp [Pc.left, Pc.Ended] at he ⊢
    | again s j hj => simp only [Pc.left]; omega
    | seen s j => simp only [Pc.left]; omega
    | _ => simp [Pc.left, MAX_TRIES]
  | kill i =>
    obtain ⟨he, hs⟩ := Option.ite_none_left_eq_some.mp hs
    cases hs
    refine c.total_set_lt ?_
    cases hpc : c.own i <;> simp [hpc, Pc.left, Pc.Ended] at he ⊢

/-- The operation of process `i` would block. -/
def Blocked (sem_op : ι → Int) (c : Sys ι) (i : ι) : Prop :=
  c.own i = .operate ∧ ∃ s, c.shared = some s ∧ semop s (sem_op i) = .blocks

/-- All have ended, but for those whose operation blocks. -/
def Final (sem_op : ι → Int) (c : Sys ι) : Prop := ∀ i, (c.own i).Ended ∨ Blocked sem_op c i

theorem Phase.next (h : Phase sem_op c) : Final sem_op c ∨
    ∃ a c', Step (fun i => goodInit new (sem_op i)) c a c' ∧ a.isKill = false := by
  by_cases hf : Final sem_op c
  · exact .inl hf
  refine .inr ?_
  simp only [Final, not_forall, not_or] at hf
  obtain ⟨i, he, hb⟩ := hf
  suffices hs : ∃ r, goodInit new (sem_op i) c.shared (c.own i) = some r by
    obtain ⟨r, hr⟩ := hs
    exact ⟨.go i, _, Option.map_eq_some_iff.mpr ⟨r, hr, rfl⟩, rfl⟩
  cases hsh : c.shared with
  | none =>
    rcases h.of_none hsh i with hp | hp
    · rw [hp]
      exact ⟨_, rfl⟩
    · exact absurd (.inr (.inr hp)) he
  | some s =>
    cases hp : c.own i with
    | create | setval | get | tries => exact ⟨_, rfl⟩
    | noop =>
      have hz : s.val = 0 := by
        cases h with
        | none hs => simp [hsh] at hs
        | created hs _ _ _ h0 =>
          cases hsh.symm.trans hs
          exact h0 i hp
        | ready _ _ h0 => exact absurd hp (h0 i).2
      simp [goodInit, onSet, semop, hz, SEMVMX, Attempt.resume]
    | operate =>
      simp only [goodInit, onSet, SemInit.operate]
      cases hop : semop s (sem_op i) with
      | blocks => exact absurd ⟨hp, s, hsh, hop⟩ hb
      | error | done => exact ⟨_, rfl⟩
    | done => exact absurd (.inl hp) he
    | failed => exact absurd (.inr (.inl hp)) he
    | killed => exact absurd (.inr (.inr hp)) he

/-- **The initialisation comes first**: in every interleaving, whoever is killed, nobody is at its
operation, or past it, before `sem_otime` is set, and from then on the value of the semaphore is the
sum of all operations that have been performed. Nobody waits for ever but for a value that its own
operation needs. -/
theorem good_init_correct (new : Int) (sem_op : ι → Int) :
    (∀ c, Reaches (Step fun i => goodInit new (sem_op i)) start c →
      (∀ i, c.own i = .operate ∨ c.own i = .done → ∃ s, c.shared = some s ∧ s.otime = true) ∧
      ∀ s, c.shared = some s → s.otime = true → s.val = c.sum (performed sem_op)) ∧
    EndsUpTo (Step fun i => goodInit new (sem_op i)) Act.isKill start (Final sem_op) := by
  refine ⟨fun c ⟨as, hr⟩ => ?_, EndsUpTo.of_measure (I := Phase sem_op)
    (μ := fun c => c.total fun _ t => t.left) 0
    (fun c a c' h (hs : Step (fun i => goodInit new (sem_op i)) c a c') => ⟨h.step hs, ?_⟩)
    (fun c h => h.next) phase_start⟩
  · have h : Phase sem_op c := hr.invariant (fun _ _ _ h hs => h.step hs) phase_start
    cases h with
    | none hs h =>
      refine ⟨fun i hi => ?_, by simp [hs]⟩
      rcases h i with hc | hc <;> simp [hc] at hi
    | created hs ho h =>
      refine ⟨fun i hi => (hi.elim (h i).1 (h i).2).elim, fun s hs' ht => ?_⟩
      cases hs.symm.trans hs'
      simp [ho] at ht
    | ready hs ho _ hv =>
      refine ⟨fun _ _ => ⟨_, hs, ho⟩, fun s hs' _ => ?_⟩
      cases hs.symm.trans hs'
      exact hv
  · have := left_lt hs
    omega

/-! ## Without waiting -/

/-- What `svsem_bad_init` keeps: until the set is initialised its creator is about to do that, and
afterwards the value is positive or an operation is still to come. -/
def Late (c : Sys ι) : Prop :=
  ∀ s, c.shared = some s → (∃ i, c.own i = .setval ∨ c.own i = .killed) ∨
    (0 ≤ s.val ∧ s.val ≤ (c.total fun _ t => if t = .done then 1 else 0 : Nat) ∧
      (0 < s.val ∨ ∃ i, c.own i = .operate))

section late

theorem Late.keep (h : Late c) {s t : Sem} (hs : c.shared = some s) (hv : t.val = s.val) {pc : Pc}
    (hd : c.own i ≠ .done ∧ pc ≠ .done) (hi : c.own i ≠ .setval ∧ c.own i ≠ .killed)
    (ho : c.own i = .operate → 0 < s.val) : Late (c.set i (some t) pc) := by
  intro t' ht'
  cases ht'
  have hkeep : ∀ {P : Pc → Prop}, ¬ P (c.own i) → (∃ j, P (c.own j)) →
      ∃ j, P ((c.set i (some t) pc).own j) := fun hi ⟨j, hj⟩ => by
    refine ⟨j, ?_⟩
    rw [c.set_own_of_ne]
    · exact hj
    · rintro rfl
      exact hi hj
  rw [hv, c.total_set_eq (by simp [hd])]
  rcases h s hs with hx | ⟨h0, hle, hx⟩
  · exact .inl (hkeep (P := fun t => t = .setval ∨ t = .killed) (not_or.mpr hi) hx)
  · refine .inr ⟨h0, hle, ?_⟩
    by_cases hop : c.own i = .operate
    · exact .inl (ho hop)
    · exact hx.imp_right (hkeep (P := fun t => t = .operate) hop)

theorem Late.proc_step (h : Late c) {s : Option Sem} {pc : Pc}
    (hs : badInit new c.shared (c.own i) = some (s, pc)) : Late (c.set i s pc) := by
  cases hsh : c.shared with
  | none =>
    rw [hsh] at hs
    cases hpc : c.own i <;> rw [hpc] at hs <;> cases hs
    · exact fun _ _ => .inl ⟨i, by simp⟩
    all_goals exact fun _ h => by simp at h
  | some s0 =>
    rw [hsh] at hs
    cases hpc : c.own i <;> rw [hpc] at hs
    case create => cases hs; exact h.keep hsh rfl (by simp [hpc]) (by simp [hpc]) (by simp [hpc])
    case setval =>
      cases hs
      rintro s' hs'
      cases hs'
      exact .inr ⟨le_rfl, by positivity, .inr ⟨i, by simp⟩⟩
    case get => cases hs; exact h.keep hsh rfl (by simp [hpc]) (by simp [hpc]) (by simp [hpc])
    case operate =>
      obtain ⟨r, hr, hs⟩ := Option.map_eq_some_iff.mp hs
      cases hs
      rcases Attempt.resume_eq_some.mp hr with ⟨he, rfl⟩ | ⟨t, ht, rfl⟩
      · -- `ERANGE`: the value is as large as it can be
        refine h.keep hsh rfl (by simp [hpc]) (by simp [hpc]) fun _ => ?_
        simp only [semop] at he
        split at he
        · cases he
        · split at he
          · next hgt =>
            unfold SEMVMX at hgt
            omega
          · cases he
      · obtain ⟨rfl, hpos, -⟩ := semop_eq_done ht
        rintro t' ht'
        cases ht'
        rcases h s0 hsh with ⟨j, hj⟩ | ⟨h0, hle, -⟩
        · refine .inl ⟨j, ?_⟩
          rwa [c.set_own_of_ne]
          rintro rfl
          simp [hpc] at hj
        · rw [c.total_set_succ (by simp [hpc])]
          push_cast
          exact .inr ⟨by omega, by omega, .inl (by omega)⟩
    all_goals cases hs

theorem Late.step {a : Act ι} (h : Late c) (hs : Step (fun _ => badInit new) c a c') : Late c' := by
  cases a with
  | go i =>
    obtain ⟨⟨s, pc⟩, hl, rfl⟩ := Option.map_eq_some_iff.mp hs
    exact h.proc_step hl
  | kill i =>
    obtain ⟨-, hs⟩ := Option.ite_none_left_eq_some.mp hs
    cases hs
    exact fun _ _ => .inl ⟨i, by simp⟩

end late

section runs

variable {n : Nat}

/-- Process 0 at `pc`, those before the `d`-th done, the others not started. -/
def sys (n : Nat) (pc : Pc) (s : Option Sem) (d : Nat) : Sys (Fin n) where
  shared := s
  own i := if (i : Nat) = 0 then pc else if i < d then .done else .create

theorem reaches_go {c : Sys (Fin n)} (i : Fin n) (s : Option Sem) (pc : Pc)
    (h : badInit new c.shared (c.own i) = some (s, pc)) :
    Reaches (Step fun _ => badInit new) c (c.set i s pc) :=
  .single (a := .go i) (Option.map_eq_some_iff.mpr ⟨_, h, rfl⟩)

theorem set_first (pc pc' : Pc) (s s' : Option Sem) (d : Nat) (hn : 0 < n) :
    (sys n pc s d).set ⟨0, hn⟩ s' pc' = sys n pc' s' d := by
  unfold sys Conf.set
  congr 1
  funext i
  rw [Function.update_apply]
  simp only [Fin.ext_iff]
  split_ifs <;> rfl

theorem set_other (pc : Pc) (s s' : Option Sem) {d : Nat} (hd : 0 < d) (hn : d < n) :
    (sys n pc s d).set ⟨d, hn⟩ s' .done = sys n pc s' (d + 1) := by
  unfold sys Conf.set
  congr 1
  funext i
  rw [Function.update_apply]
  simp only [Fin.ext_iff]
  split_ifs <;> first | rfl | omega

theorem reaches_first {pc pc' : Pc} {s s' : Option Sem} {d : Nat} (hn : 0 < n)
    (h : badInit new s pc = some (s', pc')) :
    Reaches (Step fun _ => badInit new) (sys n pc s d) (sys n pc' s' d) :=
  set_first pc pc' s s' d hn ▸ reaches_go (c := sys n pc s d) ⟨0, hn⟩ s' pc'
    (by simpa [sys] using h)

theorem operate_one {s : Sem} (h0 : 0 ≤ s.val) (hmax : s.val + 1 ≤ SEMVMX) :
    badInit new (some s) .operate = some (some { val := s.val + 1, otime := true }, .done) := by
  have h1 : ¬ s.val + 1 < 0 := by omega
  have h2 : ¬ SEMVMX < s.val + 1 := by omega
  simp [badInit, onSet, operate, semop, h1, h2, Attempt.resume]

theorem reaches_other {pc : Pc} {s : Sem} {d : Nat} (hd : 0 < d) (hn : d < n) (h0 : 0 ≤ s.val)
    (hmax : s.val + 1 ≤ SEMVMX) :
    Reaches (Step fun _ => badInit new) (sys n pc (some s) d)
      (sys n pc (some { val := s.val + 1, otime := true }) (d + 1)) := by
  have hpc : (sys n pc (some s) d).own ⟨d, hn⟩ = .create := by simp [sys, Nat.pos_iff_ne_zero.mp hd]
  have hget : badInit new (sys n pc (some s) d).shared ((sys n pc (some s) d).own ⟨d, hn⟩) =
      some (some s, .get) := by rw [hpc]; rfl
  have h1 := reaches_go ⟨d, hn⟩ _ _ hget
  have h2 := h1.trans (reaches_go ⟨d, hn⟩ (some s) .operate (by rw [Conf.set_own_self]; rfl))
  have h3 := h2.trans (reaches_go ⟨d, hn⟩ _ _
    (by rw [Conf.set_own_self]; exact operate_one h0 hmax))
  rwa [Conf.set_set, Conf.set_set, set_other pc _ _ hd hn] at h3

theorem reaches_others (new : Int) (pc : Pc) (s : Sem) {d : Nat} (e : Nat) (hd : 0 < d)
    (hde : d ≤ e) (hn : e ≤ n) (h0 : 0 ≤ s.val) (hmax : s.val + (e - d : Nat) ≤ SEMVMX) :
    ∃ t : Sem, t.val = s.val + (e - d : Nat) ∧
      Reaches (Step fun _ => badInit new) (sys n pc (some s) d) (sys n pc (some t) e) := by
  induction e, hde using Nat.le_induction with
  | base => exact ⟨s, by simp, .refl _⟩
  | succ e hde ih =>
    obtain ⟨t, ht, hr⟩ := ih (by omega) (by omega)
    refine ⟨{ val := t.val + 1, otime := true }, ?_, hr.trans
      (reaches_other (by omega) hn (by omega) (by omega))⟩
    simp only
    omega

end runs

/-- **What `svsem_bad_init` leaves**: of the operations of `n` processes at least one counts, but
any number of the others may be lost. -/
theorem bad_init_iff (n : Nat) {new : Int} (h0 : 0 ≤ new) (hmax : new + n ≤ SEMVMX) (v : Int) :
    (∃ c s, Reaches (Step fun _ => badInit new) (start : Sys (Fin n)) c ∧
      (∀ i, c.own i = .done) ∧ c.shared = some s ∧ s.val = v) ↔ 1 ≤ v ∧ v ≤ n := by
  refine ⟨?_, fun ⟨h1, h2⟩ => ?_⟩
  · rintro ⟨c, s, ⟨as, hr⟩, hd, hs, rfl⟩
    have h : Late c := hr.invariant (fun _ _ _ h hs => h.step hs) fun _ hs => by cases hs
    have htotal : (c.total fun _ t => if t = .done then 1 else 0) = n := by
      rw [c.total_const _ (n := 1) fun i => by simp [hd i], Fintype.card_fin, Nat.mul_one]
    rcases h s hs with ⟨i, hi⟩ | ⟨-, hle, hpos | ⟨i, hi⟩⟩
    · simp [hd i] at hi
    · rw [htotal] at hle
      exact ⟨hpos, hle⟩
    · simp [hd i] at hi
  · -- all but `v - 1` of the others are done before process 0 initialises the set
    lift v to Nat using by omega
    have hn : 0 < n := by omega
    have hstart : Reaches (Step fun _ => badInit new) (start : Sys (Fin n))
        (sys n .setval (some { val := new, otime := false }) 1) := by
      have hr := reaches_go (c := (start : Sys (Fin n))) ⟨0, hn⟩ _ _
        (rfl : badInit new none .create = _)
      have he : (start : Sys (Fin n)) = sys n .create none 1 := by
        unfold start sys
        congr 1
        funext i
        split_ifs <;> first | rfl | omega
      rw [he] at hr ⊢
      rwa [set_first] at hr
    have hvn : v ≤ n := by omega
    have hroom : new + ((n - v + 1 - 1 : Nat) : Int) ≤ SEMVMX := by omega
    obtain ⟨s1, -, hr1⟩ :=
      reaches_others (n := n) new .setval { val := new, otime := false } (n - v + 1)
        Nat.one_pos (by omega) (by omega) h0 hroom
    have h2 : Reaches (Step fun _ => badInit new) (sys n .setval (some s1) (n - v + 1))
        (sys n .operate (some { s1 with val := 0 }) (n - v + 1)) := reaches_first hn rfl
    have hroom : (0 : Int) + ((n - (n - v + 1) : Nat) : Int) ≤ SEMVMX := by omega
    obtain ⟨s3, hs3, h3⟩ := reaches_others (n := n) new .operate { s1 with val := 0 } n
      (Nat.succ_pos (n - v)) (by omega) le_rfl le_rfl hroom
    simp only at hs3
    have h4 : Reaches (Step fun _ => badInit new) (sys n .operate (some s3) n)
        (sys n .done (some { val := s3.val + 1, otime := true }) n) :=
      reaches_first hn (operate_one (by omega) (by omega))
    refine ⟨sys n .done (some { val := s3.val + 1, otime := true }) n, _,
      hstart.trans (hr1.trans (h2.trans (h3.trans h4))), fun i => ?_, rfl, ?_⟩
    · simp only [sys]
      split_ifs <;> first | rfl | omega
    · simp only
      omega

/-- Two processes, one of whose operations is lost. -/
theorem bad_init_iff_two :
    ∃ c s, Reaches (Step fun _ => badInit 0) (start : Sys (Fin 2)) c ∧
      (∀ i, c.own i = .done) ∧ c.shared = some s ∧ s.val = 1 :=
  (bad_init_iff 2 le_rfl (by decide) 1).mpr (by decide)

end Tlpi.SemInit
