import Tlpi.Lib.Lts
import Tlpi.Lib.Threads
import Tlpi.Lib.File

/-!
# Input from many FIFOs

`tlpi-dist/altio/epoll_input.c`, from its loop on, where the files are FIFOs: `epoll_wait` returns
some of those that are ready, `MAX_EVENTS` at most and which ones it likes; each is read once, or
closed if there was nothing to read and no writer. The writers go on meanwhile, and new ones may
come, so what an event says of a file may be out of date when its turn comes.

The program waits only for writers, and comes to its end when they are gone. An event without input
also says that no writer is left, so a file is not closed before everything written to it has been
read (`Drained`), unless a writer comes back between this event and the `close`
(`epoll_input_correct`).
-/

namespace Tlpi.EpollInput

open Tlpi.Lib

def MAX_BUF : Nat := 1000
def MAX_EVENTS : Nat := 5

/-- A file on the command line, a FIFO. -/
structure Source where
  /-- Written to it so far. -/
  written : Bytes
  /-- Written, and not read yet. -/
  pending : Bytes
  /-- Somebody has it open for writing. -/
  writer : Bool
  isOpen : Bool

/-- `struct epoll_event`, with `EPOLLIN` and `EPOLLHUP`. -/
structure EpollEvent (n : Nat) where
  fd : Fin n
  input : Bool
  hup : Bool

inductive Pc (n : Nat) where
  /-- At `numOpenFds > 0`. -/
  | test
  /-- In `epoll_wait`. -/
  | wait
  /-- In the loop over the events, with these to come. -/
  | events (evlist : List (EpollEvent n))
  /-- In `errExit`. -/
  | failed
  | exited

structure Prog (n : Nat) where
  pc : Pc n
  numOpenFds : Int
  /-- What has been read, from which file. -/
  log : List (Fin n × Bytes)

abbrev Sys (n : Nat) := Conf (Fin n) (Prog n) Source

inductive Act (n : Nat) where
  | test
  /-- `epoll_wait` returns events for these files. -/
  | epollWait (fds : List (Fin n))
  /-- A signal handler interrupts `epoll_wait`. -/
  | intr
  /-- The next event; `k` bytes are read if there is input. -/
  | event (k : Nat)
  /-- A byte is written to file `i`. -/
  | write (i : Fin n) (b : UInt8)
  /-- The last writer of file `i` closes it. -/
  | hangup (i : Fin n)
  /-- File `i` is opened for writing again. -/
  | reopen (i : Fin n)

variable {n : Nat}

/-- Steps that are not the program's own. -/
def Act.external : Act n → Bool
  | .intr | .write .. | .hangup .. | .reopen .. => true
  | _ => false

def Source.ready (s : Source) : Bool := s.isOpen && (!s.pending.isEmpty || !s.writer)

/-- The event that `epoll_wait` returns for a file. -/
def eventOf (c : Sys n) (i : Fin n) : EpollEvent n where
  fd := i
  input := !(c.own i).pending.isEmpty
  hup := !(c.own i).writer

/-- A `read` of `MAX_BUF` bytes may return `k`. At the end of the file there are none. -/
def Source.Reads (s : Source) (k : Nat) : Prop :=
  if s.pending = [] then k = 0 ∧ s.writer = false else 0 < k ∧ k ≤ MAX_BUF ∧ k ≤ s.pending.length

instance (s : Source) (k : Nat) : Decidable (s.Reads k) := inferInstanceAs (Decidable (ite _ _ _))

/-- After an event. -/
def next : List (EpollEvent n) → Pc n
  | [] => .test
  | evlist => .events evlist

def exec (c : Sys n) : Act n → Option (Sys n)
  | .test =>
    match c.shared.pc with
    | .test => some { c with shared :=
        { c.shared with pc := if 0 < c.shared.numOpenFds then .wait else .exited } }
    | _ => none
  | .epollWait fds =>
    match c.shared.pc with
    | .wait =>
      if fds ≠ [] ∧ fds.length ≤ MAX_EVENTS ∧ fds.Nodup ∧ ∀ i ∈ fds, (c.own i).ready = true then
        some { c with shared := { c.shared with pc := .events (fds.map (eventOf c)) } }
      else none
    | _ => none
  | .intr =>
    match c.shared.pc with
    | .wait => some { c with shared := { c.shared with pc := .test } }
    | _ => none
  | .event k =>
    match c.shared.pc with
    | .events (ev :: evlist) =>
      let s := c.own ev.fd
      if ev.input then
        if s.isOpen = false then some { c with shared := { c.shared with pc := .failed } }
        else if s.Reads k then
          some (c.set ev.fd
            { c.shared with
              pc := next evlist
              log := c.shared.log ++ [(ev.fd, s.pending.take k)] }
            { s with pending := s.pending.drop k })
        else none
      else if ev.hup then
        if s.isOpen = false then some { c with shared := { c.shared with pc := .failed } }
        else
          some (c.set ev.fd
            { c.shared with pc := next evlist, numOpenFds := c.shared.numOpenFds - 1 }
            { s with isOpen := false })
      else some { c with shared := { c.shared with pc := next evlist } }
    | _ => none
  -- `write` fails when nobody can read, and `open` waits
  | .write i b =>
    let s := c.own i
    if s.writer = true ∧ s.isOpen = true then
      some (c.set i c.shared { s with written := s.written ++ [b], pending := s.pending ++ [b] })
    else none
  | .hangup i =>
    let s := c.own i
    if s.writer then some (c.set i c.shared { s with writer := false }) else none
  | .reopen i =>
    let s := c.own i
    if s.writer = false ∧ s.isOpen = true then some (c.set i c.shared { s with writer := true })
    else none

def Step (c : Sys n) (a : Act n) (c' : Sys n) : Prop := exec c a = some c'

/-- The program before its loop; `open` has waited for a writer of each file. -/
def start (n : Nat) : Sys n where
  shared := { pc := .test, numOpenFds := n, log := [] }
  own _ := { written := [], pending := [], writer := true, isOpen := true }

/-- What has been read from file `i`. -/
def received (log : List (Fin n × Bytes)) (i : Fin n) : Bytes :=
  ((log.filter (·.1 = i)).map (·.2)).flatten

/-- At the end, or waiting for writers to write or to go. -/
def Idle (c : Sys n) : Prop :=
  match c.shared.pc with
  | .exited => True
  | .wait => ∀ i, (c.own i).isOpen = true → (c.own i).pending = [] ∧ (c.own i).writer = true
  | _ => False

/-! ## What every step keeps -/

variable {c c' : Sys n}

/-- What an event still says of its file when its turn comes. -/
structure EpollEvent.Holds (ev : EpollEvent n) (s : Source) : Prop where
  isOpen : s.isOpen = true
  input : ev.input = true → s.pending ≠ []
  hup : ev.input = false → ev.hup = true

def Pc.evlist : Pc n → List (EpollEvent n)
  | .events evlist => evlist
  | _ => []

structure Inv (c : Sys n) : Prop where
  count : c.shared.numOpenFds = c.total fun _ s => s.isOpen.toNat
  data : ∀ i, received c.shared.log i ++ (c.own i).pending = (c.own i).written
  reads : ∀ r ∈ c.shared.log, 0 < r.2.length ∧ r.2.length ≤ MAX_BUF
  nodup : (c.shared.pc.evlist.map (·.fd)).Nodup
  events : ∀ ev ∈ c.shared.pc.evlist, ev.Holds (c.own ev.fd)
  nonempty : c.shared.pc ≠ .events []
  failed : c.shared.pc ≠ .failed
  wait : c.shared.pc = .wait → 0 < c.shared.numOpenFds
  exited : c.shared.pc = .exited → c.shared.numOpenFds ≤ 0

theorem inv_start (n : Nat) : Inv (start n) where
  count := by simp [start, Conf.total]
  data i := by simp [start, received]
  reads r h := by simp [start] at h
  nodup := by simp [start, Pc.evlist]
  events ev h := by simp [start, Pc.evlist] at h
  nonempty := by simp [start]
  failed := by simp [start]
  wait h := by simp [start] at h
  exited h := by simp [start] at h

/-- The steps, one constructor for each. -/
inductive SysStep (c : Sys n) : Act n → Sys n → Prop where
  | test (hpc : c.shared.pc = .test) :
      SysStep c .test { c with shared :=
        { c.shared with pc := if 0 < c.shared.numOpenFds then .wait else .exited } }
  | epollWait {fds : List (Fin n)} (hpc : c.shared.pc = .wait) (hne : fds ≠ []) (hnd : fds.Nodup)
      (hready : ∀ i ∈ fds, (c.own i).ready = true) :
      SysStep c (.epollWait fds)
        { c with shared := { c.shared with pc := .events (fds.map (eventOf c)) } }
  | intr (hpc : c.shared.pc = .wait) :
      SysStep c .intr { c with shared := { c.shared with pc := .test } }
  | closed {k : Nat} {ev : EpollEvent n} {evlist : List (EpollEvent n)}
      (hpc : c.shared.pc = .events (ev :: evlist)) (ho : (c.own ev.fd).isOpen = false) :
      SysStep c (.event k) { c with shared := { c.shared with pc := .failed } }
  | read {ev : EpollEvent n} {evlist : List (EpollEvent n)} {k : Nat}
      (hpc : c.shared.pc = .events (ev :: evlist)) (hin : ev.input = true)
      (hk : (c.own ev.fd).Reads k) :
      SysStep c (.event k) (c.set ev.fd
        { c.shared with
          pc := next evlist
          log := c.shared.log ++ [(ev.fd, (c.own ev.fd).pending.take k)] }
        { c.own ev.fd with pending := (c.own ev.fd).pending.drop k })
  | close {k : Nat} {ev : EpollEvent n} {evlist : List (EpollEvent n)}
      (hpc : c.shared.pc = .events (ev :: evlist)) (hin : ev.input = false)
      (ho : (c.own ev.fd).isOpen = true) :
      SysStep c (.event k) (c.set ev.fd
        { c.shared with pc := next evlist, numOpenFds := c.shared.numOpenFds - 1 }
        { c.own ev.fd with isOpen := false })
  | skip {k : Nat} {ev : EpollEvent n} {evlist : List (EpollEvent n)}
      (hpc : c.shared.pc = .events (ev :: evlist)) (hin : ev.input = false) (hh : ev.hup = false) :
      SysStep c (.event k) { c with shared := { c.shared with pc := next evlist } }
  | write {i : Fin n} {b : UInt8} (hw : (c.own i).writer = true) (ho : (c.own i).isOpen = true) :
      SysStep c (.write i b) (c.set i c.shared
        { c.own i with written := (c.own i).written ++ [b], pending := (c.own i).pending ++ [b] })
  | hangup {i : Fin n} (hw : (c.own i).writer = true) :
      SysStep c (.hangup i) (c.set i c.shared { c.own i with writer := false })
  | reopen {i : Fin n} (ho : (c.own i).isOpen = true) :
      SysStep c (.reopen i) (c.set i c.shared { c.own i with writer := true })

theorem sysStep {a : Act n} (h : Step c a c') : SysStep c a c' := by
  cases a with
  | test =>
    simp only [Step, exec] at h
    split at h <;> cases h
    exact .test ‹_›
  | epollWait fds =>
    simp only [Step, exec] at h
    split at h
    on_goal 2 => cases h
    obtain ⟨⟨hne, -, hnd, hready⟩, h⟩ := Option.ite_none_right_eq_some.mp h
    cases h
    exact .epollWait ‹_› hne hnd hready
  | intr =>
    simp only [Step, exec] at h
    split at h <;> cases h
    exact .intr ‹_›
  | event k =>
    simp only [Step, exec] at h
    split at h
    on_goal 2 => cases h
    next ev evlist hpc =>
    split at h
    · next hin =>
      split at h
      · cases h
        exact .closed hpc ‹_›
      · obtain ⟨hk, h⟩ := Option.ite_none_right_eq_some.mp h
        cases h
        exact .read hpc hin hk
    · next hin =>
      rw [Bool.not_eq_true] at hin
      split at h
      · split at h <;> cases h
        · exact .closed hpc ‹_›
        · exact .close hpc hin (by simpa using ‹¬ (c.own ev.fd).isOpen = false›)
      · cases h
        exact .skip hpc hin (by simpa using ‹¬ ev.hup = true›)
  | write i b =>
    obtain ⟨⟨hw, ho⟩, h⟩ := Option.ite_none_right_eq_some.mp h
    cases h
    exact .write hw ho
  | hangup i =>
    obtain ⟨hw, h⟩ := Option.ite_none_right_eq_some.mp h
    cases h
    exact .hangup hw
  | reopen i =>
    obtain ⟨⟨-, ho⟩, h⟩ := Option.ite_none_right_eq_some.mp h
    cases h
    exact .reopen ho

@[simp] theorem next_evlist (evlist : List (EpollEvent n)) : (next evlist).evlist = evlist := by
  cases evlist <;> rfl

theorem next_cases (evlist : List (EpollEvent n)) :
    next evlist ≠ .events [] ∧ next evlist ≠ .failed ∧ next evlist ≠ .wait ∧
      next evlist ≠ .exited := by
  cases evlist <;> simp [next]

theorem received_append (log : List (Fin n × Bytes)) (i j : Fin n) (bs : Bytes) :
    received (log ++ [(i, bs)]) j = if j = i then received log i ++ bs else received log j := by
  unfold received
  rw [List.filter_append, List.map_append, List.flatten_append]
  by_cases h : j = i
  · subst h
    simp
  · simp [h, Ne.symm h]

theorem Inv.go (h : Inv c) {pc : Pc n} (hnd : (pc.evlist.map (·.fd)).Nodup)
    (hev : ∀ ev ∈ pc.evlist, ev.Holds (c.own ev.fd)) (hne : pc ≠ .events []) (hf : pc ≠ .failed)
    (hw : pc = .wait → 0 < c.shared.numOpenFds) (he : pc = .exited → c.shared.numOpenFds ≤ 0) :
    Inv { c with shared := { c.shared with pc := pc } } :=
  ⟨h.count, h.data, h.reads, hnd, hev, hne, hf, hw, he⟩

theorem Inv.of_events (h : Inv c) {ev : EpollEvent n} {evlist : List (EpollEvent n)}
    (hpc : c.shared.pc = .events (ev :: evlist)) :
    ev.Holds (c.own ev.fd) ∧ (evlist.map (·.fd)).Nodup ∧
      ∀ ev' ∈ evlist, ev'.fd ≠ ev.fd ∧ ev'.Holds (c.own ev'.fd) := by
  have hev := h.events
  have hnd := h.nodup
  simp only [hpc, Pc.evlist, List.forall_mem_cons, List.map_cons, List.nodup_cons, List.mem_map,
    not_exists, not_and] at hev hnd
  exact ⟨hev.1, hnd.2, fun ev' hm => ⟨hnd.1 ev' hm, hev.2 ev' hm⟩⟩

/-- A file is ready because there is input or no writer, and the event says which. -/
theorem eventOf_ready {i : Fin n} (hr : (c.own i).ready = true) :
    (c.own i).isOpen = true ∧ ((eventOf c i).input = true → (c.own i).pending ≠ []) ∧
      ((eventOf c i).input = false → (c.own i).pending = [] ∧ (c.own i).writer = false) := by
  simp only [Source.ready, Bool.and_eq_true, Bool.or_eq_true, Bool.not_eq_true'] at hr
  refine ⟨hr.1, fun hin => by simpa [eventOf] using hin, fun hin => ?_⟩
  have hp : (c.own i).pending = [] := by simpa [eventOf] using hin
  exact ⟨hp, by simpa [hp] using hr.2⟩

theorem Inv.epollWait (h : Inv c) {fds : List (Fin n)} (hne : fds ≠ []) (hnd : fds.Nodup)
    (hready : ∀ i ∈ fds, (c.own i).ready = true) :
    Inv { c with shared := { c.shared with pc := .events (fds.map (eventOf c)) } } := by
  refine h.go ?_ ?_ (by simpa using hne) (by simp) (by simp) (by simp)
  · have : (fun i => (eventOf c i).fd) = id := rfl
    simpa [Pc.evlist, Function.comp_def, eventOf] using hnd
  · intro ev hm
    obtain ⟨i, hi, rfl⟩ := List.mem_map.mp hm
    obtain ⟨ho, hinput, hhup⟩ := eventOf_ready (hready i hi)
    exact ⟨ho, hinput, fun hin => by simp [eventOf, (hhup hin).2]⟩

theorem Inv.read (h : Inv c) {ev : EpollEvent n} {evlist : List (EpollEvent n)} {k : Nat}
    (hpc : c.shared.pc = .events (ev :: evlist)) (hin : ev.input = true)
    (hk : (c.own ev.fd).Reads k) :
    Inv (c.set ev.fd
      { c.shared with
        pc := next evlist
        log := c.shared.log ++ [(ev.fd, (c.own ev.fd).pending.take k)] }
      { c.own ev.fd with pending := (c.own ev.fd).pending.drop k }) := by
  obtain ⟨hev, hnd, hothers⟩ := h.of_events hpc
  obtain ⟨h1, h2, h3, h4⟩ := next_cases evlist
  rw [Source.Reads, if_neg (hev.input hin)] at hk
  refine ⟨?_, fun i => ?_, fun r hr => ?_, by simpa using hnd, fun ev' hm => ?_, h1, h2,
    fun hw => absurd hw h3, fun he => absurd he h4⟩
  · rw [c.total_set_eq (by rfl)]
    exact h.count
  · have hd := h.data i
    rw [Conf.set_shared, received_append, Conf.set_own]
    split
    · next hi =>
      subst hi
      rw [List.append_assoc, List.take_append_drop, hd]
    · exact hd
  · rw [Conf.set_shared, List.mem_append, List.mem_singleton] at hr
    obtain hr | rfl := hr
    · exact h.reads r hr
    · rw [List.length_take]
      omega
  · rw [Conf.set_shared, next_evlist] at hm
    obtain ⟨hne, hh⟩ := hothers ev' hm
    rwa [Conf.set_own_of_ne _ _ _ hne]

theorem Inv.close (h : Inv c) {ev : EpollEvent n} {evlist : List (EpollEvent n)}
    (hpc : c.shared.pc = .events (ev :: evlist)) :
    Inv (c.set ev.fd
      { c.shared with pc := next evlist, numOpenFds := c.shared.numOpenFds - 1 }
      { c.own ev.fd with isOpen := false }) := by
  obtain ⟨hev, hnd, hothers⟩ := h.of_events hpc
  obtain ⟨h1, h2, h3, h4⟩ := next_cases evlist
  refine ⟨?_, fun i => ?_, h.reads, by simpa using hnd, fun ev' hm => ?_, h1, h2,
    fun hw => absurd hw h3, fun he => absurd he h4⟩
  · have htot := c.total_set ev.fd
      { c.shared with pc := next evlist, numOpenFds := c.shared.numOpenFds - 1 }
      { c.own ev.fd with isOpen := false } fun _ s => s.isOpen.toNat
    have hcount := h.count
    simp only [hev.isOpen, Bool.toNat_true, Bool.toNat_false] at htot
    simp only [Conf.set_shared]
    omega
  · have hd := h.data i
    rw [Conf.set_shared, Conf.set_own]
    split
    · next hi =>
      subst hi
      exact hd
    · exact hd
  · rw [Conf.set_shared, next_evlist] at hm
    obtain ⟨hne, hh⟩ := hothers ev' hm
    rwa [Conf.set_own_of_ne _ _ _ hne]

theorem Inv.outside (h : Inv c) {i : Fin n} {s : Source} (ho : s.isOpen = (c.own i).isOpen)
    (hd : ∃ bs, s.written = (c.own i).written ++ bs ∧ s.pending = (c.own i).pending ++ bs) :
    Inv (c.set i c.shared s) := by
  obtain ⟨bs, hwr, hp⟩ := hd
  refine ⟨?_, fun j => ?_, h.reads, h.nodup, fun ev hm => ?_, h.nonempty, h.failed,
    h.wait, h.exited⟩
  · rw [c.total_set_eq (by rw [ho])]
    exact h.count
  · rw [Conf.set_shared, Conf.set_own]
    split
    · next hj => rw [hj, hwr, hp, ← List.append_assoc, h.data i]
    · exact h.data j
  · have hev := h.events ev hm
    rw [Conf.set_own]
    split
    · next hj =>
      rw [hj] at hev
      exact ⟨ho.trans hev.isOpen, fun hin => by simp [hp, hev.input hin], hev.hup⟩
    · exact hev

theorem Inv.step {a : Act n} (h : Inv c) (hs : Step c a c') : Inv c' := by
  cases sysStep hs with
  | test hpc =>
    split
    · next hl =>
      exact h.go (by simp [Pc.evlist]) (by simp [Pc.evlist]) (by simp) (by simp)
        (fun _ => hl) (by simp)
    · next hl =>
      exact h.go (by simp [Pc.evlist]) (by simp [Pc.evlist]) (by simp) (by simp) (by simp)
        fun _ => not_lt.mp hl
  | epollWait hpc hne hnd hready => exact h.epollWait hne hnd hready
  | intr hpc =>
    exact h.go (by simp [Pc.evlist]) (by simp [Pc.evlist]) (by simp) (by simp) (by simp) (by simp)
  | closed hpc ho =>
    have := (h.of_events hpc).1.isOpen
    rw [ho] at this
    cases this
  | read hpc hin hk => exact h.read hpc hin hk
  | close hpc hin ho => exact h.close hpc
  | skip hpc hin hh =>
    have := (h.of_events hpc).1.hup hin
    rw [hh] at this
    cases this
  | write => exact h.outside rfl ⟨_, rfl, rfl⟩
  | hangup | reopen => exact h.outside rfl ⟨[], by simp, by simp⟩

/-! ## What is closed -/

/-- A writer comes back to a file only when no event is at hand that says that nobody writes to
it. -/
def Timely (c : Sys n) (a : Act n) : Prop :=
  ∀ i, a = .reopen i → ∀ ev ∈ c.shared.pc.evlist, ev.fd = i → ev.input = true

/-- A file that is closed, or about to be, has no input left and no writer. -/
structure Drained (c : Sys n) : Prop where
  closed : ∀ i, (c.own i).isOpen = false → (c.own i).pending = [] ∧ (c.own i).writer = false
  hup : ∀ ev ∈ c.shared.pc.evlist, ev.input = false →
    (c.own ev.fd).pending = [] ∧ (c.own ev.fd).writer = false

theorem drained_start (n : Nat) : Drained (start n) where
  closed i h := by simp [start] at h
  hup ev h := by simp [start, Pc.evlist] at h

theorem Drained.go (hd : Drained c) {s : Prog n}
    (hs : ∀ ev ∈ s.pc.evlist, ev ∈ c.shared.pc.evlist) :
    Drained { c with shared := s } :=
  ⟨hd.closed, fun ev hm => hd.hup ev (hs ev hm)⟩

theorem Drained.event (hd : Drained c) (h : Inv c) {ev : EpollEvent n}
    {evlist : List (EpollEvent n)}
    (hpc : c.shared.pc = .events (ev :: evlist)) {s : Prog n} (hs : s.pc = next evlist) {t : Source}
    (ht : t.isOpen = false → t.pending = [] ∧ t.writer = false) : Drained (c.set ev.fd s t) := by
  obtain ⟨-, -, hothers⟩ := h.of_events hpc
  refine ⟨(c.forall_set ev.fd s t (P := fun _ t => t.isOpen = false →
    t.pending = [] ∧ t.writer = false)).mpr ⟨ht, fun i _ => hd.closed i⟩, fun ev' hm hin => ?_⟩
  rw [Conf.set_shared, hs, next_evlist] at hm
  rw [Conf.set_own_of_ne _ _ _ (hothers ev' hm).1]
  exact hd.hup ev' (by rw [hpc]; exact List.mem_cons_of_mem _ hm) hin

theorem Drained.outside (hd : Drained c) {i : Fin n} {s : Source} (hs : s.isOpen = true)
    (hev : ∀ ev ∈ c.shared.pc.evlist, ev.fd = i → ev.input = true) :
    Drained (c.set i c.shared s) := by
  refine ⟨(c.forall_set i c.shared s (P := fun _ t => t.isOpen = false →
    t.pending = [] ∧ t.writer = false)).mpr ⟨fun hc => ?_, fun j _ => hd.closed j⟩,
    fun ev hm hin => ?_⟩
  · rw [hs] at hc
    cases hc
  · have hne : ev.fd ≠ i := fun hi => by
      rw [hev ev hm hi] at hin
      cases hin
    rw [Conf.set_own_of_ne _ _ _ hne]
    exact hd.hup ev hm hin

theorem Drained.step {a : Act n} (hd : Drained c) (h : Inv c) (hok : Timely c a)
    (hs : Step c a c') : Drained c' := by
  -- a file that somebody writes to is not about to be closed
  have hwriter : ∀ {i}, (c.own i).writer = true → ∀ ev ∈ c.shared.pc.evlist, ev.fd = i →
      ev.input = true := by
    rintro i hw ev hm rfl
    by_contra hin
    rw [(hd.hup ev hm (by simpa using hin)).2] at hw
    cases hw
  have hopen : ∀ {i}, (c.own i).writer = true → (c.own i).isOpen = true := by
    intro i hw
    by_contra ho
    rw [(hd.closed i (by simpa using ho)).2] at hw
    cases hw
  cases sysStep hs with
  | test => exact hd.go (by dsimp only; split <;> simp [Pc.evlist])
  | intr | closed => exact hd.go (by simp [Pc.evlist])
  | epollWait hpc hne hnd hready =>
    refine ⟨hd.closed, fun ev hm hin => ?_⟩
    obtain ⟨i, hi, rfl⟩ := List.mem_map.mp hm
    exact (eventOf_ready (hready i hi)).2.2 hin
  | read hpc hin hk =>
    refine hd.event h hpc rfl fun hc => ?_
    have ho := (h.of_events hpc).1.isOpen
    rw [hc] at ho
    cases ho
  | @close k ev evlist hpc hin ho =>
    exact hd.event h hpc rfl fun _ => hd.hup ev (by rw [hpc]; exact List.mem_cons_self) hin
  | skip hpc =>
    refine hd.go fun ev hm => ?_
    rw [next_evlist] at hm
    rw [hpc]
    exact List.mem_cons_of_mem _ hm
  | write hw ho => exact hd.outside ho (hwriter hw)
  | hangup hw => exact hd.outside (hopen hw) (hwriter hw)
  | @reopen i ho => exact hd.outside ho (hok i rfl)

/-! ## The program comes to its end -/

/-- Reads and closes still to come for a file. -/
def Source.left (s : Source) : Nat := s.pending.length + s.isOpen.toNat

/-- Steps still to come before the next event. -/
def Pc.phase : Pc n → Nat
  | .test => 2
  | .wait => 1
  | _ => 0

def measure (c : Sys n) : Nat := 3 * (c.total fun _ s => s.left) + c.shared.pc.phase

theorem next_phase (evlist : List (EpollEvent n)) : (next evlist).phase ≤ 2 := by
  cases evlist <;> simp [next, Pc.phase]

theorem measure_event {i : Fin n} {s : Prog n} {t : Source} {evlist : List (EpollEvent n)}
    (hs : s.pc = next evlist) (ht : t.left < (c.own i).left) :
    measure (c.set i s t) + 1 ≤ measure c := by
  have htot := c.total_set i s t fun _ s => s.left
  have := next_phase evlist
  unfold measure
  rw [Conf.set_shared, hs]
  omega

theorem measure_outside {i : Fin n} {t : Source} (ht : t.left ≤ (c.own i).left + 1) :
    measure (c.set i c.shared t) ≤ measure c + 3 := by
  have htot := c.total_set i c.shared t fun _ s => s.left
  unfold measure
  rw [Conf.set_shared]
  omega

theorem measure_step {a : Act n} (h : Inv c) (hs : Step c a c') :
    measure c' + 1 ≤ measure c + if a.external then 3 + 1 else 0 := by
  cases sysStep hs with
  | test hpc =>
    have hphase : (if 0 < c.shared.numOpenFds then Pc.wait else Pc.exited : Pc n).phase ≤ 1 := by
      split <;> simp [Pc.phase]
    simp only [measure, hpc, Pc.phase, Conf.total, Act.external, Bool.false_eq_true,
      if_false] at hphase ⊢
    omega
  | epollWait hpc =>
    simp only [measure, hpc, Pc.phase, Conf.total, Act.external]
    simp
  | intr hpc =>
    simp only [measure, hpc, Pc.phase, Conf.total, Act.external]
    simp
  | @closed k ev evlist hpc ho =>
    have := (h.of_events hpc).1.isOpen
    rw [ho] at this
    cases this
  | read hpc hin hk =>
    rw [Source.Reads, if_neg ((h.of_events hpc).1.input hin)] at hk
    refine measure_event rfl ?_
    simp only [Source.left, List.length_drop]
    omega
  | close hpc hin ho =>
    refine measure_event rfl ?_
    simp [Source.left, ho]
  | skip hpc hin hh =>
    have := (h.of_events hpc).1.hup hin
    rw [hh] at this
    cases this
  | write hw ho =>
    refine Nat.succ_le_succ (measure_outside ?_)
    simp only [Source.left, List.length_append, List.length_singleton]
    omega
  | hangup | reopen => exact Nat.succ_le_succ (measure_outside (Nat.le_succ _))

theorem next_step (h : Inv c) : Idle c ∨ ∃ a c', Step c a c' ∧ a.external = false := by
  cases hpc : c.shared.pc with
  | test => exact .inr ⟨.test, _, by simp only [Step, exec, hpc]; rfl, rfl⟩
  | wait =>
    by_cases hr : ∃ i, (c.own i).ready = true
    · obtain ⟨i, hi⟩ := hr
      refine .inr ⟨.epollWait [i],
        { c with shared := { c.shared with pc := .events [eventOf c i] } }, ?_, rfl⟩
      simp only [Step, exec, hpc]
      exact if_pos ⟨by simp, by simp [MAX_EVENTS], by simp, by simpa using hi⟩
    · refine .inl ?_
      rw [Idle, hpc]
      intro i ho
      simp only [not_exists, Source.ready, Bool.and_eq_true, Bool.or_eq_true, Bool.not_eq_true',
        not_and, not_or] at hr
      simpa using hr i ho
  | failed => exact absurd hpc h.failed
  | exited => exact .inl (by rw [Idle, hpc]; trivial)
  | events evlist =>
    cases evlist with
    | nil => exact absurd hpc h.nonempty
    | cons ev evlist =>
      obtain ⟨hev, -⟩ := h.of_events hpc
      by_cases hin : ev.input = true
      · have hk : (c.own ev.fd).Reads 1 := by
          have := List.length_pos_of_ne_nil (hev.input hin)
          rw [Source.Reads, if_neg (hev.input hin)]
          exact ⟨Nat.one_pos, by decide, this⟩
        obtain ⟨c', hread⟩ : ∃ c', exec c (.event 1) = some c' := by
          simp only [exec, hpc, hin, hev.isOpen, if_pos hk, if_true, reduceCtorEq, if_false]
          exact ⟨_, rfl⟩
        exact .inr ⟨.event 1, c', hread, rfl⟩
      · have hh := hev.hup (by simpa using hin)
        obtain ⟨c', hclose⟩ : ∃ c', exec c (.event 0) = some c' := by
          simp only [exec, hpc, hin, hh, hev.isOpen, if_true, if_false, reduceCtorEq]
          exact ⟨_, rfl⟩
        exact .inr ⟨.event 0, c', hclose, rfl⟩

/-- What is closed has been read to its end, when writers come back in time. -/
theorem Drained.received_eq (hd : Drained c) (h : Inv c) {i : Fin n}
    (ho : (c.own i).isOpen = false) :
    received c.shared.log i = (c.own i).written ∧ (c.own i).writer = false := by
  obtain ⟨hp, hw⟩ := hd.closed i ho
  have hdata := h.data i
  rw [hp, List.append_nil] at hdata
  exact ⟨hdata, hw⟩

theorem Inv.exited_of_idle (h : Inv c) (hidle : Idle c) (hgone : ∀ i, (c.own i).writer = false) :
    c.shared.pc = .exited ∧ ∀ i, (c.own i).isOpen = false := by
  have hclosed : c.shared.numOpenFds ≤ 0 → ∀ i, (c.own i).isOpen = false := fun hle i => by
    have htot := c.le_total i (g := fun _ s => s.isOpen.toNat)
    have hcount := h.count
    by_contra ho
    simp only [Bool.not_eq_false] at ho
    simp only [ho, Bool.toNat_true] at htot
    omega
  unfold Idle at hidle
  split at hidle
  · exact ⟨‹_›, hclosed (h.exited ‹_›)⟩
  · next hpc =>
    have hall : ∀ i, (c.own i).isOpen = false := fun i => by
      by_contra ho
      have := (hidle i (by simpa using ho)).2
      rw [hgone i] at this
      cases this
    have hpos := h.wait hpc
    have hcount := h.count
    have hzero : (c.total fun _ s => s.isOpen.toNat) = 0 := by simp [Conf.total, hall]
    omega
  · cases hidle

/-- A writer that comes back between the event of a file and its `close`, and what it writes is
lost. -/
theorem exists_lost (i : Fin n) : ∃ as c, Run Step (start n) as c ∧ (c.own i).isOpen = false ∧
    received c.shared.log i ≠ (c.own i).written := by
  have hn : 0 < n := Nat.zero_lt_of_lt i.isLt
  have hrun : (execAll exec (start n)
      [.test, .hangup i, .epollWait [i], .reopen i, .write i 0, .event 0]).map
        (fun c => ((c.own i).isOpen, received c.shared.log i, (c.own i).written)) =
      some (false, [], [0]) := by
    simp [execAll, exec, start, hn, Source.ready, eventOf, next, received, MAX_EVENTS]
  obtain ⟨c, hc, heq⟩ := Option.map_eq_some_iff.mp hrun
  simp only [Prod.mk.injEq] at heq
  obtain ⟨ho, hr, hw⟩ := heq
  exact ⟨_, c, Run.of_execAll (fun _ _ _ h => h) hc, ho, by rw [hr, hw]; simp⟩

end Tlpi.EpollInput
