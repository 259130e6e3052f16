import Tlpi.Lib.Lts
import Tlpi.Lib.CInt
import Tlpi.Lib.Threads

/-!
# The sequence-number server

`tlpi-dist/pipes/fifo_seqnum_server.c` and any number of its clients
(`tlpi-dist/pipes/fifo_seqnum_client.c`), each with a pid and a FIFO of its own. A step is one
system call; requests and responses are shorter than `PIPE_BUF`, so each arrives whole. The two
`open`s of a client's FIFO wait for each other, so they are one step, which the server takes. A
client may be killed at any time, which leaves its FIFO behind.

The numbers given to the clients do not overlap as long as they fit an `int` altogether
(`seqnum_disjoint`). A client that is killed between its request and its `open` stops the server for
good, and nothing else does (`seqnum_ends`).
-/

namespace Tlpi.SeqNum

open Tlpi.Lib

/-- `seqLen`, as `getInt(.., GN_GT_0, ..)` lets it through. -/
structure SeqLen where
  val : Int
  pos : 0 < val
  le : val ≤ INT_MAX

structure Request (ι : Type*) where
  pid : ι
  seqLen : Int

inductive ClientPc where
  | mkfifo
  /-- At `write` to the server's FIFO. -/
  | send
  /-- At `open` of its own FIFO. -/
  | opening
  /-- At `read` of the response. -/
  | opened
  /-- After `exit`. -/
  | exited
  | killed
  deriving DecidableEq

/-- A client and its FIFO: whether the FIFO exists, and what the server has written to it. -/
structure Client where
  pc : ClientPc
  fifo : Bool
  resp : Option Int

inductive ServerPc (ι : Type*) where
  | read
  /-- At `open` of the client's FIFO. -/
  | opening (req : Request ι)
  | writing (req : Request ι)

/-- The server, and the requests in its FIFO, of which there is room for `room`. -/
structure Server (ι : Type*) where
  queue : List (Request ι)
  pc : ServerPc ι
  seqNum : Int

abbrev Sys (ι : Type*) := Conf ι (Server ι) Client

variable {ι : Type*} [DecidableEq ι] (len : ι → SeqLen) (room : Nat)

def clientMain (i : ι) (srv : Server ι) (l : Client) : Option (Server ι × Client) :=
  match l.pc with
  | .mkfifo => some (srv, { l with fifo := true, pc := .send })
  | .send =>
    if srv.queue.length < room then
      some ({ srv with queue := srv.queue ++ [⟨i, (len i).val⟩] }, { l with pc := .opening })
    else none
  | .opening => none
  | .opened => l.resp.map fun _ => (srv, { l with fifo := false, pc := .exited })
  | .exited | .killed => none

def serverMain (c : Sys ι) : Option (Sys ι) :=
  match c.shared.pc with
  | .read =>
    match c.shared.queue with
    | [] => none
    | req :: queue => some { c with shared := { c.shared with queue, pc := .opening req } }
  | .opening req =>
    let l := c.own req.pid
    if l.fifo = false then some { c with shared := { c.shared with pc := .read } }
    else if l.pc = .opening then
      some (c.set req.pid { c.shared with pc := .writing req } { l with pc := .opened })
    else none
  | .writing req =>
    -- a write that fails with `EPIPE` is only reported: the numbers are used up all the same
    let l := c.own req.pid
    some (c.set req.pid
      { c.shared with pc := .read, seqNum := toInt32 (c.shared.seqNum + req.seqLen) }
      { l with resp := if l.pc = .opened then some c.shared.seqNum else l.resp })

inductive Act (ι : Type*) where
  | server
  | client (i : ι)
  | kill (i : ι)

def Act.isKill : Act ι → Bool
  | .kill _ => true
  | _ => false

def exec (c : Sys ι) : Act ι → Option (Sys ι)
  | .server => serverMain c
  | .client i => (clientMain len room i c.shared (c.own i)).map fun r => c.set i r.1 r.2
  | .kill i =>
    if (c.own i).pc = .exited ∨ (c.own i).pc = .killed then none
    else some (c.set i c.shared { c.own i with pc := .killed })

def Step (c : Sys ι) (a : Act ι) (c' : Sys ι) : Prop := exec len room c a = some c'

def start : Sys ι where
  shared := { queue := [], pc := .read, seqNum := 0 }
  own _ := { pc := .mkfifo, fifo := false, resp := none }

def Finished (c : Sys ι) : Prop := ∀ i, (c.own i).pc = .exited ∨ (c.own i).pc = .killed

/-- The server waits for a killed client to open its FIFO. -/
def Stuck (c : Sys ι) : Prop := ∃ req, c.shared.pc = .opening req ∧
  (c.own req.pid).pc = .killed ∧ (c.own req.pid).fifo = true

/-! ## What every step keeps -/

variable {len room} {c c' : Sys ι} {i : ι}

/-- Requests that are still to be answered: those that wait, and the one being answered. -/
def Server.waiting (srv : Server ι) : List (Request ι) :=
  match srv.pc with
  | .opening req => req :: srv.queue
  | .read | .writing _ => srv.queue

def Server.answering (srv : Server ι) : List (Request ι) :=
  match srv.pc with
  | .writing req => [req]
  | .read | .opening _ => []

def Server.requests (srv : Server ι) : List (Request ι) := srv.answering ++ srv.waiting

/-- The client has not yet sent its request. -/
def Client.Unsent (l : Client) : Prop := l.pc = .mkfifo ∨ l.pc = .send

instance : DecidablePred Client.Unsent := fun _ => inferInstanceAs (Decidable (_ ∨ _))

/-- How many numbers the client will still ask for. -/
def Client.wants (n : SeqLen) (l : Client) : Nat := if l.Unsent then n.val.toNat else 0

/-- A client and its FIFO: `w` says that its request waits, `a` that it is being answered. -/
def ClientOk (w a : Prop) (l : Client) : Prop :=
  match l.pc with
  | .mkfifo => ¬ w ∧ ¬ a ∧ l.resp = none
  | .send => ¬ w ∧ ¬ a ∧ l.resp = none ∧ l.fifo = true
  | .opening => w ∧ ¬ a ∧ l.resp = none ∧ l.fifo = true
  | .opened => ¬ w ∧ (a ↔ l.resp = none) ∧ l.fifo = true
  | .exited => ¬ w ∧ ¬ a
  | .killed => w ∨ a → l.resp = none ∧ l.fifo = true

/-- Where the requests are. -/
structure Placed (len : ι → SeqLen) (c : Sys ι) : Prop where
  nodup : (c.shared.requests.map Request.pid).Nodup
  seqLen : ∀ r ∈ c.shared.requests, r.seqLen = (len r.pid).val
  client : ∀ i, ClientOk (i ∈ c.shared.waiting.map Request.pid)
    (i ∈ c.shared.answering.map Request.pid) (c.own i)

omit [DecidableEq ι] in
theorem placed_start : Placed len (start : Sys ι) where
  nodup := .nil
  seqLen := by simp [start, Server.requests, Server.waiting, Server.answering]
  client i := by simp [start, Server.waiting, Server.answering, ClientOk]

theorem Placed.set (h : Placed len c) {srv : Server ι} {l : Client}
    (hnd : (srv.requests.map Request.pid).Nodup)
    (hlen : ∀ r ∈ srv.requests, r.seqLen = (len r.pid).val)
    (hw : ∀ j, j ≠ i →
      (j ∈ srv.waiting.map Request.pid ↔ j ∈ c.shared.waiting.map Request.pid))
    (ha : ∀ j, j ≠ i →
      (j ∈ srv.answering.map Request.pid ↔ j ∈ c.shared.answering.map Request.pid))
    (hi : ClientOk (i ∈ srv.waiting.map Request.pid) (i ∈ srv.answering.map Request.pid) l) :
    Placed len (c.set i srv l) := by
  refine ⟨hnd, hlen, (c.forall_set i srv l (P := fun j l => ClientOk
    (j ∈ srv.waiting.map Request.pid) (j ∈ srv.answering.map Request.pid) l)).mpr
    ⟨hi, fun j hj => ?_⟩⟩
  rw [hw j hj, ha j hj]
  exact h.client j

theorem Placed.keep (h : Placed len c) {l : Client}
    (hi : ClientOk (i ∈ c.shared.waiting.map Request.pid)
      (i ∈ c.shared.answering.map Request.pid) l) : Placed len (c.set i c.shared l) :=
  h.set h.nodup h.seqLen (fun _ _ => Iff.rfl) (fun _ _ => Iff.rfl) hi

theorem Placed.send (h : Placed len c) (hpc : (c.own i).pc = .send) : Placed len
    (c.set i { c.shared with queue := c.shared.queue ++ [⟨i, (len i).val⟩] }
      { c.own i with pc := .opening }) := by
  have hi := h.client i
  simp only [ClientOk, hpc] at hi
  obtain ⟨hnw, hna, hresp, hfifo⟩ := hi
  have hw : ({ c.shared with queue := c.shared.queue ++ [⟨i, (len i).val⟩] } : Server ι).waiting =
      c.shared.waiting ++ [⟨i, (len i).val⟩] := by
    unfold Server.waiting
    cases c.shared.pc <;> rfl
  have ha : ({ c.shared with queue := c.shared.queue ++ [⟨i, (len i).val⟩] } : Server ι).answering =
      c.shared.answering := rfl
  have hnd := h.nodup
  have hlen := h.seqLen
  unfold Server.requests at hnd hlen
  refine h.set ?_ ?_ (fun j hj => ?_) (fun j hj => by rw [ha]) ?_
  · rw [Server.requests, hw, ha, ← List.append_assoc, List.map_append, List.nodup_append]
    refine ⟨hnd, List.nodup_singleton _, fun a ha b hb => ?_⟩
    rw [List.map_append, List.mem_append] at ha
    rw [List.map_singleton, List.mem_singleton] at hb
    rintro rfl
    exact ha.elim (hb ▸ hna) (hb ▸ hnw)
  · intro r hr
    rw [Server.requests, hw, ha, ← List.append_assoc, List.mem_append, List.mem_singleton] at hr
    rcases hr with hr | rfl
    · exact hlen r hr
    · rfl
  · simp [hw, hj]
  · rw [hw, ha]
    simp only [ClientOk]
    exact ⟨by simp, hna, hresp, hfifo⟩

/-- What the server does: no `open` of a client's FIFO fails. -/
inductive ServerStep (c : Sys ι) : Sys ι → Prop where
  | read {req : Request ι} {queue : List (Request ι)} (hpc : c.shared.pc = .read)
      (hq : c.shared.queue = req :: queue) :
      ServerStep c { c with shared := { c.shared with queue, pc := .opening req } }
  | opening {req : Request ι} (hpc : c.shared.pc = .opening req)
      (hl : (c.own req.pid).pc = .opening) :
      ServerStep c (c.set req.pid { c.shared with pc := .writing req }
        { c.own req.pid with pc := .opened })
  | writing {req : Request ι} (hpc : c.shared.pc = .writing req) :
      ServerStep c (c.set req.pid
        { c.shared with pc := .read, seqNum := toInt32 (c.shared.seqNum + req.seqLen) }
        { c.own req.pid with
          resp := if (c.own req.pid).pc = .opened then some c.shared.seqNum
            else (c.own req.pid).resp })

omit [DecidableEq ι] in
theorem ClientOk.waiting {a : Prop} {w : Prop} {l : Client} (h : ClientOk w a l) (hw : w) :
    (l.pc = .opening ∨ l.pc = .killed) ∧ l.resp = none ∧ l.fifo = true := by
  unfold ClientOk at h
  cases hpc : l.pc <;> simp only [hpc] at h
  case opening => exact ⟨.inl rfl, h.2.2⟩
  case killed => exact ⟨.inr rfl, h (.inl hw)⟩
  all_goals exact absurd hw h.1

omit [DecidableEq ι] in
theorem ClientOk.answering {a : Prop} {w : Prop} {l : Client} (h : ClientOk w a l) (ha : a) :
    (l.pc = .opened ∨ l.pc = .killed) ∧ l.resp = none ∧ l.fifo = true := by
  unfold ClientOk at h
  cases hpc : l.pc <;> simp only [hpc] at h
  case opened => exact ⟨.inl rfl, h.2.1.mp ha, h.2.2⟩
  case killed => exact ⟨.inr rfl, h (.inr ha)⟩
  case exited => exact absurd ha h.2
  all_goals exact absurd ha h.2.1

theorem Placed.serverStep (h : Placed len c) (hs : serverMain c = some c') : ServerStep c c' := by
  unfold serverMain at hs
  cases hpc : c.shared.pc with
  | read =>
    cases hq : c.shared.queue with
    | nil => simp [hpc, hq] at hs
    | cons req queue =>
      simp only [hpc, hq, Option.some.injEq] at hs
      subst hs
      exact .read hpc hq
  | opening req =>
    have hw := (h.client req.pid).waiting (by simp [Server.waiting, hpc])
    simp only [hpc] at hs
    rw [if_neg (by simp [hw.2.2])] at hs
    obtain ⟨hl, hs⟩ := Option.ite_none_right_eq_some.mp hs
    cases hs
    exact .opening hpc hl
  | writing req =>
    simp only [hpc, Option.some.injEq] at hs
    subst hs
    exact .writing hpc

theorem Placed.server (h : Placed len c) (hs : ServerStep c c') : Placed len c' := by
  have hnd := h.nodup
  have hlen := h.seqLen
  cases hs with
  | @read req queue hpc hq =>
    refine ⟨?_, ?_, fun i => ?_⟩
    · simpa [Server.requests, Server.waiting, Server.answering, hpc, hq] using hnd
    · simpa [Server.requests, Server.waiting, Server.answering, hpc, hq] using hlen
    · simpa [Server.waiting, Server.answering, hpc, hq] using h.client i
  | @opening req hpc hl =>
    have hi := h.client req.pid
    simp only [Server.requests, Server.waiting, Server.answering, hpc, List.nil_append,
      List.map_cons, List.nodup_cons] at hnd hlen hi
    simp only [ClientOk, hl] at hi
    refine h.set ?_ ?_ (fun j hj => ?_) (fun j hj => ?_) ?_
    · simpa [Server.requests, Server.waiting, Server.answering] using hnd
    · simpa [Server.requests, Server.waiting, Server.answering] using hlen
    · simp [Server.waiting, hpc, hj]
    · simp [Server.answering, hpc, hj]
    · simp only [ClientOk, Server.waiting, Server.answering]
      exact ⟨hnd.1, by simp [hi.2.2.1], hi.2.2.2⟩
  | @writing req hpc =>
    have hi := h.client req.pid
    obtain ⟨hp, hresp, hfifo⟩ := hi.answering (by simp [Server.answering, hpc])
    simp only [Server.requests, Server.waiting, Server.answering, hpc, List.singleton_append,
      List.map_cons, List.nodup_cons, List.mem_cons, forall_eq_or_imp] at hnd hlen
    refine h.set ?_ ?_ (fun j hj => ?_) (fun j hj => ?_) ?_
    · simpa [Server.requests, Server.waiting, Server.answering] using hnd.2
    · simpa [Server.requests, Server.waiting, Server.answering] using hlen.2
    · simp [Server.waiting, hpc]
    · simp [Server.answering, hpc, hj]
    · rcases hp with hp | hp <;> simp only [ClientOk, Server.waiting, Server.answering, hp]
      · exact ⟨hnd.1, by simp, hfifo⟩
      · exact fun hw => absurd (hw.resolve_right (by simp)) hnd.1

theorem Placed.step {a : Act ι} (h : Placed len c) (hs : Step len room c a c') :
    Placed len c' := by
  cases a with
  | server => exact h.server (h.serverStep hs)
  | client i =>
    obtain ⟨⟨srv, l⟩, hl, rfl⟩ := Option.map_eq_some_iff.mp hs
    have hi := h.client i
    unfold clientMain at hl
    cases hpc : (c.own i).pc <;> simp only [hpc, reduceCtorEq, Option.some.injEq, Prod.mk.injEq,
      ClientOk] at hl hi
    case mkfifo =>
      obtain ⟨rfl, rfl⟩ := hl
      exact h.keep ⟨hi.1, hi.2.1, hi.2.2, rfl⟩
    case send =>
      obtain ⟨-, hl⟩ := Option.ite_none_right_eq_some.mp hl
      cases hl
      exact h.send hpc
    case opened =>
      obtain ⟨n, hn, hl⟩ := Option.map_eq_some_iff.mp hl
      cases hl
      exact h.keep ⟨hi.1, fun ha => by simp [hi.2.1.mp ha] at hn⟩
  | kill i =>
    obtain ⟨hpc, hs⟩ := Option.ite_none_left_eq_some.mp hs
    cases hs
    have hi := h.client i
    refine h.keep fun hw => ?_
    rcases hw with hw | ha
    · exact (hi.waiting hw).2
    · exact (hi.answering ha).2

/-! ## The numbers -/

/-- The numbers in use are below `seqNum`, and there are enough left for those who still ask. -/
structure Numbers [Fintype ι] (len : ι → SeqLen) (c : Sys ι) : Prop where
  nonneg : 0 ≤ c.shared.seqNum
  room : c.shared.seqNum + (c.shared.requests.map Request.seqLen).sum +
    (c.total fun i l => l.wants (len i)) ≤ ∑ i, (len i).val
  below : ∀ i n, (c.own i).resp = some n → 0 ≤ n ∧ n + (len i).val ≤ c.shared.seqNum
  disjoint : ∀ i j n m, i ≠ j → (c.own i).resp = some n → (c.own j).resp = some m →
    n + (len i).val ≤ m ∨ m + (len j).val ≤ n

section numbers

variable [Fintype ι]

omit [DecidableEq ι] in
theorem numbers_start : Numbers len (start : Sys ι) where
  nonneg := le_rfl
  room := by
    simp only [start, Server.requests, Server.waiting, Server.answering, List.append_nil,
      List.map_nil, List.sum_nil, zero_add, Conf.total, Client.wants, Client.Unsent, true_or,
      if_true, Nat.cast_sum]
    exact (Finset.sum_congr rfl fun i _ => Int.toNat_of_nonneg (len i).pos.le).le
  below i n h := by simp [start] at h
  disjoint i j n m _ h := by simp [start] at h

theorem Numbers.set (h : Numbers len c) {srv : Server ι} {l : Client}
    (hseq : srv.seqNum = c.shared.seqNum)
    (hroom : (srv.requests.map Request.seqLen).sum + l.wants (len i) ≤
      (c.shared.requests.map Request.seqLen).sum + (c.own i).wants (len i))
    (hresp : l.resp = (c.own i).resp) : Numbers len (c.set i srv l) := by
  have hr : ∀ j, ((c.set i srv l).own j).resp = (c.own j).resp :=
    (c.forall_set i srv l (P := fun j l => l.resp = (c.own j).resp)).mpr ⟨hresp, fun _ _ => rfl⟩
  have htot := c.total_set i srv l fun i l => l.wants (len i)
  have h0 := h.room
  refine ⟨by rw [Conf.set_shared, hseq]; exact h.nonneg, ?_, fun j n => ?_, fun j k n m => ?_⟩
  · rw [Conf.set_shared, hseq]
    omega
  · rw [hr, Conf.set_shared, hseq]
    exact h.below j n
  · rw [hr, hr]
    exact h.disjoint j k n m

omit [DecidableEq ι] [Fintype ι] in
theorem Placed.sum_nonneg (h : Placed len c) : ∀ {rs : List (Request ι)},
    (∀ r ∈ rs, r ∈ c.shared.requests) → 0 ≤ (rs.map Request.seqLen).sum := fun hrs =>
  List.sum_nonneg fun x hx => by
    obtain ⟨r, hr, rfl⟩ := List.mem_map.mp hx
    rw [h.seqLen r (hrs r hr)]
    exact (len r.pid).pos.le

/-- The server answers: the numbers from `seqNum` on are free. -/
theorem Numbers.answer (hmax : ∑ i, (len i).val ≤ INT_MAX) (hp : Placed len c)
    (h : Numbers len c) {req : Request ι} (hpc : c.shared.pc = .writing req) :
    Numbers len (c.set req.pid
      { c.shared with pc := .read, seqNum := toInt32 (c.shared.seqNum + req.seqLen) }
      { c.own req.pid with
        resp := if (c.own req.pid).pc = .opened then some c.shared.seqNum
          else (c.own req.pid).resp }) := by
  have hreq : c.shared.requests = req :: c.shared.queue := by
    simp [Server.requests, Server.waiting, Server.answering, hpc]
  have hlen := hp.seqLen req (by simp [hreq])
  have hpos := (len req.pid).pos
  have hsum : 0 ≤ (c.shared.queue.map Request.seqLen).sum :=
    hp.sum_nonneg fun r hr => by simp [hreq, hr]
  have h0 := h.nonneg
  have hroom := h.room
  rw [hreq, List.map_cons, List.sum_cons] at hroom
  have hseq : toInt32 (c.shared.seqNum + req.seqLen) = c.shared.seqNum + (len req.pid).val := by
    rw [hlen]
    unfold INT_MAX at hmax
    exact toInt32_of_range (by omega) (by omega)
  have hans := (hp.client req.pid).answering (by simp [Server.answering, hpc])
  rw [hseq]
  obtain ⟨l, hl⟩ : ∃ l : Client, l = { c.own req.pid with
      resp := if (c.own req.pid).pc = .opened then some c.shared.seqNum
        else (c.own req.pid).resp } := ⟨_, rfl⟩
  rw [← hl]
  have hwants : l.wants (len req.pid) = (c.own req.pid).wants (len req.pid) := by subst hl; rfl
  -- who has which number after the step
  have hresp : ∀ j n, ((c.set req.pid { c.shared with
      pc := .read, seqNum := c.shared.seqNum + (len req.pid).val } l).own j).resp = some n →
      (j = req.pid ∧ n = c.shared.seqNum) ∨ (j ≠ req.pid ∧ (c.own j).resp = some n) := by
    intro j n hj
    by_cases hji : j = req.pid
    · subst hji
      rw [Conf.set_own_self, hl] at hj
      rcases hans.1 with ho | hk
      · rw [if_pos ho] at hj
        exact .inl ⟨rfl, (Option.some.inj hj).symm⟩
      · simp [hk, hans.2.1] at hj
    · rw [c.set_own_of_ne _ _ hji] at hj
      exact .inr ⟨hji, hj⟩
  refine ⟨?_, ?_, fun j n hj => ?_, fun j k n m hjk hj hk => ?_⟩
  · simp only [Conf.set_shared]
    omega
  · rw [c.total_set_eq hwants]
    simp only [Conf.set_shared, Server.requests, Server.waiting, Server.answering, List.nil_append]
    omega
  · simp only [Conf.set_shared]
    rcases hresp j n hj with ⟨rfl, rfl⟩ | ⟨-, hj⟩
    · omega
    · have := h.below j n hj
      omega
  · rcases hresp j n hj with ⟨rfl, rfl⟩ | ⟨-, hj⟩ <;>
      rcases hresp k m hk with ⟨rfl, rfl⟩ | ⟨-, hk⟩
    · exact absurd rfl hjk
    · exact .inr (h.below k m hk).2
    · exact .inl (h.below j n hj).2
    · exact h.disjoint j k n m hjk hj hk

theorem Numbers.step {a : Act ι} (hmax : ∑ i, (len i).val ≤ INT_MAX) (hp : Placed len c)
    (h : Numbers len c) (hs : Step len room c a c') : Numbers len c' := by
  cases a with
  | server =>
    cases hp.serverStep hs with
    | @read req queue hpc hq =>
      have hreq : ({ c.shared with queue, pc := .opening req } : Server ι).requests =
          c.shared.requests := by
        simp [Server.requests, Server.waiting, Server.answering, hpc, hq]
      have hroom := h.room
      rw [← hreq] at hroom
      exact ⟨h.nonneg, hroom, h.below, h.disjoint⟩
    | @opening req hpc hl =>
      refine h.set rfl ?_ rfl
      simp [Server.requests, Server.waiting, Server.answering, hpc, Client.wants, Client.Unsent, hl]
    | @writing req hpc => exact h.answer hmax hp hpc
  | client i =>
    obtain ⟨⟨srv, l⟩, hl, rfl⟩ := Option.map_eq_some_iff.mp hs
    have hi := hp.client i
    unfold clientMain at hl
    cases hpc : (c.own i).pc <;> simp only [hpc, reduceCtorEq, Option.some.injEq,
      Prod.mk.injEq] at hl
    case mkfifo =>
      obtain ⟨rfl, rfl⟩ := hl
      exact h.set rfl (by simp [Client.wants, Client.Unsent, hpc]) rfl
    case send =>
      obtain ⟨-, hl⟩ := Option.ite_none_right_eq_some.mp hl
      cases hl
      refine h.set rfl ?_ rfl
      have hw : ({ c.shared with queue := c.shared.queue ++ [⟨i, (len i).val⟩] } :
          Server ι).requests = c.shared.requests ++ [⟨i, (len i).val⟩] := by
        unfold Server.requests Server.waiting Server.answering
        cases c.shared.pc <;> simp
      simp [hw, Client.wants, Client.Unsent, hpc]
    case opened =>
      obtain ⟨n, hn, hl⟩ := Option.map_eq_some_iff.mp hl
      cases hl
      exact h.set rfl (by simp [Client.wants, Client.Unsent]) rfl
  | kill i =>
    obtain ⟨hpc, hs⟩ := Option.ite_none_left_eq_some.mp hs
    cases hs
    exact h.set rfl (by simp [Client.wants, Client.Unsent]) rfl

/-- **The numbers of two clients do not overlap**, whatever the interleaving and whoever is killed,
as long as the numbers asked for fit an `int` altogether. -/
theorem seqnum_disjoint (hmax : ∑ i, (len i).val ≤ INT_MAX) {as : List (Act ι)}
    (h : Run (Step len room) start as c) {i j : ι} {n m : Int} (hij : i ≠ j)
    (hi : (c.own i).resp = some n) (hj : (c.own j).resp = some m) :
    0 ≤ n ∧ 0 ≤ m ∧ (n + (len i).val ≤ m ∨ m + (len j).val ≤ n) := by
  obtain ⟨-, hn⟩ := h.invariant (I := fun c => Placed len c ∧ Numbers len c)
    (fun _ _ _ ⟨hp, hn⟩ hs => ⟨hp.step hs, hn.step hmax hp hs⟩) ⟨placed_start, numbers_start⟩
  exact ⟨(hn.below i n hi).1, (hn.below j m hj).1, hn.disjoint i j n m hij hi hj⟩

end numbers

/-- Two clients that ask for one number each get 0 and 1. -/
theorem seqnum_disjoint_two : ∃ as c, Run (Step (fun _ => ⟨1, by decide, by decide⟩) 8192)
    (start : Sys (Fin 2)) as c ∧ (c.own 0).resp = some 1 ∧ (c.own 1).resp = some 0 ∧
      (0 : Int) ≤ 1 ∧ (0 : Int) ≤ 0 ∧ ((1 : Int) + 1 ≤ 0 ∨ (0 : Int) + 1 ≤ 1) := by
  have hrun : (execAll (exec (fun _ => ⟨1, by decide, by decide⟩) 8192) (start : Sys (Fin 2))
      [.client 0, .client 1, .client 1, .client 0, .server, .server, .server, .server, .server,
        .server]).map (fun c => ((c.own 0).resp, (c.own 1).resp)) = some (some 1, some 0) := by
    decide
  obtain ⟨c, hc, hresp⟩ := Option.map_eq_some_iff.mp hrun
  obtain ⟨h0, h1⟩ := Prod.mk.inj hresp
  have hr : Run (Step (fun _ => ⟨1, by decide, by decide⟩) 8192) start _ c :=
    Run.of_execAll (fun _ _ _ h => h) hc
  exact ⟨_, c, hr, h0, h1, seqnum_disjoint (by decide) hr (by decide : (0 : Fin 2) ≠ 1) h0 h1⟩

/-! ## The server goes on -/

def ClientPc.left : ClientPc → Nat
  | .mkfifo => 6
  | .send => 5
  | .opening | .opened => 1
  | .exited | .killed => 0

def Server.left (srv : Server ι) : Nat :=
  3 * srv.queue.length + match srv.pc with | .opening _ => 2 | .writing _ => 1 | .read => 0

def left [Fintype ι] (c : Sys ι) : Nat := (c.total fun _ l => l.pc.left) + c.shared.left

theorem Placed.left_lt [Fintype ι] {a : Act ι} (h : Placed len c) (hs : Step len room c a c') :
    left c' + 1 ≤ left c + if a.isKill then 1 else 0 := by
  cases a with
  | server =>
    simp only [Act.isKill, Bool.false_eq_true, if_false]
    cases h.serverStep hs with
    | @read req queue hpc hq =>
      simp only [left, Server.left, hpc, hq, List.length_cons, Conf.total]
      omega
    | @opening req hpc hl =>
      have := c.total_set req.pid { c.shared with pc := .writing req }
        { c.own req.pid with pc := .opened } fun _ l => l.pc.left
      simp only [hl, ClientPc.left] at this
      simp only [left, Conf.set_shared, Server.left, hpc, ClientPc.left]
      omega
    | @writing req hpc =>
      have := c.total_set_eq (i := req.pid)
        (s := { c.shared with pc := .read, seqNum := toInt32 (c.shared.seqNum + req.seqLen) })
        (t := { c.own req.pid with
          resp := if (c.own req.pid).pc = .opened then some c.shared.seqNum
            else (c.own req.pid).resp }) (g := fun _ l => l.pc.left) rfl
      simp only [left, Conf.set_shared, Server.left, hpc] at this ⊢
      omega
  | client i =>
    obtain ⟨⟨srv, l⟩, hl, rfl⟩ := Option.map_eq_some_iff.mp hs
    have htot := c.total_set i srv l fun _ l => l.pc.left
    simp only [left, Conf.set_shared, Act.isKill, Bool.false_eq_true, if_false]
    unfold clientMain at hl
    cases hpc : (c.own i).pc <;> simp only [hpc, reduceCtorEq, Option.some.injEq,
      Prod.mk.injEq] at hl
    case mkfifo =>
      obtain ⟨rfl, rfl⟩ := hl
      simp only [hpc, ClientPc.left] at htot ⊢
      omega
    case send =>
      obtain ⟨-, hl⟩ := Option.ite_none_right_eq_some.mp hl
      cases hl
      simp only [hpc, ClientPc.left, Server.left, List.length_append, List.length_singleton]
        at htot ⊢
      omega
    case opened =>
      obtain ⟨n, hn, hl⟩ := Option.map_eq_some_iff.mp hl
      cases hl
      simp only [hpc, ClientPc.left] at htot ⊢
      omega
  | kill i =>
    obtain ⟨hpc, hs⟩ := Option.ite_none_left_eq_some.mp hs
    cases hs
    have htot := c.total_set i c.shared { c.own i with pc := .killed } fun _ l => l.pc.left
    have hk : ClientPc.killed.left = 0 := rfl
    dsimp only at htot
    simp only [left, Conf.set_shared, Act.isKill, if_true]
    omega

theorem Placed.next (hroom : 0 < room) (h : Placed len c) :
    (Finished c ∨ Stuck c) ∨ ∃ a c', Step len room c a c' ∧ a.isKill = false := by
  by_cases hf : Finished c
  · exact .inl (.inl hf)
  have hserver : (serverMain c).isSome →
      ∃ a c', Step len room c a c' ∧ a.isKill = false := fun hs => by
    obtain ⟨c', hc'⟩ := Option.isSome_iff_exists.mp hs
    exact ⟨.server, c', hc', rfl⟩
  cases hpc : c.shared.pc with
  | writing req => exact .inr (hserver (by simp [serverMain, hpc]))
  | opening req =>
    have hw := (h.client req.pid).waiting (by simp [Server.waiting, hpc])
    rcases hw.1 with ho | hk
    · exact .inr (hserver (by simp [serverMain, hpc, hw.2.2, ho]))
    · exact .inl (.inr ⟨req, hpc, hk, hw.2.2⟩)
  | read =>
    refine .inr ?_
    cases hq : c.shared.queue with
    | cons req queue => exact hserver (by simp [serverMain, hpc, hq])
    | nil =>
      simp only [Finished, not_forall, not_or] at hf
      obtain ⟨i, hne, hnk⟩ := hf
      have hi := h.client i
      suffices (clientMain len room i c.shared (c.own i)).isSome by
        obtain ⟨r, hr⟩ := Option.isSome_iff_exists.mp this
        exact ⟨.client i, _, Option.map_eq_some_iff.mpr ⟨r, hr, rfl⟩, rfl⟩
      cases hpi : (c.own i).pc <;> simp only [hpi, ClientOk, Server.waiting, Server.answering, hpc,
        hq] at hi
      case mkfifo => simp [clientMain, hpi]
      case send => simp [clientMain, hpi, hq, hroom]
      case opening => simp at hi
      case opened =>
        have hresp : (c.own i).resp ≠ none := fun hn => by simp [hn] at hi
        simp [clientMain, hpi, Option.isSome_iff_ne_none, hresp]
      case exited => exact absurd hpi hne
      case killed => exact absurd hpi hnk

/-- The server that waits for a killed client waits for ever. -/
theorem Stuck.step {a : Act ι} (h : Stuck c) (hs : Step len room c a c') : Stuck c' := by
  obtain ⟨req, hpc, hk, hf⟩ := h
  cases a with
  | server => simp [Step, exec, serverMain, hpc, hk, hf] at hs
  | client i =>
    obtain ⟨⟨srv, l⟩, hl, rfl⟩ := Option.map_eq_some_iff.mp hs
    have hi : req.pid ≠ i := by
      rintro rfl
      simp [clientMain, hk] at hl
    have hsrv : srv.pc = c.shared.pc := by
      unfold clientMain at hl
      cases hp : (c.own i).pc <;> simp [hp] at hl
      · rw [← hl.1]
      · rw [← hl.2.1]
      · rw [← hl.2.1]
    exact ⟨req, hsrv.trans hpc, by rwa [c.set_own_of_ne _ _ hi], by rwa [c.set_own_of_ne _ _ hi]⟩
  | kill i =>
    obtain ⟨hi, hs⟩ := Option.ite_none_left_eq_some.mp hs
    cases hs
    have hne : req.pid ≠ i := by
      rintro rfl
      exact hi (.inr hk)
    exact ⟨req, hpc, by rwa [c.set_own_of_ne _ _ hne], by rwa [c.set_own_of_ne _ _ hne]⟩

theorem not_killed {a : Act ι} (h : ∀ i, (c.own i).pc ≠ .killed) (ha : a.isKill = false)
    (hp : Placed len c) (hs : Step len room c a c') : ∀ i, (c'.own i).pc ≠ .killed := by
  cases a with
  | kill i => cases ha
  | server =>
    cases hp.serverStep hs with
    | read => exact h
    | opening =>
      exact (c.forall_set _ _ _ (P := fun _ l => l.pc ≠ .killed)).mpr ⟨by simp, fun j _ => h j⟩
    | writing =>
      exact (c.forall_set _ _ _ (P := fun _ l => l.pc ≠ .killed)).mpr ⟨h _, fun j _ => h j⟩
  | client i =>
    obtain ⟨⟨srv, l⟩, hl, rfl⟩ := Option.map_eq_some_iff.mp hs
    refine (c.forall_set i srv l (P := fun _ l => l.pc ≠ .killed)).mpr ⟨?_, fun j _ => h j⟩
    unfold clientMain at hl
    cases hp : (c.own i).pc <;> simp [hp] at hl
    · simp [← hl.2]
    · simp [← hl.2.2]
    · simp [← hl.2.2]

/-- **The server serves everyone unless a client is killed at the wrong moment**: every run can go
on until all clients have exited or been killed, or until the server waits for a killed client;
without a kill it never does, and once it does it does for ever. -/
theorem seqnum_ends [Fintype ι] (len : ι → SeqLen) (hroom : 0 < room) :
    EndsUpTo (Step len room) Act.isKill (start : Sys ι) (fun c => Finished c ∨ Stuck c) ∧
      (∀ as c, Run (Step len room) (start : Sys ι) as c → (∀ a ∈ as, a.isKill = false) →
        ¬ Stuck c) ∧
      ∀ c as c', Stuck c → Run (Step len room) c as c' → Stuck c' := by
  refine ⟨EndsUpTo.of_measure (I := Placed len) (μ := left) 0
    (fun c a c' h (hs : Step len room c a c') => ⟨h.step hs, h.left_lt hs⟩)
    (fun c h => h.next hroom) placed_start, fun as c hr ha => ?_, fun c as c' h hr =>
      hr.invariant (fun _ _ _ h hs => h.step hs) h⟩
  have hk := ((hr.guarded ha).invariant
    (I := fun c => Placed len c ∧ ∀ i, (c.own i).pc ≠ .killed)
    (fun _ _ _ ⟨hp, hk⟩ hs => ⟨hp.step hs.2, not_killed hk hs.1 hp hs.2⟩)
    ⟨placed_start, fun _ => by simp [start]⟩).2
  rintro ⟨req, -, hreq, -⟩
  exact hk req.pid hreq

/-- Without a kill one client is served. -/
theorem seqnum_ends_one : ∃ as c, Run (Step (fun _ => ⟨1, by decide, by decide⟩) 8192)
    (start : Sys Unit) as c ∧ Finished c := by
  obtain ⟨hends, hstuck, -⟩ := seqnum_ends (fun _ : Unit => ⟨1, by decide, by decide⟩)
    (by decide : 0 < 8192)
  obtain ⟨as, c, hr, hf, hk⟩ := hends.completes [] _ (.nil _)
  refine ⟨as, c, hr, hf.resolve_right (hstuck as c hr fun a ha => ?_)⟩
  simpa using List.countP_eq_zero.mp hk a ha

end Tlpi.SeqNum
