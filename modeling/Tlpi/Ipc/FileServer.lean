import Tlpi.Lib.Lts
import Tlpi.Lib.File
import Tlpi.Lib.CInt
import Tlpi.Lib.Threads
import Tlpi.Lib.Ipc

/-!
# The message-queue file server

`tlpi-dist/svmsg/svmsg_file_server.c` and any number of its clients
(`tlpi-dist/svmsg/svmsg_file_client.c`). A step is one system call of the server, of the child that
it has forked for a client, or of a client; a client may also be killed at any time, which leaves
its queue behind. Queues hold `qbytes` bytes, so that `msgsnd` blocks the server's child when its
client does not read, and a client while the server's queue is full.

What a client has received, what is in its queue and what its child has still to send are together
the whole reply (`LocalOk.stream`): the file in messages of `RESP_MSG_SIZE` bytes and an end
message, or the failure message. So a client receives the whole file and nothing else, whatever the
other clients do and whether or not they are killed (`file_server_correct`).
-/

namespace Tlpi.FileServer

open Tlpi.Lib

def RESP_MSG_SIZE : Nat := 8192

/-- `PATH_MAX` and the `int` in front of it. -/
def REQ_MSG_SIZE : Nat := 4096 + 4

structure Request (ι : Type*) where
  clientId : ι
  pathname : Bytes

/-- `RESP_MT_FAILURE`, `RESP_MT_DATA` and `RESP_MT_END`. -/
inductive MType where
  | failure
  | data
  | eof
  deriving DecidableEq

structure Response where
  mtype : MType
  data : Bytes

/-- The text of a failure, with its NUL. -/
def couldntOpen : Bytes := [67, 111, 117, 108, 100, 110, 39, 116, 32, 111, 112, 101, 110, 0]

/-- `serveRequest`, in the child of one client. -/
inductive Child where
  | notForked
  | opening (pathname : Bytes)
  | sendFailure
  /-- At `read`, with what is left of the file. -/
  | read (rest : Bytes)
  | send (data rest : Bytes)
  | sendEnd
  | ended

inductive ClientPc where
  /-- At `msgget(IPC_PRIVATE, ..)`. -/
  | create
  | send
  /-- At the first `msgrcv`. -/
  | first
  /-- At `resp.mtype == RESP_MT_DATA`. -/
  | loop
  /-- At `msgctl` after a failure. -/
  | remove
  /-- In `exit`, before `removeQueue`. -/
  | exit
  | exited
  /-- `errExit` -/
  | errExited
  | killed
  deriving DecidableEq

/-- A client, its queue, and its child of the server. The client keeps the type of the last
response and the totals; `got` are the responses that these are about. -/
structure Local where
  pc : ClientPc
  queue : Option (List Response)
  got : List Response
  mtype : MType
  totBytes : Int
  numMsgs : Int
  child : Child

/-- The server's queue, and the request that `main` has received and not yet forked for. -/
structure Server (ι : Type*) where
  queue : List (Request ι)
  req : Option (Request ι)

variable {ι : Type*} [DecidableEq ι] (files : Bytes → Option Bytes) (path : ι → Bytes)
  (qbytes : Nat)

/-- `msgsnd(req->clientId, &resp, ..)` -/
def sendResponse (l : Local) (resp : Response) (done fail : Child) : Option Local :=
  (msgsnd (fun m => m.data.length) qbytes l.queue resp).resume
    (fun q => { l with queue := some q, child := done }) { l with child := fail }

/-- The next step of the child. A file that cannot be opened is `none`. -/
def serveRequest (l : Local) : Option Local :=
  match l.child with
  | .notForked | .ended => none
  | .opening pathname => some { l with
      child := match files pathname with | none => .sendFailure | some content => .read content }
  | .sendFailure => sendResponse qbytes l ⟨.failure, couldntOpen⟩ .ended .ended
  | .read rest => some { l with
      child := if rest = [] then .sendEnd
        else .send (rest.take RESP_MSG_SIZE) (rest.drop RESP_MSG_SIZE) }
  | .send data rest => sendResponse qbytes l ⟨.data, data⟩ (.read rest) .sendEnd
  | .sendEnd => sendResponse qbytes l ⟨.eof, []⟩ .ended .ended

/-- `main` of the server: `msgrcv`, then `fork`. -/
def serverMain (c : Conf ι (Server ι) Local) : Option (Conf ι (Server ι) Local) :=
  match c.shared.req with
  | none =>
    match c.shared.queue with
    | [] => none
    | req :: queue => some { c with shared := { queue, req := some req } }
  | some req =>
    -- the model has one place for the child of a client, which is free (`Inv.pending`)
    match (c.own req.clientId).child with
    | .notForked => some (c.set req.clientId { c.shared with req := none }
        { c.own req.clientId with child := .opening req.pathname })
    | _ => none

/-- The next step of client `i`. -/
def clientMain (i : ι) (srv : Server ι) (l : Local) : Option (Server ι × Local) :=
  match l.pc with
  | .create => some (srv, { l with queue := some [], pc := .send })
  | .send =>
    (msgsnd (fun _ => REQ_MSG_SIZE) qbytes (some srv.queue) ⟨i, path i⟩).resume
      (fun q => ({ srv with queue := q }, { l with pc := .first }))
        (srv, { l with pc := .errExited })
  | .first =>
    (msgrcv l.queue).resume (fun (m, q) => (srv, { l with
      queue := some q, got := l.got ++ [m], mtype := m.mtype
      pc := if m.mtype = .failure then .remove else .loop
      totBytes := m.data.length, numMsgs := 1 })) (srv, { l with pc := .errExited })
  | .loop =>
    if l.mtype = .data then
      (msgrcv l.queue).resume (fun (m, q) => (srv, { l with
        queue := some q, got := l.got ++ [m], mtype := m.mtype
        totBytes := toInt64 (l.totBytes + m.data.length), numMsgs := toInt32 (l.numMsgs + 1) }))
        (srv, { l with pc := .errExited })
    else some (srv, { l with pc := .exit })
  | .remove => some (srv, { l with
      queue := none, pc := if l.queue.isSome then .exit else .errExited })
  | .exit => some (srv, { l with
      queue := none, pc := if l.queue.isSome then .exited else .errExited })
  | .exited | .errExited | .killed => none

inductive Act (ι : Type*) where
  | server
  | child (i : ι)
  | client (i : ι)
  | kill (i : ι)

def Act.isKill : Act ι → Bool
  | .kill _ => true
  | _ => false

/-- A client that has come to its end. -/
def ClientPc.Final (pc : ClientPc) : Prop := pc = .exited ∨ pc = .errExited ∨ pc = .killed

instance : DecidablePred ClientPc.Final := fun _ => inferInstanceAs (Decidable (_ ∨ _))

abbrev Sys (ι : Type*) := Conf ι (Server ι) Local

def exec (c : Sys ι) : Act ι → Option (Sys ι)
  | .server => serverMain c
  | .child i => (serveRequest files qbytes (c.own i)).map fun l => c.set i c.shared l
  | .client i => (clientMain path qbytes i c.shared (c.own i)).map fun r => c.set i r.1 r.2
  | .kill i =>
    if (c.own i).pc.Final then none else some (c.set i c.shared { c.own i with pc := .killed })

def Step (c : Sys ι) (a : Act ι) (c' : Sys ι) : Prop := exec files path qbytes c a = some c'

/-- The server has made its queue, the clients are about to make theirs. -/
def start : Sys ι where
  shared := { queue := [], req := none }
  own _ := { pc := .create, queue := none, got := [], mtype := .failure, totBytes := 0,
             numMsgs := 0, child := .notForked }

def Finished (c : Sys ι) : Prop := ∀ i, (c.own i).pc.Final

/-! ## The reply to a request -/

/-- The file in pieces of `RESP_MSG_SIZE` bytes. -/
def chunks (rest : Bytes) : List Bytes :=
  if rest = [] then [] else rest.take RESP_MSG_SIZE :: chunks (rest.drop RESP_MSG_SIZE)
termination_by rest.length
decreasing_by
  have := List.length_pos_iff.mpr ‹rest ≠ []›
  simp only [List.length_drop, RESP_MSG_SIZE]
  omega

@[simp] theorem chunks_nil : chunks [] = [] := by rw [chunks, if_pos rfl]

theorem chunks_of_ne {rest : Bytes} (h : rest ≠ []) :
    chunks rest = rest.take RESP_MSG_SIZE :: chunks (rest.drop RESP_MSG_SIZE) := by
  rw [chunks, if_neg h]

theorem flatten_chunks (content : Bytes) : (chunks content).flatten = content := by
  induction content using chunks.induct with
  | case1 => simp
  | case2 rest h ih => rw [chunks_of_ne h, List.flatten_cons, ih, List.take_append_drop]

theorem length_chunks (content : Bytes) :
    (chunks content).length = (content.length + 8191) / 8192 := by
  induction content using chunks.induct with
  | case1 => simp
  | case2 rest h ih =>
    have := List.length_pos_iff.mpr h
    rw [chunks_of_ne h, List.length_cons, ih, List.length_drop]
    simp only [RESP_MSG_SIZE]
    omega

theorem length_le_of_mem_chunks {content c : Bytes} (h : c ∈ chunks content) :
    c.length ≤ RESP_MSG_SIZE := by
  induction content using chunks.induct with
  | case1 => simp at h
  | case2 rest hne ih =>
    rw [chunks_of_ne hne, List.mem_cons] at h
    rcases h with rfl | h
    · simp
    · exact ih h

/-- What the server has to send for a file. -/
def reply : Option Bytes → List Response
  | none => [⟨.failure, couldntOpen⟩]
  | some content => (chunks content).map (Response.mk .data) ++ [⟨.eof, []⟩]

@[simp] theorem reply_nil : reply (some []) = [⟨.eof, []⟩] := by simp [reply]

theorem reply_of_ne {rest : Bytes} (h : rest ≠ []) : reply (some rest) =
    ⟨.data, rest.take RESP_MSG_SIZE⟩ :: reply (some (rest.drop RESP_MSG_SIZE)) := by
  simp [reply, chunks_of_ne h]

theorem reply_eq (file : Option Bytes) : ∃ ds m, reply file = ds ++ [m] ∧
    (∀ d ∈ ds, d.mtype = .data) ∧ m.mtype ≠ .data ∧ (m.mtype = .eof ↔ file.isSome) := by
  cases file with
  | none => exact ⟨[], _, rfl, by simp, by simp, by simp⟩
  | some content => exact ⟨_, _, rfl, by simp, by simp, by simp⟩

theorem length_le_of_mem_reply {file : Option Bytes} {m : Response} (h : m ∈ reply file) :
    m.data.length ≤ RESP_MSG_SIZE := by
  cases file with
  | none =>
    rw [reply, List.mem_singleton] at h
    subst h
    decide
  | some content =>
    simp only [reply, List.mem_append, List.mem_map, List.mem_singleton] at h
    rcases h with ⟨c, hc, rfl⟩ | rfl
    · exact length_le_of_mem_chunks hc
    · exact Nat.zero_le _

/-- A client that has received something other than data has received everything. -/
theorem complete_of_last {file : Option Bytes} {got rest : List Response} {m : Response}
    (h : got ++ rest = reply file) (hl : got.getLast? = some m) (hm : m.mtype ≠ .data) :
    rest = [] ∧ (m.mtype = .eof ↔ file.isSome) := by
  obtain ⟨ds, e, he, hds, -, hfile⟩ := reply_eq file
  rw [he] at h
  obtain ⟨got', rfl⟩ : ∃ got', got = got' ++ [m] := List.getLast?_eq_some_iff.mp hl
  rcases rest.eq_nil_or_concat with rfl | ⟨rest', e', rfl⟩
  · rw [List.append_nil] at h
    obtain ⟨rfl, he'⟩ := List.append_inj' h rfl
    cases he'
    exact ⟨rfl, hfile⟩
  · -- `m` would be one of the data messages
    rw [List.concat_eq_append, ← List.append_assoc] at h
    obtain ⟨rfl, -⟩ := List.append_inj' h rfl
    exact absurd (hds m (by simp)) hm

theorem failure_first {file : Option Bytes} {got rest : List Response} {m : Response}
    (h : got ++ (m :: rest) = reply file) (hm : m.mtype = .failure) : got = [] := by
  cases file with
  | none =>
    have := congrArg List.length h
    simp only [reply, List.length_append, List.length_cons, List.length_nil] at this
    exact List.eq_nil_of_length_eq_zero (by omega)
  | some content =>
    have hmem : m ∈ reply (some content) := by rw [← h]; simp
    simp only [reply, List.mem_append, List.mem_map, List.mem_singleton] at hmem
    rcases hmem with ⟨_, -, rfl⟩ | rfl <;> cases hm

/-! ## The child -/

variable {files path qbytes} {c c' : Sys ι} {i : ι} {l l' : Local}

/-- What a child has still to send to a client that asked for `pathname`. -/
def todo (files : Bytes → Option Bytes) (pathname : Bytes) : Child → List Response
  | .notForked | .opening _ => reply (files pathname)
  | .sendFailure => reply none
  | .read rest => reply (some rest)
  | .send data rest => ⟨.data, data⟩ :: reply (some rest)
  | .sendEnd => reply (some [])
  | .ended => []

/-- Steps that the child has still to make, and messages that the client will have to read. -/
def Child.left (file : Option Bytes) : Child → Nat
  | .notForked => 3 * (file.getD []).length + 8
  | .opening _ => 3 * (file.getD []).length + 7
  | .read rest => 3 * rest.length + 6
  | .send data rest => 3 * (data.length + rest.length) + 5
  | .sendFailure | .sendEnd => 2
  | .ended => 0

/-- The child is at work for a client that asked for `pathname`. -/
def Child.Busy (pathname : Bytes) : Child → Prop
  | .notForked | .ended => False
  | .opening p => p = pathname
  | .send data _ => data ≠ []
  | _ => True

/-- What a step of the child keeps: the messages on their way. -/
def ChildStep (files : Bytes → Option Bytes) (pathname : Bytes) (q : List Response)
    (l l' : Local) : Prop :=
  ∃ q' ch, l' = { l with queue := some q', child := ch } ∧
    q' ++ todo files pathname ch = q ++ todo files pathname l.child ∧
    (ch.Busy pathname ∨ ch = .ended) ∧
    ch.left (files pathname) + q'.length < l.child.left (files pathname) + q.length

theorem ChildStep.send {pathname : Bytes} {q : List Response} {resp : Response} {done fail : Child}
    (hq : l.queue = some q) (h : sendResponse qbytes l resp done fail = some l')
    (htodo : todo files pathname l.child = resp :: todo files pathname done)
    (hbusy : done.Busy pathname ∨ done = .ended)
    (hleft : done.left (files pathname) + 1 < l.child.left (files pathname)) :
    ChildStep files pathname q l l' := by
  rcases Attempt.resume_eq_some.mp h with ⟨he, -⟩ | ⟨q', he, rfl⟩
  · rw [hq] at he
    exact absurd (msgsnd_error he) (by simp)
  · obtain ⟨q0, h0, rfl⟩ := msgsnd_eq_done he
    cases hq.symm.trans h0
    refine ⟨_, _, rfl, ?_, hbusy, ?_⟩
    · rw [htodo, List.append_assoc]
      rfl
    · rw [List.length_append, List.length_singleton]
      omega

theorem childStep {pathname : Bytes} {q : List Response} (hq : l.queue = some q)
    (hb : l.child.Busy pathname) (h : serveRequest files qbytes l = some l') :
    ChildStep files pathname q l l' := by
  unfold serveRequest at h
  cases hc : l.child with
  | notForked | ended => simp [hc] at h
  | opening p =>
    simp only [hc, Option.some.injEq] at h
    obtain rfl : p = pathname := by simpa [hc, Child.Busy] using hb
    subst h
    cases hf : files p with
    | none => exact ⟨q, .sendFailure, by simp [← hq], by simp [todo, hc, hf], .inl trivial, by
        simp [Child.left, hc, hf]⟩
    | some content => exact ⟨q, .read content, by simp [← hq], by simp [todo, hc, hf], .inl trivial,
        by simp [Child.left, hc, hf]⟩
  | sendFailure =>
    simp only [hc] at h
    exact .send hq h (by simp [todo, hc, reply]) (.inr rfl) (by simp [Child.left, hc])
  | read rest =>
    simp only [hc, Option.some.injEq] at h
    subst h
    by_cases hr : rest = []
    · exact ⟨q, .sendEnd, by simp [← hq, hr], by simp [todo, hc, hr], .inl trivial, by
        simp [Child.left, hc]⟩
    · have htake : rest.take RESP_MSG_SIZE ≠ [] := by simpa [RESP_MSG_SIZE] using hr
      refine ⟨q, .send _ _, by rw [if_neg hr, ← hq], ?_, .inl htake, ?_⟩
      · simp [todo, hc, reply_of_ne hr]
      · simp only [Child.left, hc, List.length_take, List.length_drop]
        omega
  | send data rest =>
    simp only [hc] at h
    have hd : data ≠ [] := by simpa [hc, Child.Busy] using hb
    have := List.length_pos_iff.mpr hd
    refine .send hq h (by simp [todo, hc]) (.inl trivial) ?_
    simp only [Child.left, hc]
    omega
  | sendEnd =>
    simp only [hc] at h
    exact .send hq h (by simp [todo, hc]) (.inr rfl) (by simp [Child.left, hc])

/-! ## One client, its queue and its child -/

/-- What the variables of the client say about the responses that it has received. -/
structure Counted (l : Local) : Prop where
  last : ∃ m, l.got.getLast? = some m ∧ m.mtype = l.mtype
  totBytes : l.totBytes = toInt64 ((l.got.map fun m => m.data.length).sum : Nat)
  numMsgs : l.numMsgs = toInt32 l.got.length

def ClientOk (l : Local) : Prop :=
  match l.pc with
  | .create => l.queue = none ∧ l.got = [] ∧ l.child = .notForked
  | .send => l.queue = some [] ∧ l.got = [] ∧ l.child = .notForked
  | .first => l.queue.isSome ∧ l.got = []
  | .loop => l.queue.isSome ∧ Counted l ∧ l.mtype ≠ .failure
  | .remove => l.queue.isSome ∧ Counted l ∧ l.mtype = .failure
  | .exit => Counted l ∧ l.mtype = if l.queue.isSome then .eof else .failure
  | .exited => Counted l ∧ l.mtype = .eof
  | .errExited => Counted l ∧ l.mtype = .failure
  | .killed => True

/-- What the steps of a client that asks for `pathname`, and of its child, keep. -/
structure LocalOk (files : Bytes → Option Bytes) (pathname : Bytes) (l : Local) : Prop where
  client : ClientOk l
  stream : l.got ++ (l.queue.getD [] ++ todo files pathname l.child) = reply (files pathname)
  child : l.child = .notForked ∨ l.child = .ended ∨ (l.child.Busy pathname ∧ l.queue.isSome)

/-- The client does not see what its child does, nor what is put into its queue. -/
theorem ClientOk.frame (h : ClientOk l) (h1 : l.pc ≠ .create) (h2 : l.pc ≠ .send)
    {q : Option (List Response)} (hq : q.isSome = l.queue.isSome) (ch : Child) :
    ClientOk { l with queue := q, child := ch } := by
  unfold ClientOk at h ⊢
  cases hpc : l.pc <;> simp only [hpc] at h ⊢
  case create => exact absurd hpc h1
  case send => exact absurd hpc h2
  case first => exact ⟨hq ▸ h.1, h.2⟩
  case loop | remove => exact ⟨hq ▸ h.1, ⟨h.2.1.last, h.2.1.totBytes, h.2.1.numMsgs⟩, h.2.2⟩
  case exit => exact ⟨⟨h.1.last, h.1.totBytes, h.1.numMsgs⟩, hq ▸ h.2⟩
  case exited | errExited => exact ⟨⟨h.1.last, h.1.totBytes, h.1.numMsgs⟩, h.2⟩

theorem reply_ne_nil (file : Option Bytes) : reply file ≠ [] := by
  cases file <;> simp [reply]

section local_

variable {pathname : Bytes} (h : LocalOk files pathname l)

include h

theorem LocalOk.childStep (hs : serveRequest files qbytes l = some l') :
    LocalOk files pathname l' ∧ l.child ≠ .notForked ∧ l'.child ≠ .notForked ∧ l'.pc = l.pc ∧
      l'.child.left (files pathname) + (l'.queue.getD []).length <
        l.child.left (files pathname) + (l.queue.getD []).length := by
  have hn : l.child ≠ .notForked ∧ l.child ≠ .ended := by
    refine ⟨fun hc => ?_, fun hc => ?_⟩ <;> simp [serveRequest, hc] at hs
  obtain ⟨hb, hq⟩ := (h.child.resolve_left hn.1).resolve_left hn.2
  obtain ⟨q, hq⟩ := Option.isSome_iff_exists.mp hq
  obtain ⟨q', ch, rfl, hstream, hch, hleft⟩ := FileServer.childStep hq hb hs
  refine ⟨⟨?_, ?_, ?_⟩, hn.1, ?_, rfl, by simpa [hq] using hleft⟩
  · have hc := h.client
    refine hc.frame (fun hp => ?_) (fun hp => ?_) (by rw [hq]; rfl) ch <;>
      simp only [ClientOk, hp] at hc <;> exact hn.1 hc.2.2
  · simpa [hq, hstream] using h.stream
  · exact .inr (hch.symm.imp_right fun hb => ⟨hb, rfl⟩)
  · rcases hch with hb | rfl
    · rintro rfl
      exact hb
    · simp

theorem LocalOk.complete (hc : Counted l) (hm : l.mtype ≠ .data) :
    l.got = reply (files pathname) ∧ l.queue.getD [] = [] ∧ l.child = .ended ∧
      (l.mtype = .eof ↔ (files pathname).isSome) := by
  obtain ⟨m, hl, hmt⟩ := hc.last
  obtain ⟨hrest, hfile⟩ := complete_of_last h.stream hl (hmt ▸ hm)
  obtain ⟨hq, ht⟩ := List.append_eq_nil_iff.mp hrest
  refine ⟨by simpa [hrest] using h.stream, hq, ?_, hmt ▸ hfile⟩
  cases hch : l.child <;> simp [hch, todo, reply_ne_nil] at ht
  rfl

end local_

theorem LocalOk.recv {pathname : Bytes} (h : LocalOk files pathname l) {m : Response}
    {q : List Response} (hq : l.queue = some (m :: q)) (hgot : l'.got = l.got ++ [m])
    (hq' : l'.queue = some q) (hch : l'.child = l.child) (hc : ClientOk l') :
    LocalOk files pathname l' := by
  refine ⟨hc, ?_, ?_⟩
  · have := h.stream
    rw [hq] at this
    simpa [hgot, hq', hch] using this
  · rw [hch, hq']
    exact h.child.imp_right fun hb => hb.imp_right fun hb => ⟨hb.1, rfl⟩

theorem LocalOk.length_le {pathname : Bytes} (h : LocalOk files pathname l) {m : Response}
    {q : List Response} (hq : l.queue = some (m :: q)) : m.data.length ≤ RESP_MSG_SIZE := by
  have hmem : m ∈ reply (files pathname) := by
    rw [← h.stream, hq]
    simp
  exact length_le_of_mem_reply hmem

theorem counted_first {m : Response} (hm : m.data.length ≤ RESP_MSG_SIZE) (hgot : l.got = [m])
    (hmt : l.mtype = m.mtype) (ht : l.totBytes = m.data.length) (hn : l.numMsgs = 1) :
    Counted l := by
  unfold RESP_MSG_SIZE at hm
  refine ⟨⟨m, by simp [hgot], hmt.symm⟩, ?_, ?_⟩
  · rw [ht, hgot]
    simp only [List.map_cons, List.map_nil, List.sum_cons, List.sum_nil, Nat.add_zero]
    exact (toInt64_of_range (by omega) (by omega)).symm
  · rw [hn, hgot]
    exact (toInt32_of_range (x := 1) (by norm_num) (by norm_num)).symm

theorem Counted.next (h : Counted l) {m : Response} (hgot : l'.got = l.got ++ [m])
    (hmt : l'.mtype = m.mtype) (ht : l'.totBytes = toInt64 (l.totBytes + m.data.length))
    (hn : l'.numMsgs = toInt32 (l.numMsgs + 1)) : Counted l' := by
  refine ⟨⟨m, by simp [hgot], hmt.symm⟩, ?_, ?_⟩
  · rw [ht, h.totBytes, hgot]
    simp only [List.map_append, List.map_cons, List.map_nil, List.sum_append, List.sum_cons,
      List.sum_nil, Nat.add_zero, Nat.cast_add]
    exact Int.bmod_add_bmod
  · rw [hn, h.numMsgs, hgot, List.length_append, List.length_singleton, Nat.cast_add, Nat.cast_one]
    exact Int.bmod_add_bmod

/-- The client waits for its child to be forked. -/
def Waiting (l : Local) : Prop :=
  l.child = .notForked ∧ l.queue.isSome ∧ l.pc ≠ .create ∧ l.pc ≠ .send

def ClientPc.left : ClientPc → Nat
  | .create => 10
  | .send => 9
  | .first => 5
  | .loop => 4
  | .remove => 3
  | .exit => 1
  | .exited | .errExited | .killed => 0

/-- What a step of client `i` does to the server's queue: it adds its request, or nothing. -/
structure ClientStep (files : Bytes → Option Bytes) (path : ι → Bytes) (i : ι)
    (srv srv' : Server ι) (l l' : Local) : Prop where
  ok : LocalOk files (path i) l'
  child : l'.child = l.child
  waiting : Waiting l → Waiting l'
  cases : (l.pc = .send ∧ l'.pc = .first ∧ l'.queue.isSome ∧
      srv' = { srv with queue := srv.queue ++ [⟨i, path i⟩] } ∧
      l'.pc.left + (l'.queue.getD []).length + 3 ≤ l.pc.left + (l.queue.getD []).length) ∨
    (l.pc ≠ .send ∧ l'.pc ≠ .first ∧ srv' = srv ∧
      l'.pc.left + (l'.queue.getD []).length < l.pc.left + (l.queue.getD []).length)

omit [DecidableEq ι] in
theorem clientStep {srv srv' : Server ι} (h : LocalOk files (path i) l)
    (hs : clientMain path qbytes i srv l = some (srv', l')) :
    ClientStep files path i srv srv' l l' := by
  have hc := h.client
  have hst := h.stream
  unfold ClientOk at hc
  unfold clientMain at hs
  cases hpc : l.pc with
  | create =>
    simp only [hpc, Option.some.injEq, Prod.mk.injEq] at hs hc
    obtain ⟨rfl, rfl⟩ := hs
    refine ⟨⟨⟨rfl, hc.2.1, hc.2.2⟩, ?_, .inl hc.2.2⟩, rfl, fun hw => absurd hpc hw.2.2.1,
      .inr ⟨by simp [hpc], by simp, rfl, by simp [hpc, hc.1, ClientPc.left]⟩⟩
    simpa [hc.1] using hst
  | send =>
    simp only [hpc] at hs hc
    rcases Attempt.resume_eq_some.mp hs with ⟨he, -⟩ | ⟨q, he, hs⟩
    · exact absurd (msgsnd_error he) (by simp)
    · obtain ⟨q0, h0, rfl⟩ := msgsnd_eq_done he
      cases h0
      cases hs
      refine ⟨⟨⟨by simp [hc.1], hc.2.1⟩, hst, h.child⟩, rfl, fun hw => absurd hpc hw.2.2.2,
        .inl ⟨hpc, rfl, by simp [hc.1], rfl, ?_⟩⟩
      simp only [hpc, ClientPc.left]
      omega
  | first =>
    simp only [hpc] at hs hc
    rcases Attempt.resume_eq_some.mp hs with ⟨he, -⟩ | ⟨⟨m, q⟩, he, hs⟩
    · simp [msgrcv_error he] at hc
    · have hq := msgrcv_eq_done he
      cases hs
      have hcnt : Counted { l with
          queue := some q, got := l.got ++ [m], mtype := m.mtype
          pc := if m.mtype = .failure then .remove else .loop
          totBytes := m.data.length, numMsgs := 1 } :=
        counted_first (h.length_le hq) (by simp [hc.2]) rfl rfl rfl
      refine ⟨h.recv hq rfl rfl rfl ?_, rfl, fun hw => ⟨hw.1, rfl, ?_⟩,
        .inr ⟨by simp [hpc], ?_, rfl, ?_⟩⟩
      · by_cases hm : m.mtype = .failure
        · simp only [ClientOk, if_pos hm]
          exact ⟨rfl, by simpa [hm] using hcnt, hm⟩
        · simp only [ClientOk, if_neg hm]
          exact ⟨rfl, by simpa [hm] using hcnt, hm⟩
      · simp only
        split <;> simp
      · simp only
        split <;> simp
      · simp only [hpc, hq, Option.getD_some, List.length_cons]
        split <;> simp only [ClientPc.left] <;> omega
  | loop =>
    simp only [hpc] at hs hc
    by_cases hd : l.mtype = .data
    · rw [if_pos hd] at hs
      rcases Attempt.resume_eq_some.mp hs with ⟨he, -⟩ | ⟨⟨m, q⟩, he, hs⟩
      · simp [msgrcv_error he] at hc
      · have hq := msgrcv_eq_done he
        cases hs
        have hm : m.mtype ≠ .failure := fun hm => by
          obtain ⟨m0, hl, -⟩ := hc.2.1.last
          rw [hq] at hst
          have hgot := failure_first hst hm
          simp [hgot] at hl
        have hcnt : Counted { l with
            queue := some q, got := l.got ++ [m], mtype := m.mtype
            totBytes := toInt64 (l.totBytes + m.data.length)
            numMsgs := toInt32 (l.numMsgs + 1) } := hc.2.1.next rfl rfl rfl rfl
        refine ⟨h.recv hq rfl rfl rfl ?_, rfl, fun hw => ⟨hw.1, rfl, by simp, by simp⟩,
          .inr ⟨by simp [hpc], by simp, rfl, by simp [hpc, hq]⟩⟩
        simp only [ClientOk]
        exact ⟨rfl, by simpa [hpc] using hcnt, hm⟩
    · rw [if_neg hd] at hs
      cases hs
      obtain ⟨hq, hcnt, hf⟩ := hc
      have he : l.mtype = .eof := by cases hm : l.mtype <;> simp_all
      refine ⟨⟨⟨⟨hcnt.last, hcnt.totBytes, hcnt.numMsgs⟩, by simp [hq, he]⟩, hst, h.child⟩, rfl,
        fun hw => ⟨hw.1, hw.2.1, by simp, by simp⟩,
        .inr ⟨by simp [hpc], by simp, rfl, by simp [hpc, ClientPc.left]⟩⟩
  | remove =>
    simp only [hpc, Option.some.injEq, Prod.mk.injEq] at hs hc
    obtain ⟨rfl, rfl⟩ := hs
    obtain ⟨hq, hcnt, hf⟩ := hc
    obtain ⟨hgot, hq0, hch, -⟩ := h.complete hcnt (by simp [hf])
    refine ⟨⟨?_, ?_, .inr (.inl hch)⟩, rfl, fun hw => ?_,
      .inr ⟨by simp [hpc], by simp [hq], rfl, ?_⟩⟩
    · simp only [ClientOk, hq, if_true]
      exact ⟨⟨hcnt.last, hcnt.totBytes, hcnt.numMsgs⟩, hf⟩
    · simpa [hq0] using hst
    · exact absurd (hch.symm.trans hw.1) (by simp)
    · simp [hpc, hq, hq0, ClientPc.left]
  | exit =>
    simp only [hpc, Option.some.injEq, Prod.mk.injEq] at hs hc
    obtain ⟨rfl, rfl⟩ := hs
    obtain ⟨hcnt, hf⟩ := hc
    obtain ⟨hgot, hq0, hch, -⟩ := h.complete hcnt (by rw [hf]; split <;> simp)
    refine ⟨⟨?_, ?_, .inr (.inl hch)⟩, rfl, fun hw => ?_, .inr ⟨by simp [hpc], ?_, rfl, ?_⟩⟩
    · by_cases hq : l.queue.isSome
      · simp only [ClientOk, hq, if_true]
        exact ⟨⟨hcnt.last, hcnt.totBytes, hcnt.numMsgs⟩, by simpa [hq] using hf⟩
      · simp only [ClientOk, hq]
        exact ⟨⟨hcnt.last, hcnt.totBytes, hcnt.numMsgs⟩, by simpa [hq] using hf⟩
    · simpa [hq0] using hst
    · exact absurd (hch.symm.trans hw.1) (by simp)
    · simp only
      split <;> simp
    · simp only [hpc, hq0, Option.getD_none]
      split <;> simp [ClientPc.left]
  | exited | errExited | killed => simp [hpc] at hs

/-! ## The whole system -/

/-- Requests that have been sent and for which there is no child yet. -/
def Server.inFlight (srv : Server ι) : List (Request ι) := srv.req.toList ++ srv.queue

/-- What every step keeps. -/
structure Inv (files : Bytes → Option Bytes) (path : ι → Bytes) (c : Sys ι) : Prop where
  ok : ∀ i, LocalOk files (path i) (c.own i)
  nodup : (c.shared.inFlight.map Request.clientId).Nodup
  pending : ∀ r ∈ c.shared.inFlight,
    r.pathname = path r.clientId ∧ Waiting (c.own r.clientId)
  waits : ∀ i, (c.own i).pc = .first → (c.own i).child = .notForked →
    i ∈ c.shared.inFlight.map Request.clientId

omit [DecidableEq ι] in
theorem inv_start : Inv files path (start : Sys ι) where
  ok i := ⟨⟨rfl, rfl, rfl⟩, rfl, .inl rfl⟩
  nodup := .nil
  pending := by simp [start, Server.inFlight]
  waits := by simp [start]

theorem Inv.set (h : Inv files path c) (hl : LocalOk files (path i) l)
    (hw : Waiting (c.own i) → Waiting l)
    (hf : l.pc = .first → l.child = .notForked →
      (c.own i).pc = .first ∧ (c.own i).child = .notForked) :
    Inv files path (c.set i c.shared l) where
  ok := (c.forall_set i _ l (P := fun i l => LocalOk files (path i) l)).mpr ⟨hl, fun j _ => h.ok j⟩
  nodup := h.nodup
  pending r hr := by
    obtain ⟨hp, hq⟩ := h.pending r hr
    refine ⟨hp, ?_⟩
    rw [Conf.set_own]
    split
    · next hi => exact hw (hi ▸ hq)
    · exact hq
  waits j hj hch := by
    rw [Conf.set_own] at hj hch
    split at hj
    · next hi =>
      rw [if_pos hi] at hch
      obtain ⟨h1, h2⟩ := hf hj hch
      exact hi ▸ h.waits i h1 h2
    · next hi =>
      rw [if_neg hi] at hch
      exact h.waits j hj hch

theorem Inv.send (h : Inv files path c) (hpc : (c.own i).pc = .send)
    (hl : LocalOk files (path i) l) (hch : l.child = .notForked) (hq : l.queue.isSome)
    (hf : l.pc = .first) :
    Inv files path (c.set i { c.shared with queue := c.shared.queue ++ [⟨i, path i⟩] } l) := by
  have hin : ({ c.shared with queue := c.shared.queue ++ [⟨i, path i⟩] } : Server ι).inFlight =
      c.shared.inFlight ++ [⟨i, path i⟩] := (List.append_assoc ..).symm
  have hnew : ∀ r ∈ c.shared.inFlight, r.clientId ≠ i := fun r hr hi =>
    (h.pending r hr).2.2.2.2 (by rw [hi, hpc])
  refine ⟨(c.forall_set i _ l (P := fun i l => LocalOk files (path i) l)).mpr
    ⟨hl, fun j _ => h.ok j⟩, ?_, fun r hr => ?_, fun j hj hch => ?_⟩
  · rw [Conf.set_shared, hin, List.map_append, List.map_singleton, List.nodup_append]
    refine ⟨h.nodup, List.nodup_singleton _, fun a ha b hb => ?_⟩
    obtain ⟨r, hr, rfl⟩ := List.mem_map.mp ha
    rw [List.mem_singleton.mp hb]
    exact hnew r hr
  · rw [Conf.set_shared, hin, List.mem_append, List.mem_singleton] at hr
    rcases hr with hr | rfl
    · rw [c.set_own_of_ne _ _ (hnew r hr)]
      exact h.pending r hr
    · rw [Conf.set_own_self]
      exact ⟨rfl, hch, hq, by simp [hf], by simp [hf]⟩
  · rw [Conf.set_shared, hin, List.map_append, List.mem_append]
    by_cases hji : j = i
    · exact .inr (by simp [hji])
    · rw [c.set_own_of_ne _ _ hji] at hj hch
      exact .inl (h.waits j hj hch)

theorem Inv.server (h : Inv files path c) (hs : serverMain c = some c') : Inv files path c' := by
  unfold serverMain at hs
  cases hreq : c.shared.req with
  | none =>
    cases hqu : c.shared.queue with
    | nil => simp [hreq, hqu] at hs
    | cons req queue =>
      simp only [hreq, hqu, Option.some.injEq] at hs
      subst hs
      have hin : ({ queue, req := some req } : Server ι).inFlight = c.shared.inFlight := by
        simp [Server.inFlight, hreq, hqu]
      exact ⟨h.ok, by rw [hin]; exact h.nodup, by rw [hin]; exact h.pending,
        by rw [hin]; exact h.waits⟩
  | some req =>
    have hin : c.shared.inFlight = req :: c.shared.queue := by simp [Server.inFlight, hreq]
    obtain ⟨hpath, hch, hq, hp1, hp2⟩ := h.pending req (by simp [hin])
    have hnd := h.nodup
    rw [hin, List.map_cons, List.nodup_cons] at hnd
    simp only [hreq, hch, Option.some.injEq] at hs
    subst hs
    have hok := h.ok req.clientId
    refine ⟨(c.forall_set _ _ _ (P := fun i l => LocalOk files (path i) l)).mpr
      ⟨⟨?_, ?_, .inr (.inr ⟨hpath, hq⟩)⟩, fun j _ => h.ok j⟩, hnd.2, fun r hr => ?_,
        fun j hj hjc => ?_⟩
    · exact hok.client.frame hp1 hp2 rfl _
    · simpa [todo, hch, hpath] using hok.stream
    · have hne : r.clientId ≠ req.clientId := fun he => hnd.1 (he ▸ List.mem_map_of_mem hr)
      rw [c.set_own_of_ne _ _ hne]
      exact h.pending r (by rw [hin]; exact List.mem_cons_of_mem _ hr)
    · by_cases hji : j = req.clientId
      · subst hji
        simp at hjc
      · rw [c.set_own_of_ne _ _ hji] at hj hjc
        have := h.waits j hj hjc
        rw [hin, List.map_cons, List.mem_cons] at this
        exact this.resolve_left hji

theorem Inv.step {a : Act ι} (h : Inv files path c) (hs : Step files path qbytes c a c') :
    Inv files path c' := by
  cases a with
  | server => exact h.server hs
  | child i =>
    obtain ⟨l, hl, rfl⟩ := Option.map_eq_some_iff.mp hs
    obtain ⟨hok, hn, hn', hpc, -⟩ := (h.ok i).childStep hl
    exact h.set hok (fun hw => absurd hw.1 hn) fun _ hch => absurd hch hn'
  | client i =>
    obtain ⟨⟨srv, l⟩, hl, rfl⟩ := Option.map_eq_some_iff.mp hs
    obtain ⟨hok, hch, hw, ⟨hpc, hf, hq, rfl, -⟩ | ⟨hpc, hf, rfl, -⟩⟩ := clientStep (h.ok i) hl
    · refine h.send hpc hok ?_ hq hf
      have hc := (h.ok i).client
      simp only [ClientOk, hpc] at hc
      exact hch.trans hc.2.2
    · exact h.set hok hw fun hf' => absurd hf' hf
  | kill i =>
    obtain ⟨-, hs⟩ := Option.ite_none_left_eq_some.mp hs
    cases hs
    have hok := h.ok i
    exact h.set ⟨trivial, hok.stream, hok.child⟩ (fun hw => ⟨hw.1, hw.2.1, by simp, by simp⟩)
      (by simp)

/-! ## The clients come to their end -/

/-- Steps still to be made but for what is queued at the server. -/
def Local.left (file : Option Bytes) (l : Local) : Nat :=
  l.pc.left + l.child.left file + (l.queue.getD []).length

def Server.left (srv : Server ι) : Nat := 2 * srv.queue.length + srv.req.toList.length

def left [Fintype ι] (files : Bytes → Option Bytes) (path : ι → Bytes) (c : Sys ι) : Nat :=
  (c.total fun i l => l.left (files (path i))) + c.shared.left

theorem Inv.left_lt [Fintype ι] {a : Act ι} (h : Inv files path c)
    (hs : Step files path qbytes c a c') :
    left files path c' + 1 ≤ left files path c + if a.isKill then 1 else 0 := by
  cases a with
  | server =>
    have hs : serverMain c = some c' := hs
    unfold serverMain at hs
    cases hreq : c.shared.req with
    | none =>
      cases hqu : c.shared.queue with
      | nil => simp [hreq, hqu] at hs
      | cons req queue =>
        simp only [hreq, hqu, Option.some.injEq] at hs
        subst hs
        simp only [left, Server.left, hreq, hqu, Conf.total, Act.isKill, Option.toList_none,
          Option.toList_some, List.length_cons, List.length_nil, Bool.false_eq_true, if_false]
        omega
    | some req =>
      obtain ⟨hpath, hch, -, -, -⟩ := h.pending req (by simp [Server.inFlight, hreq])
      simp only [hreq, hch, Option.some.injEq] at hs
      subst hs
      have := c.total_set_lt (i := req.clientId) (s := { c.shared with req := none })
        (t := { c.own req.clientId with child := .opening req.pathname })
        (g := fun i l => l.left (files (path i))) (by simp [Local.left, Child.left, hch])
      dsimp only at this
      simp only [left, Conf.set_shared, Server.left, hreq, Act.isKill, Option.toList_none,
        Option.toList_some, List.length_cons, List.length_nil, Bool.false_eq_true, if_false]
      omega
  | child i =>
    obtain ⟨l, hl, rfl⟩ := Option.map_eq_some_iff.mp hs
    obtain ⟨-, -, -, hpc, hlt⟩ := (h.ok i).childStep hl
    have := c.total_set_lt (i := i) (s := c.shared) (t := l)
      (g := fun i l => l.left (files (path i))) (by simp only [Local.left, hpc]; omega)
    simp only [left, Conf.set_shared, Act.isKill, Bool.false_eq_true, if_false]
    omega
  | client i =>
    obtain ⟨⟨srv, l⟩, hl, rfl⟩ := Option.map_eq_some_iff.mp hs
    obtain ⟨-, hch, -, hcase⟩ := clientStep (h.ok i) hl
    have htot := c.total_set i srv l fun i l => l.left (files (path i))
    simp only [Local.left, hch] at htot
    simp only [left, Conf.set_shared, Local.left, Act.isKill, Bool.false_eq_true, if_false]
    rcases hcase with ⟨-, -, -, rfl, hle⟩ | ⟨-, -, rfl, hlt⟩
    · simp only [Server.left, List.length_append, List.length_singleton]
      omega
    · omega
  | kill i =>
    obtain ⟨-, hs⟩ := Option.ite_none_left_eq_some.mp hs
    cases hs
    have htot := c.total_set i c.shared { c.own i with pc := .killed }
      fun i l => l.left (files (path i))
    have hk : ClientPc.killed.left = 0 := rfl
    simp only [Local.left] at htot
    simp only [left, Conf.set_shared, Local.left, Act.isKill, if_true]
    omega

theorem Inv.server_next (h : Inv files path c) (hne : c.shared.inFlight ≠ []) :
    ∃ c', Step files path qbytes c .server c' := by
  suffices (serverMain c).isSome from Option.isSome_iff_exists.mp this
  unfold serverMain
  cases hreq : c.shared.req with
  | none =>
    cases hqu : c.shared.queue with
    | nil => simp [Server.inFlight, hreq, hqu] at hne
    | cons req queue => rfl
  | some req =>
    obtain ⟨-, hch, -⟩ := h.pending req (by simp [Server.inFlight, hreq])
    simp [hch]

theorem child_next (hq : RESP_MSG_SIZE ≤ qbytes) (hok : LocalOk files (path i) (c.own i))
    (hb : (c.own i).child.Busy (path i)) (hqu : (c.own i).queue = some []) :
    ∃ c', Step files path qbytes c (.child i) c' := by
  suffices (serveRequest files qbytes (c.own i)).isSome by
    obtain ⟨l, hl⟩ := Option.isSome_iff_exists.mp this
    exact ⟨_, Option.map_eq_some_iff.mpr ⟨l, hl, rfl⟩⟩
  have hsend : ∀ {m done fail}, m ∈ reply (files (path i)) →
      (sendResponse qbytes (c.own i) m done fail).isSome := fun hm => by
    have hle := length_le_of_mem_reply hm
    have hroom : ∀ {m : Response}, m.data.length ≤ RESP_MSG_SIZE →
        Room (fun m => m.data.length) qbytes [] m := fun hle =>
      room_nil (hle.trans hq) (lt_of_lt_of_le (by decide) hq)
    simp [sendResponse, hqu, msgsnd, hroom hle, Attempt.resume]
  have hst := hok.stream
  unfold serveRequest
  cases hch : (c.own i).child with
  | notForked | ended => simp [hch, Child.Busy] at hb
  | opening | read => rfl
  | sendFailure | send | sendEnd => exact hsend (by rw [← hst]; simp [hch, todo, reply])

theorem Inv.next (hq : RESP_MSG_SIZE ≤ qbytes) (h : Inv files path c) :
    Finished c ∨ ∃ a c', Step files path qbytes c a c' ∧ a.isKill = false := by
  by_cases hf : Finished c
  · exact .inl hf
  refine .inr ?_
  simp only [Finished, not_forall] at hf
  obtain ⟨i, hi⟩ := hf
  have hok := h.ok i
  have hc := hok.client
  have hst := hok.stream
  have hclient : (clientMain path qbytes i c.shared (c.own i)).isSome →
      ∃ a c', Step files path qbytes c a c' ∧ a.isKill = false := fun hs => by
    obtain ⟨r, hr⟩ := Option.isSome_iff_exists.mp hs
    exact ⟨.client i, _, Option.map_eq_some_iff.mpr ⟨r, hr, rfl⟩, rfl⟩
  have hserver : c.shared.inFlight ≠ [] →
      ∃ a c', Step files path qbytes c a c' ∧ a.isKill = false := fun hne => by
    obtain ⟨c', hs⟩ := h.server_next hne
    exact ⟨.server, c', hs, rfl⟩
  -- a client that waits for a message: there is one, or its child is at work on it, or still to be
  -- forked
  have hwait : (c.own i).pc = .first ∨ (c.own i).pc = .loop ∧ (c.own i).mtype = .data →
      (c.own i).queue.isSome → ∃ a c', Step files path qbytes c a c' ∧ a.isKill = false := by
    intro hp hqs
    obtain ⟨q, hqu⟩ := Option.isSome_iff_exists.mp hqs
    cases q with
    | cons m q =>
      refine hclient ?_
      unfold clientMain
      rcases hp with hp | ⟨hp, hd⟩ <;> simp [*, msgrcv, Attempt.resume]
    | nil =>
      rcases hok.child with hch | hch | ⟨hb, -⟩
      · rcases hp with hp | ⟨hp, -⟩
        · exact hserver fun hn => by simpa [hn] using h.waits i hp hch
        · have hgot : (c.own i).got = [] := by simpa [hqu, hch, todo] using hst
          simp only [ClientOk, hp] at hc
          obtain ⟨m, hl, -⟩ := hc.2.1.last
          simp [hgot] at hl
      · have hgot : (c.own i).got = reply (files (path i)) := by simpa [hqu, hch, todo] using hst
        obtain ⟨ds, m, he, -, hm, -⟩ := reply_eq (files (path i))
        rcases hp with hp | ⟨hp, hd⟩ <;> simp only [ClientOk, hp] at hc
        · simp [hgot, he] at hc
        · obtain ⟨m', hl, hmt⟩ := hc.2.1.last
          rw [hgot, he, List.getLast?_concat, Option.some.injEq] at hl
          exact absurd (hl ▸ hmt.trans hd) hm
      · obtain ⟨c', hs⟩ := child_next hq hok hb hqu
        exact ⟨.child i, c', hs, rfl⟩
  unfold ClientOk at hc
  cases hpc : (c.own i).pc with
  | create => exact hclient (by simp [clientMain, hpc])
  | send =>
    by_cases hroom : Room (fun _ => REQ_MSG_SIZE) qbytes c.shared.queue ⟨i, path i⟩
    · exact hclient (by simp [clientMain, hpc, msgsnd, hroom, Attempt.resume])
    · refine hserver fun hn => hroom ?_
      rw [(List.append_eq_nil_iff.mp hn).2]
      exact room_nil (le_trans (by decide) hq) (lt_of_lt_of_le (by decide) hq)
  | first => exact hwait (.inl hpc) (by simp only [hpc] at hc; exact hc.1)
  | loop =>
    simp only [hpc] at hc
    by_cases hd : (c.own i).mtype = .data
    · exact hwait (.inr ⟨hpc, hd⟩) hc.1
    · exact hclient (by simp [clientMain, hpc, hd])
  | remove | exit => exact hclient (by simp [clientMain, hpc])
  | exited | errExited | killed => simp [ClientPc.Final, hpc] at hi

/-- **The file server**: with room for one message in a queue no interleaving keeps a client that is
not killed from its end. What a client has received is always a prefix of the reply to its own
request. One that exits has received the file, counted its bytes, and one message for each
`RESP_MSG_SIZE` of them or part of it, and the end message. One whose file cannot be opened has
received the failure message alone; it removes its queue twice, so that it ends in `errExit`. -/
theorem file_server_correct [Fintype ι] (files : Bytes → Option Bytes) (path : ι → Bytes)
    (hq : RESP_MSG_SIZE ≤ qbytes) :
    EndsUpTo (Step files path qbytes) Act.isKill (start : Sys ι) Finished ∧
      ∀ as c, Run (Step files path qbytes) (start : Sys ι) as c → ∀ i,
        (c.own i).got <+: reply (files (path i)) ∧
        ((c.own i).pc = .exited → ∃ content, files (path i) = some content ∧
          ((c.own i).got.map Response.data).flatten = content ∧
          (c.own i).totBytes = toInt64 content.length ∧
          (c.own i).numMsgs = toInt32 ((content.length + 8191) / 8192 + 1 : Nat)) ∧
        ((c.own i).pc = .errExited → files (path i) = none ∧
          (c.own i).got = [⟨.failure, couldntOpen⟩]) := by
  refine ⟨EndsUpTo.of_measure (μ := left files path) 0
    (fun c a c' h hs => ⟨h.step hs, h.left_lt hs⟩)
    (fun c h => h.next hq) inv_start, fun as c hr i => ?_⟩
  have hok := (hr.invariant (fun c a c' (h : Inv files path c) hs => h.step hs) inv_start).ok i
  have hc := hok.client
  refine ⟨⟨_, hok.stream⟩, fun hpc => ?_, fun hpc => ?_⟩ <;> simp only [ClientOk, hpc] at hc <;>
    obtain ⟨hcnt, hm⟩ := hc <;>
    obtain ⟨hgot, -, -, hfile⟩ := hok.complete hcnt (by simp [hm])
  · obtain ⟨content, hf⟩ := Option.isSome_iff_exists.mp (hfile.mp hm)
    have hdata : ((c.own i).got.map Response.data).flatten = content := by
      rw [hgot, hf]
      simp [reply, Function.comp_def, flatten_chunks]
    refine ⟨content, hf, hdata, ?_, ?_⟩
    · rw [hcnt.totBytes, ← hdata, List.length_flatten, List.map_map]
      rfl
    · rw [hcnt.numMsgs, hgot, hf]
      simp [reply, length_chunks]
  · have hf : files (path i) = none := by
      cases hf : files (path i) with
      | none => rfl
      | some content => simp [hf, hm] at hfile
    exact ⟨hf, by rw [hgot, hf]; rfl⟩

/-- One client and a file of two bytes, with queues of the default size. -/
theorem file_server_one : ∃ as c,
    Run (Step (fun _ => some [72, 105]) (fun _ => [120]) 16384) (start : Sys Unit) as c ∧
      (c.own ()).pc = .exited ∧ ((c.own ()).got.map Response.data).flatten = [72, 105] := by
  have hrun : (execAll (exec (fun _ => some [72, 105]) (fun _ => [120]) 16384) (start : Sys Unit)
      [.client (), .client (), .server, .server, .child (), .child (), .child (), .child (),
        .child (), .client (), .client (), .client (), .client ()]).map (fun c => (c.own ()).pc) =
      some .exited := by decide
  obtain ⟨c, hc, hpc⟩ := Option.map_eq_some_iff.mp hrun
  have hr : Run (Step (fun _ => some [72, 105]) (fun _ => [120]) 16384) start _ c :=
    Run.of_execAll (fun _ _ _ h => h) hc
  obtain ⟨content, hf, hdata, -⟩ := ((file_server_correct (fun _ => some [72, 105]) (fun _ => [120])
    (by decide)).2 _ c hr ()).2.1 hpc
  cases hf
  exact ⟨_, c, hr, hpc, hdata⟩

end Tlpi.FileServer
