import Tlpi.Lib.Lts
import Tlpi.Lib.Ipc

/-!
# Notification by a message queue

`tlpi-dist/pmsg/mq_notify_sig.c`, `tlpi-dist/pmsg/mq_notify_sigwaitinfo.c` and
`tlpi-dist/pmsg/mq_notify_thread.c`. A queue notifies the process that has registered when a message
arrives while it is empty, and the registration is then over. So the programs register again before
they read, and read until the queue is empty. In the first two `main` does this for one notification
after the other; in the third each notification is a thread of its own, and they run beside each
other. A run starts when the programs have registered for the first time.

There is always one registration, one notification on its way or one receiver that is about to
register again (`Inv.one`), so no `mq_notify` fails; and what is in the queue is about to be read
(`Inv.queue`), if the queue was empty to begin with. Otherwise nothing ever is
(`mq_notify_correct`).
-/

namespace Tlpi.MqNotify

open Tlpi.Lib

inductive Version where
  /-- `mq_notify_sig.c` and `mq_notify_sigwaitinfo.c`: a signal, which `main` waits for. -/
  | signal
  /-- `mq_notify_thread.c`: a new thread. -/
  | thread
  deriving DecidableEq

structure State (α : Type*) where
  queue : List α
  registered : Bool
  /-- Notifications on their way. -/
  pending : Nat
  /-- Receivers at `mq_notify`. -/
  notifying : Nat
  /-- Receivers at `mq_receive`. -/
  receiving : Nat
  /-- `errExit` -/
  failed : Bool
  received : List α
  sent : List α

inductive Act (α : Type*) where
  /-- A notification arrives. -/
  | notification
  | mqNotify
  | mqReceive
  /-- Somebody sends `m`. -/
  | send (m : α)

def Act.isSend {α : Type*} : Act α → Bool
  | .send _ => true
  | _ => false

variable {α : Type*} (prio : α → Nat) (v : Version)

/-- A signal that is pending already is not queued. -/
def Version.notify (pending : Nat) : Nat :=
  match v with
  | .signal => 1
  | .thread => pending + 1

/-- `main` takes one notification after the other. -/
def Version.Takes (s : State α) : Prop :=
  v = .thread ∨ (s.notifying = 0 ∧ s.receiving = 0)

instance (s : State α) : Decidable (v.Takes s) := inferInstanceAs (Decidable (_ ∨ _))

def exec (s : State α) : Act α → Option (State α)
  | .notification =>
    if 0 < s.pending ∧ v.Takes s ∧ s.failed = false then
      some { s with pending := s.pending - 1, notifying := s.notifying + 1 }
    else none
  | .mqNotify =>
    if 0 < s.notifying ∧ s.failed = false then
      if s.registered then some { s with failed := true }
      else some { s with
        registered := true, notifying := s.notifying - 1, receiving := s.receiving + 1 }
    else none
  | .mqReceive =>
    if 0 < s.receiving ∧ s.failed = false then
      match s.queue with
      | [] => some { s with receiving := s.receiving - 1 }
      | m :: q => some { s with queue := q, received := s.received ++ [m] }
    else none
  | .send m =>
    let t := { s with queue := mqSend prio m s.queue, sent := s.sent ++ [m] }
    if s.queue = [] ∧ s.registered then
      some { t with registered := false, pending := v.notify s.pending }
    else some t

def Step (s : State α) (a : Act α) (t : State α) : Prop := exec prio v s a = some t

/-- Registered, with `queue` already there. -/
def start (queue : List α) : State α where
  queue := queue
  registered := true
  pending := 0
  notifying := 0
  receiving := 0
  failed := false
  received := []
  sent := queue

/-- Nothing is left to be read, and the programs wait for a notification. -/
def Idle (s : State α) : Prop :=
  s.queue = [] ∧ s.registered = true ∧ s.pending = 0 ∧ s.notifying = 0 ∧ s.receiving = 0

/-! ## What every step keeps -/

variable {prio v} {s t : State α}

/-- Every message sent is in the queue or has been received, once, and in each priority in the order
they were sent. -/
structure Delivered (prio : α → Nat) (s : State α) : Prop where
  inOrder : InOrder prio s.queue
  filter : ∀ p, (s.received ++ s.queue).filter (prio · = p) = s.sent.filter (prio · = p)

structure Inv (prio : α → Nat) (s : State α) : Prop where
  delivered : Delivered prio s
  failed : s.failed = false
  one : (if s.registered then 1 else 0) + s.pending + s.notifying = 1
  queue : s.registered = true → s.queue ≠ [] → 0 < s.receiving

theorem inv_start (prio : α → Nat) : Inv prio (start []) where
  delivered := ⟨.nil, fun _ => rfl⟩
  failed := rfl
  one := rfl
  queue _ h := absurd rfl h

/-- The steps, one constructor for each. -/
inductive SysStep (prio : α → Nat) (v : Version) (s : State α) : Act α → State α → Prop where
  | notification (hp : 0 < s.pending) :
      SysStep prio v s .notification
        { s with pending := s.pending - 1, notifying := s.notifying + 1 }
  | busy (hn : 0 < s.notifying) (hr : s.registered = true) :
      SysStep prio v s .mqNotify { s with failed := true }
  | register (hn : 0 < s.notifying) (hr : s.registered = false) :
      SysStep prio v s .mqNotify { s with
        registered := true, notifying := s.notifying - 1, receiving := s.receiving + 1 }
  | empty (hr : 0 < s.receiving) (hq : s.queue = []) :
      SysStep prio v s .mqReceive { s with receiving := s.receiving - 1 }
  | receive {m : α} {q : List α} (hr : 0 < s.receiving) (hq : s.queue = m :: q) :
      SysStep prio v s .mqReceive { s with queue := q, received := s.received ++ [m] }
  | notify (m : α) (hq : s.queue = []) (hr : s.registered = true) :
      SysStep prio v s (.send m) { s with
        queue := mqSend prio m s.queue, sent := s.sent ++ [m], registered := false
        pending := v.notify s.pending }
  | send (m : α) (h : ¬ (s.queue = [] ∧ s.registered = true)) :
      SysStep prio v s (.send m) { s with queue := mqSend prio m s.queue, sent := s.sent ++ [m] }

theorem sysStep {a : Act α} (h : Step prio v s a t) : SysStep prio v s a t := by
  cases a with
  | notification =>
    obtain ⟨⟨hp, -⟩, h⟩ := Option.ite_none_right_eq_some.mp h
    cases h
    exact .notification hp
  | mqNotify =>
    obtain ⟨⟨hn, -⟩, h⟩ := Option.ite_none_right_eq_some.mp h
    split at h <;> cases h
    · exact .busy hn ‹_›
    · exact .register hn (by simpa using ‹¬ s.registered = true›)
  | mqReceive =>
    obtain ⟨⟨hr, -⟩, h⟩ := Option.ite_none_right_eq_some.mp h
    split at h <;> cases h
    · exact .empty hr ‹_›
    · exact .receive hr ‹_›
  | send m =>
    simp only [Step, exec] at h
    split at h <;> cases h
    · next hc => exact .notify m hc.1 hc.2
    · exact .send m ‹_›

theorem Delivered.send (h : Delivered prio s) (m : α) :
    Delivered prio { s with queue := mqSend prio m s.queue, sent := s.sent ++ [m] } where
  inOrder := h.inOrder.mqSend m
  filter p := by
    have := h.filter p
    simp only [List.filter_append] at this ⊢
    rw [filter_mqSend h.inOrder, ← List.append_assoc, this]

theorem Inv.step {a : Act α} (h : Inv prio s) (hs : Step prio v s a t) : Inv prio t := by
  have hone := h.one
  cases sysStep hs with
  | notification hp =>
    refine ⟨⟨h.delivered.inOrder, h.delivered.filter⟩, h.failed, ?_, h.queue⟩
    simp only
    omega
  | busy hn hr =>
    rw [if_pos hr] at hone
    omega
  | register hn hr =>
    refine ⟨⟨h.delivered.inOrder, h.delivered.filter⟩, h.failed, ?_, fun _ _ => Nat.succ_pos _⟩
    simp only [hr, Bool.false_eq_true, if_false] at hone
    simp only [if_true]
    omega
  | empty hr hq =>
    exact ⟨⟨h.delivered.inOrder, h.delivered.filter⟩, h.failed, h.one, fun _ hne => absurd hq hne⟩
  | @receive m q hr hq =>
    refine ⟨⟨?_, fun p => ?_⟩, h.failed, h.one, fun _ _ => hr⟩
    · have := h.delivered.inOrder
      rw [hq] at this
      exact this.of_cons
    · have := h.delivered.filter p
      rw [hq] at this
      rw [← this, List.append_assoc]
      rfl
  | notify m hq hr =>
    rw [if_pos hr] at hone
    have hv : v.notify s.pending = 1 := by
      cases v with
      | signal => rfl
      | thread =>
        simp only [Version.notify]
        omega
    have hd := h.delivered.send m
    refine ⟨⟨hd.inOrder, hd.filter⟩, h.failed, ?_, fun hr => by simp at hr⟩
    simp only [hv, Bool.false_eq_true, if_false]
    omega
  | send m hn =>
    have hd := h.delivered.send m
    refine ⟨⟨hd.inOrder, hd.filter⟩, h.failed, h.one, fun hr _ => ?_⟩
    exact h.queue hr fun hq => hn ⟨hq, hr⟩

/-! ## What is sent is read -/

/-- Steps of the programs until they wait for a notification. -/
def left (s : State α) : Nat :=
  2 * s.queue.length + 4 * s.pending + 3 * s.notifying + s.receiving

theorem Inv.left_lt {a : Act α} (h : Inv prio s) (hs : Step prio v s a t) :
    left t + 1 ≤ left s + if a.isSend then 7 else 0 := by
  cases sysStep hs with
  | notification hp => simp only [left, Act.isSend]; omega
  | busy hn hr =>
    have := h.one
    rw [if_pos hr] at this
    omega
  | register hn hr => simp only [left, Act.isSend]; omega
  | empty hr hq => simp only [left, Act.isSend]; omega
  | receive hr hq => simp only [left, Act.isSend, hq, List.length_cons]; omega
  | notify m hq hr =>
    have hv : v.notify s.pending ≤ s.pending + 1 := by
      cases v <;> simp [Version.notify]
    simp only [left, Act.isSend, length_mqSend, if_true]
    omega
  | send m hn => simp only [left, Act.isSend, length_mqSend, if_true]; omega

theorem Inv.next (h : Inv prio s) : Idle s ∨ ∃ a t, Step prio v s a t ∧ a.isSend = false := by
  by_cases hr : 0 < s.receiving
  · refine .inr ⟨.mqReceive, ?_⟩
    simp only [Step, exec, hr, h.failed, true_and, if_true]
    cases s.queue <;> exact ⟨_, rfl, rfl⟩
  by_cases hn : 0 < s.notifying
  · refine .inr ⟨.mqNotify, ?_⟩
    simp only [Step, exec, hn, h.failed, true_and, if_true]
    cases s.registered <;> exact ⟨_, rfl, rfl⟩
  have h0 : s.notifying = 0 ∧ s.receiving = 0 := by omega
  by_cases hp : 0 < s.pending
  · exact .inr ⟨.notification, _, if_pos ⟨hp, .inr h0, h.failed⟩, rfl⟩
  · have hone := h.one
    have hreg : s.registered = true := by
      by_contra hreg
      rw [if_neg hreg] at hone
      omega
    have hq : s.queue = [] := by
      by_contra hq
      exact hr (h.queue hreg hq)
    exact .inl ⟨hq, hreg, by omega, h0.1, h0.2⟩

/-- Nobody is notified while the queue is not empty. -/
def Unnoticed (s : State α) : Prop :=
  s.queue ≠ [] ∧ s.pending = 0 ∧ s.notifying = 0 ∧ s.receiving = 0 ∧ s.received = []

theorem Unnoticed.step {a : Act α} (h : Unnoticed s) (hs : Step prio v s a t) : Unnoticed t := by
  obtain ⟨hq, hp, hn, hr, hrec⟩ := h
  cases sysStep hs with
  | send m => exact ⟨mqSend_ne_nil m _, hp, hn, hr, hrec⟩
  | notify m hq' => exact absurd hq' hq
  | notification | busy | register | empty | receive => omega

/-- **Nothing is lost or read twice**: when the queue is empty at the first registration, every
message that is sent is read, in the order of its priority, and no `mq_notify` fails; no
interleaving with the senders leaves one behind. If there is a message at that time, no message is
ever read. -/
theorem mq_notify_correct (prio : α → Nat) (v : Version) (queue : List α) :
    (queue = [] → ∀ t, Reaches (Step prio v) (start queue) t → t.failed = false ∧
      (∀ p, (t.received ++ t.queue).filter (prio · = p) = t.sent.filter (prio · = p)) ∧
      EndsUpTo (Step prio v) Act.isSend t Idle) ∧
    (queue ≠ [] → ∀ t, Reaches (Step prio v) (start queue) t → t.received = []) := by
  refine ⟨?_, fun hq t ⟨as, hr⟩ => ?_⟩
  · rintro rfl t ⟨as, hr⟩
    have h : Inv prio t := hr.invariant (fun _ _ _ h hs => h.step hs) (inv_start prio)
    refine ⟨h.failed, h.delivered.filter, EndsUpTo.of_measure (I := Inv prio) (μ := left) 6
      (fun s a t h (hs : Step prio v s a t) => ⟨h.step hs, h.left_lt hs⟩) (fun s h => h.next) h⟩
  · have h : Unnoticed t := hr.invariant (fun _ _ _ h hs => h.step hs) ⟨hq, rfl, rfl, rfl, rfl⟩
    exact h.2.2.2.2

end Tlpi.MqNotify
