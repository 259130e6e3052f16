import Mathlib

/-!
# Calls that block, and message queues

`Attempt` is what a call that may block does when it is made: nothing yet, fail, or return. A
message queue is the list of its messages, or nothing once it has been removed; `msgsnd` blocks
while the bytes in the queue leave no room for another message, `msgrcv` while there is no
message. A queue with priorities keeps the messages of the highest priority in front, and those of
one priority in the order they came in (`mqSend`, `filter_mqSend`).
-/

namespace Tlpi.Lib

variable {α β : Type*}

inductive Attempt (α : Type*) where
  | blocks
  | error
  | done (a : α)

/-- How the caller goes on. -/
def Attempt.resume (r : Attempt α) (done : α → β) (fail : β) : Option β :=
  match r with
  | .blocks => none
  | .error => some fail
  | .done a => some (done a)

theorem Attempt.resume_eq_some {r : Attempt α} {done : α → β} {fail b : β} :
    r.resume done fail = some b ↔ (r = .error ∧ b = fail) ∨ ∃ a, r = .done a ∧ b = done a := by
  cases r <;> simp [resume, eq_comm]

/-! ## Message queues -/

/-- A queue that may hold `qbytes` bytes has room for `m`. -/
def Room (size : α → Nat) (qbytes : Nat) (q : List α) (m : α) : Prop :=
  (q.map size).sum + size m ≤ qbytes ∧ q.length + 1 ≤ qbytes

instance (size : α → Nat) (qbytes : Nat) (q : List α) (m : α) :
    Decidable (Room size qbytes q m) := inferInstanceAs (Decidable (_ ∧ _))

theorem room_nil {size : α → Nat} {qbytes : Nat} {m : α} (h : size m ≤ qbytes) (h0 : 0 < qbytes) :
    Room size qbytes [] m := ⟨by simpa using h, h0⟩

def msgsnd (size : α → Nat) (qbytes : Nat) (q : Option (List α)) (m : α) : Attempt (List α) :=
  match q with
  | none => .error
  | some q => if Room size qbytes q m then .done (q ++ [m]) else .blocks

def msgrcv (q : Option (List α)) : Attempt (α × List α) :=
  match q with
  | none => .error
  | some [] => .blocks
  | some (m :: q) => .done (m, q)

theorem msgsnd_eq_done {size : α → Nat} {qbytes : Nat} {q : Option (List α)} {m : α}
    {q' : List α} (h : msgsnd size qbytes q m = .done q') : ∃ q0, q = some q0 ∧ q' = q0 ++ [m] := by
  cases q with
  | none => cases h
  | some q0 =>
    simp only [msgsnd] at h
    split at h
    · cases h
      exact ⟨q0, rfl, rfl⟩
    · cases h

theorem msgrcv_eq_done {q : Option (List α)} {m : α} {q' : List α}
    (h : msgrcv q = .done (m, q')) : q = some (m :: q') := by
  match q with
  | some (_ :: _) => cases h; rfl

theorem msgsnd_error {size : α → Nat} {qbytes : Nat} {q : Option (List α)} {m : α}
    (h : msgsnd size qbytes q m = .error) : q = none := by
  cases q with
  | none => rfl
  | some q =>
    simp only [msgsnd] at h
    split at h <;> cases h

theorem msgrcv_error {q : Option (List α)} (h : msgrcv q = .error) : q = none := by
  match q with
  | none => rfl
  | some [] | some (_ :: _) => cases h

/-! ## Queues with priorities -/

section priorities

variable (prio : α → Nat)

/-- `m` goes before the first message of a lower priority. -/
def mqSend (m : α) : List α → List α
  | [] => [m]
  | x :: q => if prio x < prio m then m :: x :: q else x :: mqSend m q

/-- The messages are in order. -/
def InOrder (q : List α) : Prop := q.Pairwise fun x y => prio y ≤ prio x

variable {prio}

theorem mqSend_ne_nil (m : α) (q : List α) : mqSend prio m q ≠ [] := by
  cases q with
  | nil => simp [mqSend]
  | cons x q =>
    simp only [mqSend]
    split <;> simp

theorem length_mqSend (m : α) (q : List α) : (mqSend prio m q).length = q.length + 1 := by
  induction q with
  | nil => rfl
  | cons x q ih =>
    simp only [mqSend]
    split <;> simp [ih]

theorem mem_mqSend {m x : α} {q : List α} (h : x ∈ mqSend prio m q) : x = m ∨ x ∈ q := by
  induction q with
  | nil => simpa [mqSend] using h
  | cons y q ih =>
    simp only [mqSend] at h
    split at h
    · simpa using h
    · rcases List.mem_cons.mp h with rfl | h
      · simp
      · exact (ih h).imp_right (List.mem_cons_of_mem _)

theorem InOrder.mqSend {q : List α} (h : InOrder prio q) (m : α) :
    InOrder prio (mqSend prio m q) := by
  induction q with
  | nil => simp [InOrder, Lib.mqSend]
  | cons x q ih =>
    obtain ⟨hx, hq⟩ := List.pairwise_cons.mp h
    simp only [Lib.mqSend]
    split
    · next hlt =>
      refine List.pairwise_cons.mpr ⟨fun y hy => ?_, h⟩
      rcases List.mem_cons.mp hy with rfl | hy
      · exact hlt.le
      · exact (hx y hy).trans hlt.le
    · next hle =>
      refine List.pairwise_cons.mpr ⟨fun y hy => ?_, ih hq⟩
      rcases mem_mqSend hy with rfl | hy
      · exact not_lt.mp hle
      · exact hx y hy

/-- **In one priority, first in, first out.** -/
theorem filter_mqSend {q : List α} (h : InOrder prio q) (m : α) (p : Nat) :
    (mqSend prio m q).filter (prio · = p) = q.filter (prio · = p) ++ [m].filter (prio · = p) := by
  induction q with
  | nil => rfl
  | cons x q ih =>
    obtain ⟨hx, hq⟩ := List.pairwise_cons.mp h
    simp only [mqSend]
    split
    · next hlt =>
      by_cases hm : prio m = p
      · -- whatever stands behind `m` has a lower priority
        have hnone : (x :: q).filter (prio · = p) = [] := by
          rw [List.filter_eq_nil_iff]
          intro y hy
          have : prio y ≤ prio x := by
            rcases List.mem_cons.mp hy with rfl | hy
            · exact le_rfl
            · exact hx y hy
          simp only [decide_eq_true_eq]
          omega
        rw [List.filter_cons_of_pos (by simpa using hm), hnone]
        simp [hm]
      · simp [hm]
    · rw [List.filter_cons, List.filter_cons, ih hq]
      split <;> simp

end priorities

end Tlpi.Lib
