import Tlpi.Lib.FdTable

/-!
# `dup` and `dup2`

`05-file-io-further-details/dup.c` makes both out of `fcntl` and `close`. `F_DUPFD` promises only
the lowest free descriptor from its argument on, so that `dup2` has to free `newfd` first; what it
takes then is `newfd` itself (`dup2_succeeds`). But `newfd` has been closed by the time that
`F_DUPFD` may refuse it, which it does when the limit has been lowered below it
(`dup2_failure_iff`).
-/

namespace Tlpi.Dup

open Tlpi.Lib

/-- `dup(oldfd)`; an error is the return value -1, with `errno`. -/
def dup (oldfd : Int) (t : FdTable) : Except Errno Int × FdTable :=
  match t.getFd oldfd with
  | .error _ => (.error .EBADF, t)
  | .ok _ => t.dupFd oldfd 0

/-- `dup2(oldfd, newfd)`; the return code of `close` is not looked at. -/
def dup2 (oldfd newfd : Int) (t : FdTable) : Except Errno Int × FdTable :=
  match t.getFd oldfd with
  | .error _ => (.error .EBADF, t)
  | .ok _ =>
    if oldfd = newfd then (.ok newfd, t)
    else
      match t.getFd newfd with
      | .error errno => if errno ≠ .EBADF then (.error errno, t) else t.dupFd oldfd newfd
      | .ok _ => (t.close newfd).2.dupFd oldfd newfd

variable {t : FdTable} {oldfd newfd : Int}

/-- **`dup` takes the lowest free descriptor.** -/
theorem dup_lowest {n : Int} (h : (dup oldfd t).1 = .ok n) :
    n < t.limit ∧ t.desc n = none ∧ (∀ x, 0 ≤ x → x < n → t.IsOpen x) ∧
      ∃ d, t.desc oldfd = some d ∧
        (dup oldfd t).2.desc = Function.update t.desc n
          (some { description := d.description, cloexec := false }) := by
  by_cases hold : t.IsOpen oldfd
  · obtain ⟨flag, hflag⟩ := FdTable.getFd_open hold
    have hdup : dup oldfd t = t.dupFd oldfd 0 := by rw [dup, hflag]
    rw [hdup] at h ⊢
    exact (FdTable.dupFd_ok h).2
  · rw [dup, FdTable.getFd_closed hold] at h
    cases h

/-! ## The cases of `dup2` -/

theorem dup2_bad (hold : ¬ t.IsOpen oldfd) : dup2 oldfd newfd t = (.error .EBADF, t) := by
  rw [dup2, FdTable.getFd_closed hold]

theorem dup2_same (hold : t.IsOpen oldfd) : dup2 oldfd oldfd t = (.ok oldfd, t) := by
  obtain ⟨flag, hflag⟩ := FdTable.getFd_open hold
  rw [dup2, hflag]
  exact if_pos rfl

/-- The table that `F_DUPFD` is called on: `newfd` is not open in it. -/
def freed (newfd : Int) (t : FdTable) : FdTable := if t.IsOpen newfd then t.remove newfd else t

theorem freed_limit : (freed newfd t).limit = t.limit := by
  unfold freed
  split <;> rfl

theorem freed_self : (freed newfd t).desc newfd = none := by
  unfold freed
  split
  · exact FdTable.remove_self
  · next hclosed => exact not_not.mp hclosed

theorem freed_other {fd : Int} (h : fd ≠ newfd) : (freed newfd t).desc fd = t.desc fd := by
  unfold freed
  split
  · exact FdTable.remove_other h
  · rfl

theorem dup2_other (hold : t.IsOpen oldfd) (hne : oldfd ≠ newfd) :
    dup2 oldfd newfd t = (freed newfd t).dupFd oldfd newfd := by
  obtain ⟨flag, hflag⟩ := FdTable.getFd_open hold
  rw [dup2, hflag]
  dsimp only
  rw [if_neg hne]
  by_cases hnew : t.IsOpen newfd
  · obtain ⟨flag', hflag'⟩ := FdTable.getFd_open hnew
    rw [hflag', freed, if_pos hnew]
    dsimp only
    rw [FdTable.close_open hnew]
  · rw [FdTable.getFd_closed hnew, freed, if_neg hnew]
    rfl

theorem dup2_inside {d : Desc} (hd : t.desc oldfd = some d) (hne : oldfd ≠ newfd)
    (h0 : 0 ≤ newfd) (hlt : newfd < t.limit) :
    dup2 oldfd newfd t = (.ok newfd,
      (freed newfd t).insert newfd h0 { description := d.description, cloexec := false }) := by
  rw [dup2_other (FdTable.isOpen_iff.mpr ⟨d, hd⟩) hne]
  refine FdTable.dupFd_free ((freed_other hne).trans hd) h0 ?_ freed_self
  rwa [freed_limit]

theorem dup2_outside (hold : t.IsOpen oldfd) (hne : oldfd ≠ newfd)
    (h : ¬ (0 ≤ newfd ∧ newfd < t.limit)) :
    dup2 oldfd newfd t = (.error .EINVAL, freed newfd t) := by
  rw [dup2_other hold hne]
  refine FdTable.dupFd_outside ?_ (by rwa [freed_limit])
  rw [FdTable.IsOpen, freed_other hne]
  exact hold

/-! ## Success and failure -/

/-- The table after `newfd` has become a copy of `oldfd`. -/
structure Copied (oldfd newfd : Int) (t t' : FdTable) : Prop where
  copy : ∃ d, t.desc oldfd = some d ∧
    t'.desc newfd =
      some (if newfd = oldfd then d else { description := d.description, cloexec := false })
  other : ∀ fd, fd ≠ newfd → t'.desc fd = t.desc fd
  limit : t'.limit = t.limit

/-- **`dup2`, when it succeeds**: it does so exactly when `oldfd` is open and `newfd` is `oldfd` or
a descriptor below the limit; it returns `newfd`, which is then a copy of `oldfd`, and leaves the
other descriptors alone. -/
theorem dup2_succeeds (t : FdTable) (oldfd newfd : Int) :
    ((∃ n, (dup2 oldfd newfd t).1 = .ok n) ↔
      t.IsOpen oldfd ∧ (newfd = oldfd ∨ 0 ≤ newfd ∧ newfd < t.limit)) ∧
    ∀ n, (dup2 oldfd newfd t).1 = .ok n →
      n = newfd ∧ Copied oldfd newfd t (dup2 oldfd newfd t).2 := by
  by_cases hold : t.IsOpen oldfd
  · obtain ⟨d, hd⟩ := FdTable.isOpen_iff.mp hold
    rcases eq_or_ne oldfd newfd with rfl | hne
    · rw [dup2_same hold]
      refine ⟨iff_of_true ⟨oldfd, rfl⟩ ⟨hold, .inl rfl⟩, fun n hn => ⟨(Except.ok.inj hn).symm, ?_⟩⟩
      exact ⟨⟨d, hd, by rw [if_pos rfl, hd]⟩, fun _ _ => rfl, rfl⟩
    · by_cases hrange : 0 ≤ newfd ∧ newfd < t.limit
      · rw [dup2_inside hd hne hrange.1 hrange.2]
        refine ⟨iff_of_true ⟨newfd, rfl⟩ ⟨hold, .inr hrange⟩,
          fun n hn => ⟨(Except.ok.inj hn).symm, ⟨d, hd, ?_⟩, fun fd hfd => ?_, freed_limit⟩⟩
        · rw [FdTable.insert_self, if_neg (Ne.symm hne)]
        · rw [FdTable.insert_other _ hfd, freed_other hfd]
      · rw [dup2_outside hold hne hrange]
        refine ⟨iff_of_false (fun ⟨_, hn⟩ => nomatch hn) ?_, fun n hn => nomatch hn⟩
        rintro ⟨-, heq | hin⟩
        · exact hne heq.symm
        · exact hrange hin
  · rw [dup2_bad hold]
    exact ⟨iff_of_false (fun ⟨_, hn⟩ => nomatch hn) fun h => hold h.1, fun n hn => nomatch hn⟩

/-- **When a failing `dup2` leaves the table alone**: unless both descriptors are open, different,
and `newfd` is at or above the limit. -/
theorem dup2_failure_iff (t : FdTable) (oldfd newfd : Int) :
    (∀ errno, (dup2 oldfd newfd t).1 = .error errno → (dup2 oldfd newfd t).2 = t) ↔
      ¬ (t.IsOpen oldfd ∧ t.IsOpen newfd ∧ oldfd ≠ newfd ∧ t.limit ≤ newfd) := by
  by_cases hold : t.IsOpen oldfd
  · obtain ⟨d, hd⟩ := FdTable.isOpen_iff.mp hold
    rcases eq_or_ne oldfd newfd with rfl | hne
    · rw [dup2_same hold]
      exact iff_of_true (fun _ hn => nomatch hn) fun h => h.2.2.1 rfl
    · by_cases hrange : 0 ≤ newfd ∧ newfd < t.limit
      · rw [dup2_inside hd hne hrange.1 hrange.2]
        exact iff_of_true (fun _ hn => nomatch hn) fun h => by omega
      · rw [dup2_outside hold hne hrange]
        by_cases hnew : t.IsOpen newfd
        · have hlimit : (t.limit : Int) ≤ newfd := by
            have := t.nonneg newfd hnew
            omega
          rw [freed, if_pos hnew]
          refine iff_of_false (fun h => ?_) fun h => h ⟨hold, hnew, hne, hlimit⟩
          exact FdTable.remove_ne hnew (h _ rfl)
        · rw [freed, if_neg hnew]
          exact iff_of_true (fun _ _ => rfl) fun h => hnew h.2.1
  · rw [dup2_bad hold]
    exact iff_of_true (fun _ _ => rfl) fun h => hold h.1

/-- Descriptors 0 and 5 are open, and the limit has been lowered to 3. -/
def lowered : FdTable where
  desc := fun fd => if fd = 0 then some ⟨1, false⟩ else if fd = 5 then some ⟨2, false⟩ else none
  limit := 3
  nonneg := fun fd hfd => by
    by_contra hneg
    refine hfd ?_
    rw [if_neg (by omega), if_neg (by omega)]
  finite := (Set.toFinite {0, 5}).subset fun fd hfd => by
    by_contra hout
    rw [Set.mem_insert_iff, Set.mem_singleton_iff, not_or] at hout
    exact hfd (by rw [if_neg hout.1, if_neg hout.2])

/-- `dup2(0, 5)` fails after it has closed 5. -/
theorem dup2_closes_newfd : ¬ ∀ (t : FdTable) (oldfd newfd : Int) (errno : Errno),
    (dup2 oldfd newfd t).1 = .error errno → (dup2 oldfd newfd t).2 = t := by
  intro h
  have hold : lowered.IsOpen 0 := by decide
  have hnew : lowered.IsOpen 5 := by decide
  have hrun := dup2_outside hold (by decide : (0 : Int) ≠ 5) (by decide)
  have hsame := h lowered 0 5 .EINVAL (by rw [hrun])
  rw [hrun, freed, if_pos hnew] at hsame
  exact FdTable.remove_ne hnew hsame

end Tlpi.Dup
