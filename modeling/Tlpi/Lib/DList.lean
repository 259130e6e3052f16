import Tlpi.Lib.NullChain

/-!
# Doubly linked lists

`DSeg null next prev p a l q b`: starting at `a`, with `p` the node before it, `next` runs through
the nodes `l` and arrives at `b`, the last of them being `q`; every node's `prev` names the node
before it. A whole list is `DList`: it starts with no node before and ends at `null`. Editing a
list means to redirect the two pointers at the ends of a gap (`DList.splice`): the `next` of the
node before and the `prev` of the node after.
-/

namespace Tlpi.Lib

variable {α : Type*} {null : α} {next prev next' prev' : α → α}

inductive DSeg (null : α) (next prev : α → α) : α → α → List α → α → α → Prop where
  | nil {p a : α} : DSeg null next prev p a [] p a
  | cons {p a q b : α} {l : List α} : a ≠ null → prev a = p →
      DSeg null next prev a (next a) l q b → DSeg null next prev p a (a :: l) q b

/-- The list that starts at `a` has the nodes `l`. -/
def DList (null : α) (next prev : α → α) (a : α) (l : List α) : Prop :=
  ∃ q, DSeg null next prev null a l q null

namespace DSeg

variable {p a q b : α} {l l' : List α}

theorem append {q' b' : α} (h : DSeg null next prev p a l q b)
    (h' : DSeg null next prev q b l' q' b') : DSeg null next prev p a (l ++ l') q' b' := by
  induction h with
  | nil => exact h'
  | cons hne hprev _ ih => exact .cons hne hprev (ih h')

theorem split (h : DSeg null next prev p a (l ++ l') q b) :
    ∃ q' b', DSeg null next prev p a l q' b' ∧ DSeg null next prev q' b' l' q b := by
  induction l generalizing p a with
  | nil => exact ⟨p, a, .nil, h⟩
  | cons x l ih =>
    cases h with
    | cons hne hprev h =>
      obtain ⟨q', b', h1, h2⟩ := ih h
      exact ⟨q', b', .cons hne hprev h1, h2⟩

theorem ne_null (h : DSeg null next prev p a l q b) : ∀ x ∈ l, x ≠ null := by
  induction h with
  | nil => simp
  | cons hne _ _ ih => exact List.forall_mem_cons.mpr ⟨hne, ih⟩

theorem last_mem (h : DSeg null next prev p a l q b) (hl : l ≠ []) : q ∈ l := by
  induction h with
  | nil => exact absurd rfl hl
  | @cons p a q b l _ _ h ih =>
    rcases eq_or_ne l [] with rfl | hne
    · cases h
      exact List.mem_cons_self
    · exact List.mem_cons_of_mem _ (ih hne)

theorem first_mem (h : DSeg null next prev p a l q b) (hl : l ≠ []) : a ∈ l := by
  cases h with
  | nil => exact absurd rfl hl
  | cons => exact List.mem_cons_self

theorem congr (h : DSeg null next prev p a l q b) (hnext : ∀ x ∈ l, next' x = next x)
    (hprev : ∀ x ∈ l, prev' x = prev x) : DSeg null next' prev' p a l q b := by
  induction h with
  | nil => exact .nil
  | cons hne hp _ ih =>
    rw [List.forall_mem_cons] at hnext hprev
    refine .cons hne (hprev.1.trans hp) ?_
    rw [hnext.1]
    exact ih hnext.2 hprev.2

theorem nullChain (h : DSeg null next prev p a l q b) (hb : b = null) :
    NullChain null next a l := by
  induction h with
  | nil => rw [hb]; exact .nil
  | cons hne _ _ ih => exact .cons hne (ih hb)

/-- The end of a segment is redirected to `t`: the `next` of its last node, or where it starts when
it has no nodes. -/
theorem retarget (h : DSeg null next prev p a l q b) (hnodup : l.Nodup) {a' t : α}
    (hnext : ∀ x ∈ l, x ≠ q → next' x = next x) (hlast : q ∈ l → next' q = t)
    (hprev : ∀ x ∈ l, prev' x = prev x) (hempty : l = [] → a' = t) (hstart : l ≠ [] → a' = a) :
    DSeg null next' prev' p a' l q t := by
  induction h generalizing a' with
  | nil =>
    rw [hempty rfl]
    exact .nil
  | @cons p a q b l hne hp h ih =>
    rw [List.forall_mem_cons] at hnext hprev
    rw [List.nodup_cons] at hnodup
    rw [hstart (List.cons_ne_nil _ _)]
    refine .cons hne (hprev.1.trans hp) (ih hnodup.2 hnext.2 (fun hq => hlast (.tail _ hq)) hprev.2
      (fun hnil => ?_) fun hcons => hnext.1 ?_)
    · subst hnil
      cases h
      exact hlast List.mem_cons_self
    · rintro rfl
      exact hnodup.1 (h.last_mem hcons)

theorem resource (h : DSeg null next prev p a l q b) (hnodup : l.Nodup) {s : α}
    (hnext : ∀ x ∈ l, next' x = next x) (hfirst : a ∈ l → prev' a = s)
    (hprev : ∀ x ∈ l, x ≠ a → prev' x = prev x) : ∃ q', DSeg null next' prev' s a l q' b := by
  cases h with
  | nil => exact ⟨s, .nil⟩
  | @cons p a q b l hne hp h =>
    rw [List.forall_mem_cons] at hnext hprev
    rw [List.nodup_cons] at hnodup
    refine ⟨q, .cons hne (hfirst List.mem_cons_self) ?_⟩
    rw [hnext.1]
    refine h.congr hnext.2 fun x hx => hprev.2 x hx ?_
    rintro rfl
    exact hnodup.1 hx

end DSeg

namespace DList

variable {a c : α} {l pre post : List α}

theorem nullChain (h : DList null next prev a l) : NullChain null next a l := by
  obtain ⟨_, h⟩ := h
  exact h.nullChain rfl

theorem ne_null (h : DList null next prev a l) : ∀ x ∈ l, x ≠ null := by
  obtain ⟨_, h⟩ := h
  exact h.ne_null

theorem around (h : DList null next prev a (pre ++ c :: post)) :
    ∃ q, DSeg null next prev null a pre (prev c) c ∧
      DSeg null next prev c (next c) post q null := by
  obtain ⟨q, h⟩ := h
  obtain ⟨_, _, hpre, hrest⟩ := h.split
  cases hrest with
  | cons _ hp hpost => exact ⟨q, hp ▸ hpre, hpost⟩

theorem prev_mem (h : DList null next prev a (pre ++ c :: post)) :
    prev c = null ∨ prev c ∈ pre := by
  obtain ⟨q, hpre, -⟩ := h.around
  rcases eq_or_ne pre [] with rfl | hne
  · cases hpre
    exact .inl rfl
  · exact .inr (hpre.last_mem hne)

theorem next_mem (h : DList null next prev a (pre ++ c :: post)) :
    next c = null ∨ next c ∈ post := by
  obtain ⟨q, -, hpost⟩ := h.around
  rcases eq_or_ne post [] with rfl | hne
  · cases hpost
    exact .inl rfl
  · exact .inr (hpost.first_mem hne)

/-- **A node is replaced by the segment `mid`**, which may be empty: the pointers to the node are
redirected to the ends of `mid`, and every other pointer stays. -/
theorem splice {a' s t : α} {mid : List α} (h : DList null next prev a (pre ++ c :: post))
    (hnodup : (pre ++ c :: post).Nodup)
    (hmid : DSeg null next' prev' (prev c) t mid s (next c))
    (hnext : ∀ x ∈ pre ++ post, x ≠ prev c → next' x = next x)
    (hbefore : prev c ≠ null → next' (prev c) = t)
    (hprev : ∀ x ∈ pre ++ post, x ≠ next c → prev' x = prev x)
    (hafter : next c ≠ null → prev' (next c) = s)
    (hfront : prev c = null → a' = t) (hback : prev c ≠ null → a' = a) :
    DList null next' prev' a' (pre ++ mid ++ post) := by
  obtain ⟨hpre_nodup, hrest_nodup, hdisj⟩ := List.nodup_append.mp hnodup
  rw [List.nodup_cons] at hrest_nodup
  have hprev_mem := h.prev_mem
  have hnext_mem := h.next_mem
  obtain ⟨e, hpre, hpost⟩ := h.around
  have hpre' : DSeg null next' prev' null a' pre (prev c) t := by
    refine hpre.retarget hpre_nodup (fun x hx => hnext x (List.mem_append_left _ hx))
      (fun hq => hbefore (hpre.ne_null _ hq)) (fun x hx => hprev x (List.mem_append_left _ hx) ?_)
      (fun hnil => hfront ?_) fun hcons => hback (hpre.ne_null _ (hpre.last_mem hcons))
    · rintro rfl
      rcases hnext_mem with hnull | hmem
      · exact hpre.ne_null _ hx hnull
      · exact hdisj _ hx _ (List.mem_cons_of_mem _ hmem) rfl
    · subst hnil
      simpa using hprev_mem
  obtain ⟨e', hpost'⟩ : ∃ e', DSeg null next' prev' s (next c) post e' null := by
    refine hpost.resource hrest_nodup.2 (fun x hx => hnext x (List.mem_append_right _ hx) ?_)
      (fun hfirst => hafter (hpost.ne_null _ hfirst))
      fun x hx => hprev x (List.mem_append_right _ hx)
    rintro rfl
    rcases hprev_mem with hnull | hmem
    · exact hpost.ne_null _ hx hnull
    · exact hdisj _ hmem _ (List.mem_cons_of_mem _ hx) rfl
  exact ⟨e', (hpre'.append hmid).append hpost'⟩

end DList

end Tlpi.Lib
