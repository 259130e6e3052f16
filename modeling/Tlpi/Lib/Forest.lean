import Mathlib

/-!
# Forests from parent maps

A finite list of nodes with a partial parent map, which may have cycles. `Depth n k`: the chain
of parents of `n` has length `k` and ends at a node without parent; a node on or above a cycle
has no depth. `Below a n d`: going up `d` times from `n` leads to `a`. The pre-order traversal
from the roots, with fuel for as many levels as there are nodes, lists exactly the nodes with a
depth, once each, at their depth, and every node's descendants directly after it.
-/

namespace Tlpi.Lib

/-- A parent map on a list of nodes. -/
structure ParentMap (ι : Type*) where
  nodes : List ι
  parent : ι → Option ι
  nodup : nodes.Nodup
  parent_mem : ∀ {n p}, n ∈ nodes → parent n = some p → p ∈ nodes

namespace ParentMap

variable {ι : Type*} (F : ParentMap ι)

inductive Depth : ι → Nat → Prop where
  | root {n : ι} : n ∈ F.nodes → F.parent n = none → Depth n 0
  | child {n p : ι} {k : Nat} : n ∈ F.nodes → F.parent n = some p → Depth p k → Depth n (k + 1)

inductive Below (a : ι) : ι → Nat → Prop where
  | self : Below a a 0
  | child {n p : ι} {d : Nat} : n ∈ F.nodes → F.parent n = some p → Below a p d → Below a n (d + 1)

variable {F} {a b c m n : ι} {d d' f j k k' : Nat}

/-! ## Depths -/

theorem Depth.mem (h : F.Depth n k) : n ∈ F.nodes := by
  cases h with
  | root hn _ => exact hn
  | child hn _ _ => exact hn

theorem Depth.unique (h : F.Depth n k) (h' : F.Depth n k') : k = k' := by
  induction h generalizing k' with
  | root _ hp =>
    cases h' with
    | root => rfl
    | child _ hp' _ => rw [hp] at hp'; cases hp'
  | child _ hp _ ih =>
    cases h' with
    | root _ hp' => rw [hp] at hp'; cases hp'
    | child _ hp' h' =>
      rw [hp, Option.some.injEq] at hp'
      subst hp'
      rw [ih h']

theorem Depth.descend (ha : F.Depth a k) (h : F.Below a n d) : F.Depth n (k + d) := by
  induction h with
  | self => exact ha
  | child hn hp _ ih => exact .child hn hp ih

theorem Depth.chain (h : F.Depth n k) :
    ∃ l : List ι, l.length = k + 1 ∧ l.Nodup ∧ ∀ m ∈ l, ∃ j ≤ k, F.Depth m j := by
  induction h with
  | @root n hn hp => exact ⟨[n], rfl, by simp, by simpa using .root hn hp⟩
  | @child n p k hn hp hd ih =>
    obtain ⟨l, hlen, hnodup, hl⟩ := ih
    have hnew : F.Depth n (k + 1) := .child hn hp hd
    refine ⟨n :: l, by simp [hlen], List.nodup_cons.mpr ⟨fun hmem => ?_, hnodup⟩, fun m hm => ?_⟩
    · obtain ⟨j, hj, hdj⟩ := hl n hmem
      have := hnew.unique hdj
      omega
    · rcases List.mem_cons.mp hm with rfl | hm
      · exact ⟨k + 1, Nat.le_refl _, hnew⟩
      · obtain ⟨j, hj, hdj⟩ := hl m hm
        exact ⟨j, by omega, hdj⟩

theorem Depth.lt_length (h : F.Depth n k) : k < F.nodes.length := by
  obtain ⟨l, hlen, hnodup, hl⟩ := h.chain
  have hsub : l ⊆ F.nodes := fun m hm => by
    obtain ⟨j, -, hj⟩ := hl m hm
    exact hj.mem
  have := (hnodup.subperm hsub).length_le
  omega

/-- Without cycles every node has a depth. -/
theorem exists_depth (hacyclic : ∀ n, ¬ Relation.TransGen (fun n p => F.parent n = some p) n n)
    (hn : n ∈ F.nodes) : ∃ k, F.Depth n k := by
  let above : { n // n ∈ F.nodes } → { n // n ∈ F.nodes } → Prop := fun p n =>
    Relation.TransGen (fun n p => F.parent n = some p) n.1 p.1
  have htrans : IsTrans _ above := ⟨fun _ _ _ hab hbc => hbc.trans hab⟩
  have hirrefl : Std.Irrefl above := ⟨fun n => hacyclic n.1⟩
  have hfinite : Finite { n // n ∈ F.nodes } := (List.finite_toSet F.nodes).to_subtype
  have hwf := Finite.wellFounded_of_trans_of_irrefl above
  suffices h : ∀ n : { n // n ∈ F.nodes }, ∃ k, F.Depth n.1 k from h ⟨n, hn⟩
  intro n
  induction n using hwf.induction with
  | _ n ih =>
    cases hp : F.parent n.1 with
    | none => exact ⟨0, .root n.2 hp⟩
    | some p =>
      obtain ⟨k, hk⟩ := ih ⟨p, F.parent_mem n.2 hp⟩ (.single hp)
      exact ⟨k + 1, .child n.2 hp hk⟩

/-! ## Descendants -/

theorem Below.unique (h : F.Below a n d) (h' : F.Below b n d) : a = b := by
  induction h with
  | self =>
    cases h' with
    | self => rfl
  | child _ hp _ ih =>
    cases h' with
    | child _ hp' h' =>
      rw [hp, Option.some.injEq] at hp'
      subst hp'
      exact ih h'

variable (F) in
def roots : List ι := F.nodes.filter fun n => (F.parent n).isNone

theorem mem_roots : n ∈ F.roots ↔ n ∈ F.nodes ∧ F.parent n = none := by
  simp [roots]

theorem Depth.exists_root (h : F.Depth n k) : ∃ r ∈ F.roots, F.Below r n k := by
  induction h with
  | @root n hn hp => exact ⟨n, mem_roots.mpr ⟨hn, hp⟩, .self⟩
  | child hn hp _ ih =>
    obtain ⟨r, hr, hb⟩ := ih
    exact ⟨r, hr, .child hn hp hb⟩

theorem Depth.of_mem_roots (h : n ∈ F.roots) : F.Depth n 0 := by
  obtain ⟨hn, hp⟩ := mem_roots.mp h
  exact .root hn hp

variable [DecidableEq ι]

variable (F) in
def children (p : ι) : List ι := F.nodes.filter fun n => F.parent n = some p

theorem mem_children : c ∈ F.children a ↔ c ∈ F.nodes ∧ F.parent c = some a := by
  simp [children]

theorem Below.above (hc : c ∈ F.children a) (h : F.Below c n d) : F.Below a n (d + 1) := by
  obtain ⟨hcn, hcp⟩ := mem_children.mp hc
  induction h with
  | self => exact .child hcn hcp .self
  | child hn hp _ ih => exact .child hn hp ih

theorem Below.exists_child (h : F.Below a n (d + 1)) : ∃ c ∈ F.children a, F.Below c n d := by
  induction d generalizing n with
  | zero =>
    cases h with
    | child hn hp h =>
      cases h
      exact ⟨n, mem_children.mpr ⟨hn, hp⟩, .self⟩
  | succ d ih =>
    cases h with
    | child hn hp h =>
      obtain ⟨c, hc, hb⟩ := ih h
      exact ⟨c, hc, .child hn hp hb⟩

theorem Depth.of_mem_children (ha : F.Depth a k) (hc : c ∈ F.children a) : F.Depth c (k + 1) := by
  obtain ⟨hcn, hcp⟩ := mem_children.mp hc
  exact .child hcn hcp ha

/-! ## Pre-order -/

variable (F) in
/-- A node with its level, then its children's subtrees in turn, for `fuel` levels. -/
def preorder : Nat → ι → Nat → List (ι × Nat)
  | 0, _, _ => []
  | fuel + 1, n, level =>
    (n, level) :: (F.children n).flatMap fun c => preorder fuel c (level + 1)

variable (F) in
def traversal : List (ι × Nat) := F.roots.flatMap fun n => F.preorder F.nodes.length n 0

theorem mem_preorder : (m, j) ∈ F.preorder f a k ↔ ∃ d < f, j = k + d ∧ F.Below a m d := by
  induction f generalizing a k with
  | zero => simp [preorder]
  | succ f ih =>
    simp only [preorder, List.mem_cons, Prod.mk.injEq, List.mem_flatMap, ih]
    constructor
    · rintro (⟨rfl, rfl⟩ | ⟨c, hc, d, hd, rfl, hb⟩)
      · exact ⟨0, by omega, rfl, .self⟩
      · exact ⟨d + 1, by omega, by omega, hb.above hc⟩
    · rintro ⟨d, hd, rfl, hb⟩
      cases d with
      | zero =>
        cases hb
        exact .inl ⟨rfl, rfl⟩
      | succ d =>
        obtain ⟨c, hc, hb⟩ := hb.exists_child
        exact .inr ⟨c, hc, d, by omega, by omega, hb⟩

theorem nodup_flatMap_preorder {as : List ι} (has : as.Nodup) (hdepth : ∀ a ∈ as, F.Depth a k)
    (hsub : ∀ a ∈ as, ((F.preorder f a k).map Prod.fst).Nodup) :
    ((as.flatMap fun a => F.preorder f a k).map Prod.fst).Nodup := by
  rw [List.map_flatMap, List.nodup_flatMap]
  refine ⟨hsub, has.imp_of_mem fun {a b} ha hb hne => ?_⟩
  intro m hma hmb
  obtain ⟨⟨_, j⟩, hj, rfl⟩ := List.mem_map.mp hma
  obtain ⟨⟨_, j'⟩, hj', heq⟩ := List.mem_map.mp hmb
  simp only at heq
  subst heq
  obtain ⟨d, -, -, hbelow⟩ := mem_preorder.mp hj
  obtain ⟨d', -, -, hbelow'⟩ := mem_preorder.mp hj'
  have hd : d = d' := by
    have := ((hdepth a ha).descend hbelow).unique ((hdepth b hb).descend hbelow')
    omega
  subst hd
  exact hne (hbelow.unique hbelow')

theorem nodup_preorder (ha : F.Depth a k) : ((F.preorder f a k).map Prod.fst).Nodup := by
  induction f generalizing a k with
  | zero => simp [preorder]
  | succ f ih =>
    rw [preorder, List.map_cons, List.nodup_cons]
    have hkids : ∀ c ∈ F.children a, F.Depth c (k + 1) := fun c hc => ha.of_mem_children hc
    refine ⟨fun hmem => ?_, nodup_flatMap_preorder (F.nodup.filter _) hkids fun c hc =>
      ih (hkids c hc)⟩
    obtain ⟨⟨n, j⟩, hj, heq⟩ := List.mem_map.mp hmem
    simp only at heq
    subst heq
    obtain ⟨c, hc, hj⟩ := List.mem_flatMap.mp hj
    obtain ⟨d, -, -, hbelow⟩ := mem_preorder.mp hj
    have := ((hkids c hc).descend hbelow).unique ha
    omega

/-- The subtree of a node stands in one piece in the pre-order of any of its ancestors. -/
theorem preorder_infix (h : (m, j) ∈ F.preorder f a k) :
    ∃ f', f' + 1 + j = f + k ∧ F.preorder (f' + 1) m j <:+: F.preorder f a k := by
  induction f generalizing a k with
  | zero => simp [preorder] at h
  | succ f ih =>
    rw [preorder, List.mem_cons] at h
    rcases h with h | h
    · simp only [Prod.mk.injEq] at h
      obtain ⟨rfl, rfl⟩ := h
      exact ⟨f, rfl, List.infix_rfl⟩
    · obtain ⟨c, hc, hm⟩ := List.mem_flatMap.mp h
      obtain ⟨f', hf, hinfix⟩ := ih hm
      refine ⟨f', by omega, hinfix.trans ?_⟩
      have hpart : F.preorder f c (k + 1) <:+:
          (F.children a).flatMap fun c => F.preorder f c (k + 1) :=
        List.infix_of_mem_flatten (List.mem_map_of_mem hc)
      exact hpart.trans (List.suffix_cons _ _).isInfix

/-! ## The traversal -/

theorem mem_traversal : (m, k) ∈ F.traversal ↔ F.Depth m k := by
  rw [traversal, List.mem_flatMap]
  constructor
  · rintro ⟨r, hr, hm⟩
    obtain ⟨d, -, rfl, hb⟩ := mem_preorder.mp hm
    exact (Depth.of_mem_roots hr).descend hb
  · intro h
    obtain ⟨r, hr, hb⟩ := h.exists_root
    exact ⟨r, hr, mem_preorder.mpr ⟨k, h.lt_length, (Nat.zero_add k).symm, hb⟩⟩

theorem nodup_traversal : (F.traversal.map Prod.fst).Nodup :=
  nodup_flatMap_preorder (F.nodup.filter _) (fun _ hr => Depth.of_mem_roots hr)
    fun _ hr => nodup_preorder (Depth.of_mem_roots hr)

/-- **Pre-order.** Directly after a node stand its descendants, all of them and nothing else. -/
theorem traversal_subtree (h : F.Depth m k) :
    ∃ pre sub post, F.traversal = pre ++ (m, k) :: sub ++ post ∧
      ∀ n, n ∈ sub.map Prod.fst ↔ ∃ d, F.Below m n (d + 1) := by
  obtain ⟨r, hr, hm⟩ := List.mem_flatMap.mp (mem_traversal.mpr h)
  obtain ⟨f, hf, hinfix⟩ := preorder_infix hm
  obtain ⟨pre, post, heq⟩ := hinfix.trans
    (List.infix_of_mem_flatten (List.mem_map_of_mem hr) : _ <:+: F.traversal)
  refine ⟨pre, (F.children m).flatMap fun c => F.preorder f c (k + 1), post, heq.symm, fun n => ?_⟩
  simp only [List.mem_map, Prod.exists, exists_and_right, exists_eq_right, List.mem_flatMap,
    mem_preorder]
  constructor
  · rintro ⟨_, c, hc, d, -, -, hb⟩
    exact ⟨d, hb.above hc⟩
  · rintro ⟨d, hb⟩
    have hlt := (h.descend hb).lt_length
    obtain ⟨c, hc, hb⟩ := hb.exists_child
    exact ⟨_, c, hc, d, by omega, rfl, hb⟩

end ParentMap

end Tlpi.Lib
