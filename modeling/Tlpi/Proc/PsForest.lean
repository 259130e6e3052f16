import Tlpi.Lib.Forest
import Tlpi.Proc.PsTree

/-!
# The process tree is a forest

The records of `pstree` come from a scan that races with the system: pids may repeat, parents may
be missing and the parent relation may have cycles. `forest` is the parent map that
`find_node_with_pid` defines on the list of records. `make_tree` keeps the list (`Listed`) and
stores exactly the children lists of the forest (`Attached`), so that what is printed is the
traversal of the forest. The arrays of children have room for 127 and a NULL, whatever the number
of children.
-/

namespace Tlpi.PsTree

open Tlpi.Lib

section Update

variable (h : Heap) (n m : Nat) (parent : Option Nat) (children : List Slot)

theorem Heap.setParent_node : (h.setParent n parent).node m =
    { h.node m with parent := if m = n then parent else (h.node m).parent } := by
  by_cases hm : m = n
  · subst hm; simp [Heap.setParent]
  · simp [Heap.setParent, hm]

theorem Heap.setChildren_node : (h.setChildren n children).node m =
    { h.node m with children := if m = n then children else (h.node m).children } := by
  by_cases hm : m = n
  · subst hm; simp [Heap.setChildren]
  · simp [Heap.setChildren, hm]

end Update

/-! ## The list -/

/-- The node allocated before node `n`. -/
def pred : Nat → Option Nat
  | 0 => none
  | n + 1 => some n

/-- The list that the records leave; `make_tree` keeps it. -/
structure Listed (rs : List Record) (h : Heap) : Prop where
  size : h.size = rs.length
  llHead : h.llHead = pred rs.length
  node : ∀ {n r}, rs[n]? = some r → (h.node n).toRecord = r ∧ (h.node n).next = pred n

theorem insertAll_concat (rs : List Record) (r : Record) :
    insertAll (rs ++ [r]) = (insertAll rs).llCreateAndInsert r := by
  simp [insertAll]

theorem insertAll_node (rs : List Record) :
    (insertAll rs).size = rs.length ∧ (insertAll rs).llHead = pred rs.length ∧
      ∀ n r, rs[n]? = some r → (insertAll rs).node n = Node.fresh r (pred n) := by
  induction rs using List.reverseRecOn with
  | nil => exact ⟨rfl, rfl, by simp⟩
  | append_singleton rs r ih =>
    obtain ⟨hsize, hhead, hnode⟩ := ih
    rw [insertAll_concat]
    refine ⟨by simp [Heap.llCreateAndInsert, hsize], by simp [Heap.llCreateAndInsert, hsize, pred],
      fun n r' hr => ?_⟩
    simp only [Heap.llCreateAndInsert, hsize, hhead]
    rcases Nat.lt_trichotomy n rs.length with hn | rfl | hn
    · rw [List.getElem?_append_left hn] at hr
      rw [Function.update_of_ne (by omega), hnode n r' hr]
    · have hr' : r = r' := by simpa using hr
      rw [Function.update_self, hr']
    · rw [List.getElem?_eq_none (by simp; omega)] at hr
      cases hr

theorem listed_insertAll (rs : List Record) : Listed rs (insertAll rs) := by
  obtain ⟨hsize, hhead, hnode⟩ := insertAll_node rs
  refine ⟨hsize, hhead, fun {n r} hr => ?_⟩
  rw [hnode n r hr]
  exact ⟨rfl, rfl⟩

theorem walk_pred {next : Nat → Option Nat} {k fuel : Nat} (hnext : ∀ n < k, next n = pred n)
    (hfuel : k ≤ fuel) : walk next fuel (pred k) = (List.range k).reverse := by
  induction k generalizing fuel with
  | zero => cases fuel <;> rfl
  | succ k ih =>
    obtain ⟨fuel, rfl⟩ : ∃ f, fuel = f + 1 := ⟨fuel - 1, by omega⟩
    rw [pred, walk, hnext k (by omega), ih (fun n hn => hnext n (by omega)) (by omega),
      List.range_succ, List.reverse_append]
    rfl

section Listed

variable {rs : List Record} {h : Heap} (hl : Listed rs h)

include hl

theorem Listed.list_eq : h.list = (List.range rs.length).reverse := by
  rw [Heap.list, hl.llHead, hl.size]
  refine walk_pred (fun n hn => ?_) (Nat.le_refl _)
  exact (hl.node (List.getElem?_eq_getElem hn)).2

theorem Listed.mem_list {n : Nat} : n ∈ h.list ↔ n < rs.length := by
  rw [hl.list_eq, List.mem_reverse, List.mem_range]

theorem Listed.toRecord_eq {n : Nat} (hn : n ∈ h.list) :
    (h.node n).toRecord = ((insertAll rs).node n).toRecord := by
  have hr := List.getElem?_eq_getElem (hl.mem_list.mp hn)
  rw [(hl.node hr).1, ((listed_insertAll rs).node hr).1]

theorem Listed.findNodeWithPid_eq (pid : Int) :
    h.findNodeWithPid pid = (insertAll rs).findNodeWithPid pid := by
  have hlist : h.list = (insertAll rs).list := by rw [hl.list_eq, (listed_insertAll rs).list_eq]
  rw [Heap.findNodeWithPid, Heap.findNodeWithPid, ← hlist]
  refine List.find?_congr fun n hn => ?_
  rw [hl.toRecord_eq hn]

end Listed

theorem mem_list_of_findNodeWithPid {h : Heap} {pid : Int} {n : Nat}
    (hf : h.findNodeWithPid pid = some n) : n ∈ h.list := List.mem_of_find?_eq_some hf

theorem pid_of_findNodeWithPid {h : Heap} {pid : Int} {n : Nat}
    (hf : h.findNodeWithPid pid = some n) : (h.node n).pid = pid := by
  simpa using List.find?_some hf

/-- The parent map that `find_node_with_pid` defines on the records. -/
def forest (rs : List Record) : ParentMap Nat where
  nodes := (insertAll rs).list
  parent n := (insertAll rs).findNodeWithPid ((insertAll rs).node n).ppid
  nodup := by
    rw [(listed_insertAll rs).list_eq, List.nodup_reverse]
    exact List.nodup_range
  parent_mem _ hp := mem_list_of_findNodeWithPid hp

theorem Listed.list_eq_nodes {rs : List Record} {h : Heap} (hl : Listed rs h) :
    h.list = (forest rs).nodes := hl.list_eq.trans (listed_insertAll rs).list_eq.symm

theorem Listed.find_parent {rs : List Record} {h : Heap} (hl : Listed rs h) {n : Nat}
    (hn : n ∈ (forest rs).nodes) :
    h.findNodeWithPid (h.node n).ppid = (forest rs).parent n := by
  rw [← hl.list_eq_nodes] at hn
  rw [hl.findNodeWithPid_eq, hl.toRecord_eq hn]
  rfl

/-! ## The children arrays -/

/-- The array holds these children and a NULL after them. -/
def Holds (kids : List Nat) (slots : List Slot) : Prop :=
  ∃ junk, slots = kids.map .node ++ .null :: junk ∧ kids.length + 1 + junk.length = NUM_CHILDREN

theorem Holds.append {kids : List Nat} {slots : List Slot} (hs : Holds kids slots)
    (hroom : kids.length + 1 < NUM_CHILDREN) (n : Nat) :
    ∃ slots', appendChild n slots = .ok slots' ∧ Holds (kids ++ [n]) slots' := by
  obtain ⟨junk, rfl, hlen⟩ := hs
  obtain ⟨x, junk, rfl⟩ : ∃ x rest, junk = x :: rest :=
    List.exists_cons_of_length_pos (by omega)
  refine ⟨_, ?_, junk, rfl, by simp at hlen ⊢; omega⟩
  clear hroom hlen
  induction kids with
  | nil => rfl
  | cons c kids ih =>
    rw [List.map_cons, List.cons_append, appendChild, ih]
    rfl

theorem Holds.childList {kids : List Nat} {slots : List Slot} (hs : Holds kids slots) :
    PsTree.childList slots = .ok kids := by
  obtain ⟨junk, rfl, -⟩ := hs
  induction kids with
  | nil => rfl
  | cons c kids ih =>
    rw [List.map_cons, List.cons_append, PsTree.childList, ih]
    rfl

/-- `make_tree` after the nodes `done`: their parents are set, and every children array holds
those of them that have this parent. -/
structure Attached (rs : List Record) (done : List Nat) (h : Heap) : Prop where
  listed : Listed rs h
  parent : ∀ n ∈ (forest rs).nodes,
    (h.node n).parent = if n ∈ done then (forest rs).parent n else none
  children : ∀ p ∈ (forest rs).nodes,
    Holds (done.filter fun n => (forest rs).parent n = some p) (h.node p).children

theorem attached_insertAll (rs : List Record) : Attached rs [] (insertAll rs) := by
  have hnode : ∀ n ∈ (forest rs).nodes, ∃ r, (insertAll rs).node n = Node.fresh r (pred n) :=
    fun n hn => by
      have hr := List.getElem?_eq_getElem ((listed_insertAll rs).mem_list.mp hn)
      exact ⟨_, (insertAll_node rs).2.2 n _ hr⟩
  refine ⟨listed_insertAll rs, fun n hn => ?_, fun p hp => ?_⟩
  · obtain ⟨r, hr⟩ := hnode n hn
    rw [hr]
    rfl
  · obtain ⟨r, hr⟩ := hnode p hp
    rw [hr]
    exact ⟨List.replicate (NUM_CHILDREN - 1) .unassigned, rfl, by simp [NUM_CHILDREN]⟩

theorem Attached.step {rs : List Record} {done : List Nat} {h : Heap} {n : Nat}
    (ha : Attached rs done h) (hn : n ∈ (forest rs).nodes)
    (hroom : ∀ p, (forest rs).parent n = some p →
      (done.filter fun m => (forest rs).parent m = some p).length + 1 < NUM_CHILDREN) :
    ∃ h', h.attach n = .ok h' ∧ Attached rs (done ++ [n]) h' := by
  have hfind := ha.listed.find_parent hn
  cases hp : (forest rs).parent n with
  | none =>
    refine ⟨h, by rw [Heap.attach, hfind, hp], ha.listed, fun m hm => ?_, fun q hq => ?_⟩
    · rw [ha.parent m hm]
      by_cases hmn : m = n
      · subst hmn; simp [hp]
      · simp [hmn]
    · rw [List.filter_append]
      simpa [hp] using ha.children q hq
  | some p =>
    obtain ⟨slots, happend, hslots⟩ :=
      (ha.children p ((forest rs).parent_mem hn hp)).append (hroom p hp) n
    refine ⟨(h.setParent n (some p)).setChildren p slots, ?_, ?_, fun m hm => ?_, fun q hq => ?_⟩
    · simp only [Heap.attach, hfind, hp, Heap.setParent_node, happend]
      rfl
    · refine ⟨ha.listed.size, ha.listed.llHead, fun {m r} hr => ?_⟩
      rw [Heap.setChildren_node, Heap.setParent_node]
      exact ha.listed.node hr
    · rw [Heap.setChildren_node, Heap.setParent_node]
      by_cases hmn : m = n
      · subst hmn; simp [hp]
      · simp [hmn, ha.parent m hm]
    · rw [Heap.setChildren_node, Heap.setParent_node, List.filter_append]
      by_cases hq' : q = p
      · subst hq'; simpa [hp] using hslots
      · simpa [hp, hq', Ne.symm hq'] using ha.children q hq

/-- **`make_tree`** on a list whose nodes have at most 127 children each. -/
theorem Attached.makeTreeFrom {rs : List Record}
    (hkids : ∀ p, ((forest rs).children p).length < NUM_CHILDREN) {k fuel : Nat} {h : Heap}
    {done : List Nat} (ha : Attached rs done h) (hfuel : k ≤ fuel)
    (hlist : done ++ (List.range k).reverse = (forest rs).nodes) :
    ∃ h', PsTree.makeTreeFrom fuel h (pred k) = .ok h' ∧ Attached rs (forest rs).nodes h' := by
  induction k generalizing fuel h done with
  | zero =>
    rw [List.range_zero, List.reverse_nil, List.append_nil] at hlist
    exact ⟨h, by cases fuel <;> rfl, hlist ▸ ha⟩
  | succ k ih =>
    obtain ⟨fuel, rfl⟩ : ∃ f, fuel = f + 1 := ⟨fuel - 1, by omega⟩
    rw [List.range_succ, List.reverse_append, List.reverse_singleton, ← List.append_assoc] at hlist
    have hmem : k ∈ (forest rs).nodes := by rw [← hlist]; simp
    obtain ⟨h', hattach, ha'⟩ := ha.step hmem fun p hp => by
      have hle := hkids p
      rw [ParentMap.children, ← hlist] at hle
      simp [hp] at hle
      omega
    have hfuel' : k ≤ fuel := by omega
    obtain ⟨h'', htail, ha''⟩ := ih ha' hfuel' hlist
    have hnext : (h'.node k).next = pred k := by
      rw [← ha'.listed.list_eq_nodes, ha'.listed.mem_list] at hmem
      exact (ha'.listed.node (List.getElem?_eq_getElem hmem)).2
    refine ⟨h'', ?_, ha''⟩
    rw [pred, PsTree.makeTreeFrom, hattach]
    show PsTree.makeTreeFrom fuel h' (h'.node k).next = .ok h''
    rw [hnext, htail]

/-! ## The size of the children arrays -/

/-- `h'` differs from `h` in the `parent` and `children` fields only. -/
structure SameList (h h' : Heap) : Prop where
  size : h'.size = h.size
  llHead : h'.llHead = h.llHead
  record : ∀ n, (h'.node n).toRecord = (h.node n).toRecord
  next : ∀ n, (h'.node n).next = (h.node n).next

/-- `make_tree` has given every node of the list its parent, and changed nothing but the `parent`
and `children` fields. -/
structure Linked (h h' : Heap) : Prop extends SameList h h' where
  parent : ∀ n ∈ h.list, (h'.node n).parent = h.findNodeWithPid (h.node n).ppid

theorem SameList.refl (h : Heap) : SameList h h := ⟨rfl, rfl, fun _ => rfl, fun _ => rfl⟩

theorem SameList.trans {h h' h'' : Heap} (h1 : SameList h h') (h2 : SameList h' h'') :
    SameList h h'' where
  size := h2.size.trans h1.size
  llHead := h2.llHead.trans h1.llHead
  record := fun n => (h2.record n).trans (h1.record n)
  next := fun n => (h2.next n).trans (h1.next n)

theorem Holds.length_lt {kids : List Nat} {slots : List Slot} (hs : Holds kids slots) :
    kids.length < NUM_CHILDREN := by
  obtain ⟨junk, -, hlen⟩ := hs
  omega

theorem Holds.room {kids : List Nat} {slots slots' : List Slot} (hs : Holds kids slots) {n : Nat}
    (h : appendChild n slots = .ok slots') : kids.length + 1 < NUM_CHILDREN := by
  obtain ⟨junk, rfl, hlen⟩ := hs
  have hjunk : junk ≠ [] := by
    rintro rfl
    clear hlen
    induction kids generalizing slots' with
    | nil => cases h
    | cons c kids ih =>
      rw [List.map_cons, List.cons_append, appendChild] at h
      cases hrest : appendChild n (kids.map .node ++ [.null]) with
      | error e =>
        rw [hrest] at h
        cases h
      | ok rest => exact ih hrest
  have := List.length_pos_iff.mpr hjunk
  omega

theorem Heap.attach_cases {h h' : Heap} {n : Nat} (ha : h.attach n = .ok h') :
    (h.findNodeWithPid (h.node n).ppid = none ∧ h' = h) ∨
      ∃ p slots, h.findNodeWithPid (h.node n).ppid = some p ∧
        appendChild n (h.node p).children = .ok slots ∧
        h' = (h.setParent n (some p)).setChildren p slots := by
  unfold Heap.attach at ha
  split at ha
  · next hfind =>
    cases ha
    exact .inl ⟨hfind, rfl⟩
  · next p hfind =>
    obtain ⟨slots, hslots, ha⟩ := bind_eq_ok.mp ha
    cases ha
    rw [Heap.setParent_node] at hslots
    exact .inr ⟨p, slots, hfind, hslots, rfl⟩

theorem Attached.room {rs : List Record} {done : List Nat} {h h' : Heap} {n : Nat}
    (ha : Attached rs done h) (hn : n ∈ (forest rs).nodes) (hattach : h.attach n = .ok h') :
    ∀ p, (forest rs).parent n = some p →
      (done.filter fun m => (forest rs).parent m = some p).length + 1 < NUM_CHILDREN := by
  intro p hp
  have hfind := ha.listed.find_parent hn
  obtain ⟨hnone, -⟩ | ⟨q, slots, hq, hslots, -⟩ := Heap.attach_cases hattach
  · rw [hfind, hp] at hnone
    cases hnone
  · obtain rfl : p = q := Option.some.inj (hp.symm.trans (hfind.symm.trans hq))
    exact (ha.children p ((forest rs).parent_mem hn hp)).room hslots

theorem Heap.sameList_attach {h h' : Heap} {n : Nat} (ha : h.attach n = .ok h') :
    SameList h h' := by
  obtain ⟨-, rfl⟩ | ⟨p, slots, -, -, rfl⟩ := Heap.attach_cases ha
  · exact .refl _
  · refine ⟨rfl, rfl, fun m => ?_, fun m => ?_⟩
    · rw [Heap.setChildren_node, Heap.setParent_node]
    · rw [Heap.setChildren_node, Heap.setParent_node]

theorem sameList_makeTreeFrom {fuel : Nat} {h h' : Heap} {node : Option Nat}
    (hrun : makeTreeFrom fuel h node = .ok h') : SameList h h' := by
  induction fuel generalizing h node with
  | zero =>
    cases node with
    | none =>
      cases hrun
      exact .refl _
    | some n => cases hrun
  | succ fuel ih =>
    cases node with
    | none =>
      cases hrun
      exact .refl _
    | some n =>
      obtain ⟨h1, hattach, hrest⟩ := bind_eq_ok.mp hrun
      exact (Heap.sameList_attach hattach).trans (ih hrest)

theorem Attached.of_makeTreeFrom {rs : List Record} {k fuel : Nat} {h h' : Heap} {done : List Nat}
    (ha : Attached rs done h) (hlist : done ++ (List.range k).reverse = (forest rs).nodes)
    (hrun : PsTree.makeTreeFrom fuel h (pred k) = .ok h') : Attached rs (forest rs).nodes h' := by
  induction k generalizing fuel h done with
  | zero =>
    have hdone : h = h' := by
      cases fuel <;> exact Except.ok.inj hrun
    rw [List.range_zero, List.reverse_nil, List.append_nil] at hlist
    exact hdone ▸ hlist ▸ ha
  | succ k ih =>
    rw [List.range_succ, List.reverse_append, List.reverse_singleton, ← List.append_assoc] at hlist
    have hmem : k ∈ (forest rs).nodes := by rw [← hlist]; simp
    cases fuel with
    | zero => cases hrun
    | succ fuel =>
      obtain ⟨h1, hattach, hrest⟩ := bind_eq_ok.mp hrun
      obtain ⟨h2, hattach', ha'⟩ := ha.step hmem (ha.room hmem hattach)
      obtain rfl : h1 = h2 := Except.ok.inj (hattach.symm.trans hattach')
      have hnext : (h1.node k).next = pred k := by
        rw [← ha'.listed.list_eq_nodes, ha'.listed.mem_list] at hmem
        exact (ha'.listed.node (List.getElem?_eq_getElem hmem)).2
      rw [hnext] at hrest
      exact ih ha' hlist hrest

/-- `make_tree` ends well exactly when no node gets more children than its array has room for. -/
theorem makeTree_linked_iff (rs : List Record) :
    (∃ h', makeTree (insertAll rs) = .ok h' ∧ Linked (insertAll rs) h') ↔
      ∀ p, ((forest rs).children p).length < NUM_CHILDREN := by
  have hl := listed_insertAll rs
  have hmake : makeTree (insertAll rs) =
      makeTreeFrom rs.length (insertAll rs) (pred rs.length) := by
    rw [makeTree, hl.size, hl.llHead]
  rw [hmake]
  constructor
  · rintro ⟨h', hrun, -⟩ p
    have ha := (attached_insertAll rs).of_makeTreeFrom hl.list_eq.symm hrun
    by_cases hp : p ∈ (forest rs).nodes
    · exact (ha.children p hp).length_lt
    · have hnone : (forest rs).children p = [] := List.filter_eq_nil_iff.mpr fun n hn hparent =>
        hp ((forest rs).parent_mem hn (of_decide_eq_true hparent))
      rw [hnone]
      decide
  · intro hkids
    obtain ⟨h', hrun, ha⟩ := (attached_insertAll rs).makeTreeFrom hkids (Nat.le_refl rs.length)
      hl.list_eq.symm
    refine ⟨h', hrun, sameList_makeTreeFrom hrun, fun n hn => ?_⟩
    have hmem : n ∈ (forest rs).nodes := hn
    rw [ha.parent n hmem, if_pos hmem]
    rfl

theorem map_toRecord_list (rs : List Record) :
    (insertAll rs).list.map (fun n => ((insertAll rs).node n).toRecord) = rs.reverse := by
  have hl := listed_insertAll rs
  rw [hl.list_eq, List.map_reverse]
  congr 1
  refine List.ext_getElem (by simp) fun n hn hn' => ?_
  rw [List.getElem_map, List.getElem_range, (hl.node (List.getElem?_eq_getElem hn')).1]

theorem length_children {rs : List Record} {pid : Int} {p : Nat}
    (hp : (insertAll rs).findNodeWithPid pid = some p) :
    ((forest rs).children p).length = rs.countP fun r => r.ppid = pid := by
  have hpid : ((insertAll rs).node p).pid = pid := pid_of_findNodeWithPid hp
  have hchildren : (forest rs).children p =
      (insertAll rs).list.filter fun n => ((insertAll rs).node n).ppid = pid := by
    refine List.filter_congr fun n _ => decide_eq_decide.mpr ⟨fun hparent => ?_, fun hppid => ?_⟩
    · have hfound : ((insertAll rs).node p).pid = ((insertAll rs).node n).ppid :=
        pid_of_findNodeWithPid hparent
      rw [← hfound, hpid]
    · show (insertAll rs).findNodeWithPid ((insertAll rs).node n).ppid = some p
      rw [hppid, hp]
  calc ((forest rs).children p).length
      = (insertAll rs).list.countP fun n => ((insertAll rs).node n).ppid = pid := by
        rw [hchildren, List.countP_eq_length_filter]
    _ = rs.reverse.countP fun r => r.ppid = pid := by
        rw [← map_toRecord_list, List.countP_map]
        rfl
    _ = rs.countP fun r => r.ppid = pid := List.countP_reverse

theorem children_lt_iff (rs : List Record) :
    (∀ p, ((forest rs).children p).length < NUM_CHILDREN) ↔
      ∀ r ∈ rs, (rs.countP fun c => c.ppid = r.pid) ≤ 127 := by
  constructor
  · intro hkids r hr
    have hmem : r ∈ (insertAll rs).list.map fun n => ((insertAll rs).node n).toRecord := by
      rw [map_toRecord_list]
      exact List.mem_reverse.mpr hr
    obtain ⟨n, hn, hrecord⟩ := List.mem_map.mp hmem
    obtain ⟨p, hp⟩ : ∃ p, (insertAll rs).findNodeWithPid r.pid = some p := by
      refine Option.isSome_iff_exists.mp (List.find?_isSome.mpr ⟨n, hn, ?_⟩)
      rw [hrecord]
      exact decide_eq_true rfl
    rw [← length_children hp]
    exact Nat.le_of_lt_succ (hkids p)
  · intro hkids p
    rcases eq_or_ne ((forest rs).children p) [] with hnil | hne
    · rw [hnil]
      decide
    · obtain ⟨n, hn⟩ := List.exists_mem_of_ne_nil _ hne
      have hp : (insertAll rs).findNodeWithPid ((insertAll rs).node n).ppid = some p :=
        of_decide_eq_true (List.mem_filter.mp hn).2
      have hmem : ((insertAll rs).node p).toRecord ∈ rs := by
        rw [← List.mem_reverse, ← map_toRecord_list]
        exact List.mem_map_of_mem (mem_list_of_findNodeWithPid hp)
      rw [length_children hp, ← pid_of_findNodeWithPid hp]
      exact Nat.lt_succ_of_le (hkids _ hmem)

/-- **When `make_tree` stays inside the children arrays**: exactly when no pid of a record is the
parent of more than 127 records. -/
theorem makeTree_inside_iff (rs : List Record) :
    (∃ h', makeTree (insertAll rs) = .ok h' ∧ Linked (insertAll rs) h') ↔
      ∀ r ∈ rs, (rs.countP fun c => c.ppid = r.pid) ≤ 127 := by
  rw [makeTree_linked_iff, children_lt_iff]

/-- A process with 128 children. -/
def crowded : List Record := ⟨[], 1, 0⟩ :: List.replicate 128 ⟨[], 2, 1⟩

/-- The 128th child takes the place of the last NULL, and the NULL after it goes past the array. -/
theorem makeTree_overruns :
    ¬ ∀ rs, ∃ h', makeTree (insertAll rs) = .ok h' ∧ Linked (insertAll rs) h' := by
  intro h
  have hle := (children_lt_iff crowded).mp ((makeTree_linked_iff crowded).mp (h crowded)) ⟨[], 1, 0⟩
    List.mem_cons_self
  rw [crowded, List.countP_cons, List.countP_replicate] at hle
  exact absurd hle (by decide)

/-! ## Printing -/

section Print

variable {rs : List Record} {h : Heap} (ha : Attached rs (forest rs).nodes h)

theorem length_nodes (rs : List Record) : (forest rs).nodes.length = rs.length := by
  show (insertAll rs).list.length = rs.length
  rw [(listed_insertAll rs).list_eq, List.length_reverse, List.length_range]

/-- The line for a node at a level. -/
def line (h : Heap) (x : Nat × Nat) : Line :=
  { node := x.1, level := x.2, text := lineText x.2 (h.node x.1).toRecord }

theorem flatMap_filter {α β : Type} (p : α → Bool) (f : α → List β) (l : List α) :
    (l.filter p).flatMap f = l.flatMap fun a => if p a then f a else [] := by
  induction l with
  | nil => rfl
  | cons a l ih => by_cases hp : p a <;> simp [hp, ih]

include ha

theorem Attached.printTree {fuel n level : Nat} (hd : (forest rs).Depth n level)
    (hfuel : rs.length ≤ fuel + level) :
    PsTree.printTree h fuel n level = .ok (((forest rs).preorder fuel n level).map (line h)) := by
  induction fuel generalizing n level with
  | zero =>
    have := hd.lt_length
    rw [length_nodes] at this
    omega
  | succ fuel ih =>
    have hkids := (ha.children n hd.mem).childList
    rw [PsTree.printTree, hkids]
    have hsub : ((forest rs).children n).mapM (fun c => PsTree.printTree h fuel c (level + 1)) =
        .ok (((forest rs).children n).map fun c =>
          ((forest rs).preorder fuel c (level + 1)).map (line h)) :=
      mapM_eq_ok fun c hc => ih (hd.of_mem_children hc) (by omega)
    show (do
      let subtrees ← ((forest rs).children n).mapM fun c => PsTree.printTree h fuel c (level + 1)
      return line h (n, level) :: subtrees.flatten) = _
    rw [hsub, ParentMap.preorder, List.map_cons, List.map_flatMap]
    rfl

/-- **The printing loop** prints the traversal of the forest. -/
theorem Attached.printForest :
    PsTree.printForest h = .ok ((forest rs).traversal.map (line h)) := by
  have hsize : (forest rs).nodes.length = h.size := by rw [length_nodes, ha.listed.size]
  have hparent : ∀ n ∈ (forest rs).nodes, (h.node n).parent = (forest rs).parent n :=
    fun n hn => by rw [ha.parent n hn, if_pos hn]
  have htrees : h.list.mapM (fun n =>
      if (h.node n).parent = none then PsTree.printTree h h.size n 0 else .ok []) =
      .ok (h.list.map fun n => if ((forest rs).parent n).isNone then
        ((forest rs).preorder (forest rs).nodes.length n 0).map (line h) else []) := by
    refine mapM_eq_ok fun n hn => ?_
    rw [ha.listed.list_eq_nodes] at hn
    rw [hparent n hn, hsize]
    cases hp : (forest rs).parent n with
    | none =>
      rw [if_pos rfl, ha.printTree (.root hn hp) (by rw [ha.listed.size]; omega)]
      rfl
    | some p => rfl
  rw [PsTree.printForest, htrees, ParentMap.traversal, ParentMap.roots, List.map_flatMap,
    flatMap_filter, ha.listed.list_eq_nodes]
  rfl

end Print

/-- **`main` prints the traversal of the forest.** -/
theorem main_eq_traversal {rs : List Record} (hkids : ∀ p, ((forest rs).children p).length ≤ 127) :
    ∃ h, Listed rs h ∧ main rs = .ok ((forest rs).traversal.map (line h)) := by
  have hl := listed_insertAll rs
  obtain ⟨h, hmake, ha⟩ := (attached_insertAll rs).makeTreeFrom
    (fun p => Nat.lt_succ_of_le (hkids p)) (Nat.le_refl rs.length) hl.list_eq.symm
  refine ⟨h, ha.listed, ?_⟩
  rw [main, makeTree, hl.size, hl.llHead, hmake]
  exact ha.printForest

theorem exists_line_iff (rs : List Record) (h : Heap) (n level : Nat) :
    (∃ l ∈ (forest rs).traversal.map (line h), l.node = n ∧ l.level = level) ↔
      (forest rs).Depth n level := by
  rw [← ParentMap.mem_traversal]
  constructor
  · rintro ⟨l, hl, rfl, rfl⟩
    obtain ⟨x, hx, rfl⟩ := List.mem_map.mp hl
    exact hx
  · exact fun hx => ⟨_, List.mem_map_of_mem hx, rfl, rfl⟩

/-- Two processes with one pid, a child of theirs, a missing parent and a process that is its
own parent. -/
def raced : List Record :=
  [⟨[], 1, 0⟩, ⟨[], 7, 1⟩, ⟨[], 7, 1⟩, ⟨[], 8, 7⟩, ⟨[], 9, 9⟩, ⟨[], 5, 4⟩]

end Tlpi.PsTree
