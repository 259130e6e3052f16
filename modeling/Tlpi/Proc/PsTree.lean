import Tlpi.Lib.File
import Tlpi.Lib.CString

/-!
# The process tree

`12-system-and-process-information/pstree.c`: a list of process records, most recent first
(`llCreateAndInsert`), turned into a tree by storing every node in the children array of the
first node that has its parent's pid (`makeTree`) and printed from the nodes without a parent
(`printTree`). A node is the number of its allocation, so node `n` holds record `n`.

The loops over the list and the recursion of `print_tree` run on fuel, one unit for each node of
the list; `Tlpi.Proc.PsForest` shows that they end within it.
-/

namespace Tlpi.PsTree

open Tlpi.Lib

/-- The size of `name`. -/
def NAME_SIZE : Nat := 128

/-- The size of `children`. -/
def NUM_CHILDREN : Nat := 128

/-- An element of `children`; `malloc` leaves it unassigned. -/
inductive Slot where
  | unassigned
  | null
  | node (p : Nat)
  deriving DecidableEq

/-- The arguments of `ll_create_and_insert`. -/
structure Record where
  name : Bytes
  pid : Int
  ppid : Int
  deriving DecidableEq

/-- `struct pstree_node` -/
structure Node extends Record where
  parent : Option Nat
  children : List Slot
  next : Option Nat

/-- The allocated nodes and `ll_head`. -/
structure Heap where
  node : Nat → Node
  size : Nat
  llHead : Option Nat

/-- A node as `ll_create_and_insert` leaves it. -/
def Node.fresh (r : Record) (next : Option Nat) : Node :=
  { r with parent := none, next
           children := .null :: List.replicate (NUM_CHILDREN - 1) .unassigned }

def Heap.empty : Heap :=
  { node := fun _ => Node.fresh ⟨[], 0, 0⟩ none, size := 0, llHead := none }

/-- `ll_create_and_insert(procname, pid, ppid)`, with a `malloc` that succeeds and a name that
`strcpy` has found room for. -/
def Heap.llCreateAndInsert (h : Heap) (r : Record) : Heap :=
  { node := Function.update h.node h.size (Node.fresh r h.llHead)
    size := h.size + 1
    llHead := some h.size }

def insertAll (rs : List Record) : Heap := rs.foldl Heap.llCreateAndInsert .empty

/-- The nodes met by following `next`, at most `fuel` of them. -/
def walk (next : Nat → Option Nat) : Nat → Option Nat → List Nat
  | _, none => []
  | 0, some _ => []
  | fuel + 1, some n => n :: walk next fuel (next n)

/-- `for (node = ll_head; node != NULL; node = node->next)` -/
def Heap.list (h : Heap) : List Nat := walk (fun n => (h.node n).next) h.size h.llHead

/-- `find_node_with_pid(pid)` -/
def Heap.findNodeWithPid (h : Heap) (pid : Int) : Option Nat :=
  h.list.find? fun n => (h.node n).pid = pid

def Heap.setParent (h : Heap) (n : Nat) (parent : Option Nat) : Heap :=
  { h with node := Function.update h.node n { h.node n with parent } }

def Heap.setChildren (h : Heap) (n : Nat) (children : List Slot) : Heap :=
  { h with node := Function.update h.node n { h.node n with children } }

/-- From `while (pnode->children[i++] != NULL)` on: the array with `node` in the place of the
NULL and a NULL after it. -/
def appendChild (node : Nat) : List Slot → Except Fault (List Slot)
  | [] => .error .outOfBounds
  | .unassigned :: _ => .error .uninitialised
  | [.null] => .error .outOfBounds
  | .null :: _ :: slots => .ok (.node node :: .null :: slots)
  | .node c :: slots => (.node c :: ·) <$> appendChild node slots

/-- The body of the loop of `make_tree`. -/
def Heap.attach (h : Heap) (node : Nat) : Except Fault Heap :=
  match h.findNodeWithPid (h.node node).ppid with
  | none => .ok h
  | some pnode => do
    let h := h.setParent node (some pnode)
    let children ← appendChild node (h.node pnode).children
    return h.setChildren pnode children

def makeTreeFrom : Nat → Heap → Option Nat → Except Fault Heap
  | _, h, none => .ok h
  | 0, _, some _ => .error .outOfFuel
  | fuel + 1, h, some node => do
    let h ← h.attach node
    makeTreeFrom fuel h (h.node node).next

/-- `make_tree()` -/
def makeTree (h : Heap) : Except Fault Heap := makeTreeFrom h.size h h.llHead

/-- The line that `print_tree` prints for a record. -/
def lineText (level : Nat) (r : Record) : Bytes :=
  (List.replicate level (bytesOf "  ")).flatten ++ r.name ++ bytesOf " (pid: " ++
    bytesOf (toString r.pid) ++ bytesOf ", ppid: " ++ bytesOf (toString r.ppid) ++ bytesOf ")\n"

/-- One line of output, with the node and the level it is printed for. -/
structure Line where
  node : Nat
  level : Nat
  text : Bytes

/-- `while ((node = root->children[j++]) != NULL)`: the children before the NULL. -/
def childList : List Slot → Except Fault (List Nat)
  | [] => .error .outOfBounds
  | .unassigned :: _ => .error .uninitialised
  | .null :: _ => .ok []
  | .node c :: slots => (c :: ·) <$> childList slots

/-- `print_tree(root, level)`, for at most `fuel` levels of recursion. -/
def printTree (h : Heap) : Nat → Nat → Nat → Except Fault (List Line)
  | 0, _, _ => .error .outOfFuel
  | fuel + 1, root, level => do
    let children ← childList (h.node root).children
    let subtrees ← children.mapM fun c => printTree h fuel c (level + 1)
    return { node := root, level, text := lineText level (h.node root).toRecord } ::
      subtrees.flatten

/-- The printing loop of `main`. -/
def printForest (h : Heap) : Except Fault (List Line) := do
  let trees ← h.list.mapM fun n =>
    if (h.node n).parent = none then printTree h h.size n 0 else .ok []
  return trees.flatten

/-- `main` once the records are in the list. -/
def main (rs : List Record) : Except Fault (List Line) := do
  let h ← makeTree (insertAll rs)
  printForest h

end Tlpi.PsTree
