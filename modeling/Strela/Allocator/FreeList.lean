import Strela.Allocator.Layout

/-! # The free list allocator

The managed memory holds its own bookkeeping: a list of free nodes threaded
through the free blocks, and a header before every allocation. The loops over
the list take fuel and give `none` if it runs out.
-/

namespace Strela.Allocator

open Foundation

inductive PlacementPolicy | findFirst | findBest
  deriving DecidableEq, Repr

structure FreeList where
  data : ℕ
  size : ℕ
  used : ℕ
  head : ℕ
  policy : PlacementPolicy
  deriving DecidableEq, Repr

structure Heap where
  mem : Mem
  fl : FreeList

variable (A : Abi)

/-! ## Fields of nodes and headers -/

def nodeNext (m : Mem) (node : ℕ) : ℕ := m.load node A.ptrBytes
def nodeBlockSize (m : Mem) (node : ℕ) : ℕ := m.load (node + A.ptrBytes) A.ptrBytes

def headerOrigSize (m : Mem) (header : ℕ) : ℕ := m.load header A.ptrBytes
def headerBlockSize (m : Mem) (header : ℕ) : ℕ := m.load (header + A.ptrBytes) A.ptrBytes
def headerPadding (m : Mem) (header : ℕ) : ℕ := m.load (header + 2 * A.ptrBytes) A.ptrBytes

namespace Heap

def setNodeNext (h : Heap) (node v : ℕ) : Heap :=
  { h with mem := h.mem.store node A.ptrBytes v }

def setNodeBlockSize (h : Heap) (node v : ℕ) : Heap :=
  { h with mem := h.mem.store (node + A.ptrBytes) A.ptrBytes v }

def setHead (h : Heap) (v : ℕ) : Heap := { h with fl := { h.fl with head := v } }

def setHeader (h : Heap) (header origSize blockSize padding : ℕ) : Heap :=
  { h with
    mem := ((h.mem.store header A.ptrBytes origSize).store
      (header + A.ptrBytes) A.ptrBytes blockSize).store
      (header + 2 * A.ptrBytes) A.ptrBytes padding }

variable {A}

@[simp] theorem setNodeNext_fl (h : Heap) (p v : ℕ) : (h.setNodeNext A p v).fl = h.fl := rfl
@[simp] theorem setNodeBlockSize_fl (h : Heap) (p v : ℕ) :
    (h.setNodeBlockSize A p v).fl = h.fl := rfl
@[simp] theorem setHead_mem (h : Heap) (v : ℕ) : (h.setHead v).mem = h.mem := rfl
@[simp] theorem setHeader_fl (h : Heap) (p o b d : ℕ) : (h.setHeader A p o b d).fl = h.fl := rfl

end Heap

/-! ## Initialisation -/

def freeListFreeAll (h : Heap) : Heap :=
  let h := { h with fl := { h.fl with used := 0 } }
  let firstNode := h.fl.data
  let h := h.setNodeBlockSize A firstNode h.fl.size
  let h := h.setNodeNext A firstNode 0
  h.setHead firstNode

def freeListInit (h : Heap) (data size : ℕ) : Option Heap := do
  let start ← alignForwardUintptr A data A.maxAlign
  let adjustment := A.sub start data
  if A.add size A.sizeofNode > adjustment then
    some (freeListFreeAll A
      { h with fl := { h.fl with data := start, size := A.sub size adjustment } })
  else none

/-! ## The two searches

Both return the node, its padding and the node before it, with address 0 for no node. -/

def freeListFindFirstLoop (m : Mem) (size alignment : ℕ) :
    ℕ → (node prevNode padding : ℕ) → Option (ℕ × ℕ × ℕ)
  | 0, _, _, _ => none
  | fuel + 1, node, prevNode, padding =>
    if node = 0 then some (node, padding, prevNode)
    else do
      let padding ← calcPaddingWithHeader A node alignment A.sizeofHeader
      let requiredSpace := A.add size padding
      if nodeBlockSize A m node ≥ requiredSpace then some (node, padding, prevNode)
      else freeListFindFirstLoop m size alignment fuel (nodeNext A m node) node padding

/-- Every node takes at least a byte of the region, so `size + 1` rounds reach the end. -/
def freeListFindFirst (h : Heap) (size alignment : ℕ) : Option (ℕ × ℕ × ℕ) :=
  freeListFindFirstLoop A h.mem size alignment (h.fl.size + 1) h.fl.head 0 0

structure Best where
  smallestDiff : ℕ
  node : ℕ
  padding : ℕ
  prevNode : ℕ
  deriving DecidableEq, Repr

def freeListFindBestLoop (m : Mem) (size alignment : ℕ) :
    ℕ → (node prevNode : ℕ) → Best → Option Best
  | 0, _, _, _ => none
  | fuel + 1, node, prevNode, best =>
    if node = 0 then some best
    else do
      let padding ← calcPaddingWithHeader A node alignment A.sizeofHeader
      let requiredSpace := A.add size padding
      let diff := A.sub (nodeBlockSize A m node) requiredSpace
      let best :=
        if nodeBlockSize A m node ≥ requiredSpace ∧ diff < best.smallestDiff then
          { smallestDiff := diff, node, padding, prevNode }
        else best
      freeListFindBestLoop m size alignment fuel (nodeNext A m node) node best

def freeListFindBest (h : Heap) (size alignment : ℕ) : Option (ℕ × ℕ × ℕ) := do
  let best ← freeListFindBestLoop A h.mem size alignment (h.fl.size + 1) h.fl.head 0
    { smallestDiff := A.modulus - 1, node := 0, padding := 0, prevNode := 0 }
  return (best.node, best.padding, best.prevNode)

/-! ## Editing the list -/

def freeListNodeInsert (h : Heap) (prevNode newNode : ℕ) : Heap :=
  if prevNode = 0 then (h.setNodeNext A newNode h.fl.head).setHead newNode
  else if nodeNext A h.mem prevNode = 0 then
    (h.setNodeNext A prevNode newNode).setNodeNext A newNode 0
  else (h.setNodeNext A newNode (nodeNext A h.mem prevNode)).setNodeNext A prevNode newNode

def freeListNodeRemove (h : Heap) (prevNode delNode : ℕ) : Heap :=
  if prevNode = 0 then h.setHead (nodeNext A h.mem delNode)
  else h.setNodeNext A prevNode (nodeNext A h.mem delNode)

/-! ## Allocation -/

/-- The rest of `free_list_alloc` once a search has returned a node. -/
def freeListPlace (h : Heap) (node padding prevNode size origSize : ℕ) : Heap × ℕ :=
  let alignmentPadding := A.sub padding A.sizeofHeader
  let requiredSpace := A.add size padding
  let remaining := A.sub (nodeBlockSize A h.mem node) requiredSpace
  let splits := remaining ≥ A.sizeofNode + A.sizeofNode
  let newNode := A.add node requiredSpace
  let h' :=
    if splits then freeListNodeInsert A (h.setNodeBlockSize A newNode remaining) node newNode
    else h
  let requiredSpace := if splits then requiredSpace else nodeBlockSize A h.mem node
  let h' := freeListNodeRemove A h' prevNode node
  let headerPtr := A.add node alignmentPadding
  let h' := h'.setHeader A headerPtr origSize requiredSpace alignmentPadding
  ({ h' with fl := { h'.fl with used := A.add h'.fl.used requiredSpace } },
    A.add headerPtr A.sizeofHeader)

def freeListAlloc (h : Heap) (size alignment : ℕ) : Option (Heap × ℕ) := do
  let origSize := size
  let size := if size < A.sizeofNode then A.sizeofNode else size
  let alignment := if alignment < A.maxAlign then A.maxAlign else alignment
  let size ← alignForwardSize A size alignment
  let (node, padding, prevNode) ←
    match h.fl.policy with
    | .findBest => freeListFindBest A h size alignment
    | .findFirst => freeListFindFirst A h size alignment
  if node = 0 then some (h, 0)
  else some (freeListPlace A h node padding prevNode size origSize)

/-! ## Release -/

def freeListCoalescence (h : Heap) (prevNode freeNode : ℕ) : Heap :=
  let next := nodeNext A h.mem freeNode
  let h :=
    if next ≠ 0 ∧ A.add freeNode (nodeBlockSize A h.mem freeNode) = next then
      let h := h.setNodeBlockSize A freeNode
        (A.add (nodeBlockSize A h.mem freeNode) (nodeBlockSize A h.mem next))
      freeListNodeRemove A h freeNode (nodeNext A h.mem freeNode)
    else h
  if prevNode ≠ 0 ∧ A.add prevNode (nodeBlockSize A h.mem prevNode) = freeNode then
    let h := h.setNodeBlockSize A prevNode
      (A.add (nodeBlockSize A h.mem prevNode) (nodeBlockSize A h.mem freeNode))
    freeListNodeRemove A h prevNode freeNode
  else h

/-- The loop that finds the place of the freed node and inserts it there, unless it is the last. -/
def freeListFreeLoop (freeNode : ℕ) : ℕ → Heap → (node prevNode : ℕ) → Option (Heap × ℕ × ℕ)
  | 0, _, _, _ => none
  | fuel + 1, h, node, prevNode =>
    if node = 0 then some (h, node, prevNode)
    else if freeNode < node then some (freeListNodeInsert A h prevNode freeNode, node, prevNode)
    else freeListFreeLoop freeNode fuel h (nodeNext A h.mem node) node

def freeListFree (h : Heap) (ptr : ℕ) : Option Heap := do
  if ptr = 0 then return h
  let header := A.sub ptr A.sizeofHeader
  let freeNode := A.sub header (headerPadding A h.mem header)
  let h := h.setNodeBlockSize A freeNode (headerBlockSize A h.mem header)
  let h := h.setNodeNext A freeNode 0
  let (h, node, prevNode) ← freeListFreeLoop A freeNode (h.fl.size + 1) h h.fl.head 0
  let h := if node = 0 then freeListNodeInsert A h prevNode freeNode else h
  let h := { h with fl := { h.fl with used := A.sub h.fl.used (nodeBlockSize A h.mem freeNode) } }
  return freeListCoalescence A h prevNode freeNode

end Strela.Allocator
