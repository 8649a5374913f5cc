import Strela.Allocator.Layout

/-! # The pool allocator

Chunks of one size with a list threaded through the free ones. The library keeps
the bitstreams of the kernels in one.
-/

namespace Strela.Allocator

open Foundation

structure Pool where
  buf : ℕ
  bufLen : ℕ
  chunkSize : ℕ
  head : ℕ
  deriving DecidableEq, Repr

variable (A : Abi)

def Abi.sizeofPoolNode : ℕ := A.ptrBytes

def poolPush (p : Pool × Mem) (node : ℕ) : Pool × Mem :=
  ({ p.1 with head := node }, p.2.store node A.ptrBytes p.1.head)

/-- The chunks from the first on are pushed one after another, so the last is the first to go. -/
def poolFreeAllLoop : ℕ → ℕ → Pool × Mem → Pool × Mem
  | 0, _, p => p
  | n + 1, i, p => poolFreeAllLoop n (i + 1) (poolPush A p (A.add p.1.buf (A.mul i p.1.chunkSize)))

def poolFreeAll (p : Pool) (m : Mem) : Pool × Mem :=
  poolFreeAllLoop A (p.bufLen / p.chunkSize) 0 ({ p with head := 0 }, m)

def poolInit (m : Mem) (backing length chunkSize chunkAlignment : ℕ) : Option (Pool × Mem) := do
  let start ← alignForwardUintptr A backing chunkAlignment
  let length := A.sub length (A.sub start backing)
  let chunkSize ← alignForwardSize A chunkSize chunkAlignment
  if A.sizeofPoolNode ≤ chunkSize ∧ chunkSize ≤ length then
    some (poolFreeAll A ⟨start, length, chunkSize, 0⟩ m)
  else none

/-- The chunk at the head, zeroed, or the null pointer. -/
def poolAlloc (p : Pool) (m : Mem) : ℕ × Pool × Mem :=
  if p.head = 0 then (0, p, m)
  else (p.head, { p with head := m.load p.head A.ptrBytes }, m.store p.head p.chunkSize 0)

def poolFree (p : Pool) (m : Mem) (ptr : ℕ) : Option (Pool × Mem) :=
  if ptr = 0 then some (p, m)
  else if ¬ (p.buf ≤ ptr ∧ ptr < A.add p.buf p.bufLen) then none
  else if A.sub ptr p.buf % p.chunkSize ≠ 0 then none
  else some (poolPush A (p, m) ptr)

end Strela.Allocator
