import Strela.Lib.World

/-! # Kernels and buffers

The calls on bitstreams and data buffers. Both kinds of memory are managed by
the allocators in place; a copy moves bytes within the memory of the process.
-/

namespace Strela.Lib

open Foundation Strela.Allocator

def wordSize : ℕ := 4

def kernelSize : ℕ := 80

def tensorMemorySize : ℕ := 1024 * 1024 * 50

def cachelineSize : ℕ := 64

def syncRead : U32 := 1

def syncWrite : U32 := 2

def syncFini : U32 := 4

def memcpy (m : Mem) (dst src n : ℕ) : Mem := fun x =>
  if dst ≤ x ∧ x < dst + n then m (src + (x - dst)) else m x

variable (A : Abi) (os : Os)

def isAligned (ptr align : ℕ) : Bool := ptr % align == 0

/-! ## Kernels -/

def Kernel.accepted (k : Kernel) : Bool := k.valid && decide (k.handle < 128)

def strelaKernelAlloc (w : World) : Exec (Kernel × World) :=
  if w.ok then
    let (ptr, pool, mem) := poolAlloc A w.dev.kernelPool w.mem
    let w := { w with dev := { w.dev with kernelPool := pool }, mem }
    if ptr ≠ 0 then
      let handle := A.sub ptr pool.buf / (kernelSize * wordSize)
      if handle < 128 then .ok (⟨true, handle⟩, w) else w.abort
    else .ok (⟨false, 0⟩, w.setErr errNoMem)
  else .ok (⟨false, 0⟩, w)

def strelaSync (handle flags : U32) (offsetWords words : ℕ) (w : World) : World :=
  if w.ok ∧ words ≠ 0 then
    match w.ask os (.gemSync handle flags (A.mul offsetWords wordSize) (A.mul words wordSize)) with
    | (.error e, w) => w.setErr e
    | (.ok _, w) => w
  else w

def checkKernel (kernel : Kernel) (w : World) : World :=
  if w.ok ∧ ¬ kernel.accepted then w.setErr errBadArg else w

def strelaKernelSet (kernel : Kernel) (data : ℕ) (w : World) : World :=
  let w := checkKernel kernel w
  if w.ok then
    let ptr := A.add w.dev.kernelPool.buf (kernel.handle * kernelSize * wordSize)
    let w := { w with mem := memcpy w.mem ptr data (kernelSize * wordSize) }
    strelaSync A os w.dev.kernelsBoHandle (syncFini ||| syncWrite) (kernel.handle * kernelSize)
      kernelSize w
  else w

/-- Freeing one kernel is not implemented; the call prints a message. -/
def strelaKernelFree (kernel : Kernel) (w : World) : World := checkKernel kernel w

def strelaKernelFreeAll (w : World) : World :=
  if w.ok then
    let (pool, mem) := poolFreeAll A w.dev.kernelPool w.mem
    { w with dev := { w.dev with kernelPool := pool }, mem }
  else w

/-! ## Buffers -/

def internalPtrToBufferOffset (ptr : ℕ) (w : World) : Exec ℕ :=
  if w.ok then .ok (A.sub ptr w.dev.tensorsBoMap / wordSize) else w.abort

def World.heap (w : World) : Heap := ⟨w.mem, w.dev.bufferFreeList⟩

def World.setHeap (w : World) (h : Heap) : World :=
  { w with dev := { w.dev with bufferFreeList := h.fl }, mem := h.mem }

def strelaBufferAlloc (sizeWords : ℕ) (w : World) : Exec (Buffer × World) :=
  if w.ok then
    let sizeBytes := A.mul sizeWords wordSize
    if sizeBytes ≥ sizeWords then do
      let (h, ptr) ← w.orAbort (freeListAlloc A w.heap sizeBytes 64)
      let w := w.setHeap h
      if ptr ≠ 0 then
        let offset ← internalPtrToBufferOffset A ptr w
        .ok (⟨true, offset, sizeWords⟩, w)
      else .ok (⟨false, 0, 0⟩, w.setErr errNoMem)
    else .ok (⟨false, 0, 0⟩, w.setErr errBadArg)
  else .ok (⟨false, 0, 0⟩, w)

def strelaBufferToPtr (buffer : Buffer) (w : World) : Exec ℕ :=
  if ¬ buffer.valid ∨ ¬ w.ok then w.abort
  else .ok (A.add w.dev.tensorsBoMap (A.mul buffer.offsetWordsFromBase wordSize))

def strelaBufferFromPtr (ptr : ℕ) (w : World) : Exec Buffer :=
  if w.ok then
    if w.dev.tensorsBoMap ≤ ptr ∧ ptr < A.add w.dev.tensorsBoMap tensorMemorySize then do
      let offset ← internalPtrToBufferOffset A ptr w
      let size := headerOrigSize A w.mem (A.sub ptr A.sizeofHeader)
      if size % wordSize ≠ 0 then w.abort else .ok ⟨true, offset, size / wordSize⟩
    else .ok ⟨false, 0, 0⟩
  else .ok ⟨false, 0, 0⟩

/-- The calls on one buffer that need its address, given what they do with it. -/
def withBuffer (buffer : Buffer) (act : ℕ → World → Exec World) (w : World) : Exec World :=
  if w.ok then
    if ¬ buffer.valid then .ok (w.setErr errBadArg)
    else do
      let ptr ← strelaBufferToPtr A buffer w
      act ptr w
  else .ok w

def strelaBufferSetData (buffer : Buffer) (ptr : ℕ) : World → Exec World :=
  withBuffer A buffer fun buf w =>
    .ok { w with mem := memcpy w.mem buf ptr (A.mul buffer.sizeWords wordSize) }

def strelaBufferGetData (buffer : Buffer) (ptr : ℕ) : World → Exec World :=
  withBuffer A buffer fun buf w =>
    .ok { w with mem := memcpy w.mem ptr buf (A.mul buffer.sizeWords wordSize) }

def strelaBufferFree (buffer : Buffer) : World → Exec World :=
  withBuffer A buffer fun buf w => (w.orAbort (freeListFree A w.heap buf)).map w.setHeap

def strelaBufferFreeAll (w : World) : World :=
  if w.ok then w.setHeap (freeListFreeAll A w.heap) else w

def strelaBufferSync (buffer : Buffer) (flags : U32) (offset count : ℕ) (w : World) : World :=
  let total := tensorMemorySize / wordSize
  let w :=
    if w.ok ∧ (¬ buffer.valid ∨ offset > buffer.sizeWords ∨ count > buffer.sizeWords - offset ∨
        buffer.offsetWordsFromBase > total ∨
        buffer.sizeWords > total - buffer.offsetWordsFromBase) then
      w.setErr errBadArg
    else w
  if w.ok then
    strelaSync A os w.dev.tensorsBoHandle flags (A.add buffer.offsetWordsFromBase offset) count w
  else w

def cachelineWords : ℕ := cachelineSize / wordSize

def strelaBufferFlush (buffer : Buffer) (offset count : ℕ) (w : World) : World :=
  -- The complement of the low bits, in the width of `size_t`.
  let mask := A.modulus - cachelineWords
  let start := offset &&& mask
  let stop := A.sub (A.add (A.add offset count) cachelineWords) 1 &&& mask
  if count ≠ 0 then
    strelaBufferSync A os buffer (syncFini ||| syncWrite) start (A.sub stop start) w
  else w

def strelaBufferInval (buffer : Buffer) (offset count : ℕ) (w : World) : World :=
  let w :=
    if !isAligned (A.mul offset wordSize) cachelineSize ||
        !isAligned (A.mul count wordSize) cachelineSize then
      w.setErr errBadArg
    else w
  strelaBufferSync A os buffer syncRead offset count w

end Strela.Lib
