import Strela.Allocator.Spared
import Strela.Lib.Buffers

/-! # What the calls on buffers read and store

The calls that give and take back buffers touch the memory through the free list only.
A byte outside of the blocks that the list may use can be any byte: the calls return the
same and leave it.
-/

namespace Strela.Lib

open Foundation Foundation.Unsigned Strela.Allocator

variable {A : Abi} {M : Mapping A} {w : World} {live : List Alloc} {a : Alloc} {n x : ℕ}

def World.setByte (w : World) (x : ℕ) (v : UInt8) : World :=
  { w with mem := w.mem.storeByte x v }

def BufferState.setByte (s : BufferState) (x : ℕ) (v : UInt8) : BufferState :=
  ⟨s.world.setByte x v, s.live⟩

theorem BufferState.setByte_self (s : BufferState) (x : ℕ) :
    s.setByte x (s.world.mem x) = s := by
  have hw : s.world.setByte x (s.world.mem x) = s.world :=
    congrArg (fun m => { s.world with mem := m }) (Mem.storeByte_self s.world.mem x)
  rw [BufferState.setByte, hw]

theorem roundedSize_lt (c : CacheLine A cachelineSize) (M : Mapping A) {size : ℕ}
    (hs : size + 2 * cachelineSize ≤ A.modulus) :
    roundedSize A size cachelineSize + cachelineSize < A.modulus := by
  have hnode := sizeofNode_le_line c
  have hbig := M.modulus_ge
  have hround : roundedSize A size cachelineSize < max size A.sizeofNode + cachelineSize := by
    rw [roundedSize, c.roundedAlignment_eq]
    exact roundUp_lt _ c.pow2.pos
  simp only [cachelineSize] at *
  omega

theorem freeListAlloc_lines_setByte (c : CacheLine A cachelineSize) (B : Backed M w live)
    {size : ℕ} (hlt : size < A.modulus) (ho : A.modulus < size + 2 * cachelineSize →
      freeBlocks A w.heap = []) (hx : x ∉ footprint (freeBlocks A w.heap)) (v : UInt8) :
    freeListAlloc A (w.heap.setByte x v) size cachelineSize =
      (freeListAlloc A w.heap size cachelineSize).map fun r => (r.1.setByte x v, r.2) := by
  by_cases hs : size + 2 * cachelineSize ≤ A.modulus
  · have hround := roundedSize_lt c M hs
    have hq : Allocator.Request A size cachelineSize := ⟨c.pow2, c.lt, by omega⟩
    have hw : NoWrap A (roundedSize A size cachelineSize) (roundedAlignment A cachelineSize)
        (freeBlocks A w.heap) := fun f hf => by
      rwa [c.roundedAlignment_eq, c.padding_eq (B.free_onLines hf).1]
    exact freeListAlloc_setByte v B.represents hq hw hx
  · have hhead := B.head_of_nil (ho (by omega))
    have hnode := sizeofNode_le_line c
    have hbig := M.modulus_ge
    simp only [cachelineSize] at hs hnode
    have hn : A.sizeofNode ≤ size := by omega
    have hnull := freeListAlloc_of_head c hhead B.policy hlt hn
    have hnull' := freeListAlloc_of_head (h := w.heap.setByte x v) c hhead B.policy hlt hn
    rw [hnull, hnull']
    rfl

theorem strelaBufferAlloc_setByte (c : CacheLine A cachelineSize) (B : Backed M w live)
    (ho : w.ok = true → ¬ Overruns A w n) (hx : x ∉ footprint (freeBlocks A w.heap)) (v : UInt8) :
    strelaBufferAlloc A n (w.setByte x v) =
      (strelaBufferAlloc A n w).map fun r => (r.1, r.2.setByte x v) := by
  have hok : (w.setByte x v).ok = w.ok := rfl
  have hmod : A.mul n wordSize < A.modulus := Nat.mod_lt _ (by have := M.modulus_ge; omega)
  unfold strelaBufferAlloc
  rw [hok]
  cases hw : w.ok with
  | false => rfl
  | true =>
    simp only [if_true]
    by_cases hg : A.mul n wordSize ≥ n
    swap
    · rw [if_neg hg, if_neg hg]
      rfl
    have halloc := freeListAlloc_lines_setByte c B hmod (fun hbig => by
      by_contra hne
      exact ho hw ⟨hg, hbig, hne⟩) hx v
    have hheap : (w.setByte x v).heap = w.heap.setByte x v := rfl
    simp only [if_pos hg, hheap]
    change ((w.setByte x v).orAbort (freeListAlloc A (w.heap.setByte x v) (A.mul n wordSize)
      cachelineSize) >>= _) = Except.map _ (w.orAbort (freeListAlloc A w.heap (A.mul n wordSize)
        cachelineSize) >>= _)
    rw [halloc]
    cases hres : freeListAlloc A w.heap (A.mul n wordSize) cachelineSize with
    | none => rfl
    | some r =>
      obtain ⟨h', ptr⟩ := r
      by_cases hp : ptr ≠ 0
      · have hok' : (w.setHeap h').ok = true := hw
        have hok'' : ((w.setByte x v).setHeap (h'.setByte x v)).ok = true := hw
        simp only [World.orAbort, Option.map_some, bind, Except.bind, if_pos hp,
          internalPtrToBufferOffset, hok', hok'', if_true]
        rfl
      · simp only [World.orAbort, Option.map_some, bind, Except.bind, if_neg hp]
        rfl

theorem strelaBufferFree_setByte (B : Backed M w live) (ha : a ∈ live)
    (hx : w.ok = true → x ∉ footprint (a.block A :: freeBlocks A w.heap)) (v : UInt8) :
    strelaBufferFree A (M.buffer a) (w.setByte x v) =
      (strelaBufferFree A (M.buffer a) w).map fun w' => w'.setByte x v := by
  cases hok : w.ok with
  | false =>
    have hok' : (w.setByte x v).ok = false := hok
    simp only [strelaBufferFree, withBuffer, hok, hok']
    rfl
  | true =>
    have hok' : (w.setByte x v).ok = true := hok
    have hvalid : ¬ ¬ (M.buffer a).valid = true := by simp [Mapping.buffer]
    have hptr := strelaBufferToPtr_eq B ha hok
    have hptr' : strelaBufferToPtr A (M.buffer a) (w.setByte x v) = .ok a.ptr := by
      rw [← hptr]
      simp only [strelaBufferToPtr, hok, hok']
      rfl
    have hfree : freeListFree A (w.setByte x v).heap a.ptr =
        (freeListFree A w.heap a.ptr).map fun h' => h'.setByte x v := by
      have hheap : (w.setByte x v).heap = w.heap.setByte x v := rfl
      rw [hheap]
      exact freeListFree_setByte v B.represents ha (hx hok)
    rw [strelaBufferFree, withBuffer, withBuffer, if_pos hok, if_pos hok', if_neg hvalid,
      if_neg hvalid, hptr, hptr', ok_bind, ok_bind, hfree]
    cases freeListFree A w.heap a.ptr with
    | none => rfl
    | some h' => rfl

theorem strelaBufferFreeAll_setByte
    (hx : w.ok = true → OffNode A x w.dev.bufferFreeList.data) (v : UInt8) :
    strelaBufferFreeAll A (w.setByte x v) = (strelaBufferFreeAll A w).setByte x v := by
  unfold strelaBufferFreeAll
  have hok : (w.setByte x v).ok = w.ok := rfl
  rw [hok]
  split
  · rename_i hw
    exact congrArg (World.setHeap w) (freeListFreeAll_setByte (h := w.heap) v (hx hw))
  · rfl

end Strela.Lib
