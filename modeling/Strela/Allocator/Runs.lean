import Strela.Allocator.Free
import Strela.Allocator.Initialisers
import Strela.Foundation.Transition

/-! # Runs of the free list allocator

A run starts at `free_list_init` and takes calls of the allocator and writes of
its clients, each inside the client's own payload, in any order. The state keeps
beside the heap the allocations that are live, each with its request and the
header as it was when `free_list_alloc` returned.
-/

namespace Strela.Allocator

open Foundation Foundation.Unsigned
open scoped List

/-- A buffer whose part from the first aligned address on holds at least one node. -/
structure Backing (A : Abi) where
  data : ℕ
  size : ℕ
  data_pos : 0 < data
  bound : data + size ≤ A.modulus
  room : roundUp data A.maxAlign + A.sizeofNode ≤ data + size

namespace Backing

variable {A : Abi} (B : Backing A)

def start : ℕ := roundUp B.data A.maxAlign

def length : ℕ := B.data + B.size - B.start

end Backing

structure State where
  heap : Heap
  live : List Alloc

inductive Op
  | alloc (size alignment : ℕ)
  | free (a : Alloc)
  | freeAll
  | write (x : ℕ) (v : UInt8)
  deriving DecidableEq

def Op.IsCall : Op → Prop
  | write _ _ => False
  | _ => True

variable (A : Abi)

def written (m : Mem) (ptr size alignment : ℕ) : Alloc where
  ptr := ptr
  origSize := size
  alignment := alignment
  blockSize := headerBlockSize A m (ptr - A.sizeofHeader)
  padding := headerPadding A m (ptr - A.sizeofHeader)

/-- What the callers keep to: requests that do not wrap, live pointers, one's own payload. -/
def Allowed (s : State) : Op → Prop
  | .alloc size alignment => Request A size alignment ∧
      NoWrap A (roundedSize A size alignment) (roundedAlignment A alignment) (freeBlocks A s.heap)
  | .free a => a ∈ s.live
  | .freeAll => True
  | .write x _ => ∃ a ∈ s.live, x ∈ a.payload

def exec (s : State) : Op → Option State
  | .alloc size alignment => do
    let (heap, ptr) ← freeListAlloc A s.heap size alignment
    if ptr = 0 then some { s with heap }
    else some ⟨heap, written A heap.mem ptr size alignment :: s.live⟩
  | .free a => do
    let heap ← freeListFree A s.heap a.ptr
    some ⟨heap, s.live.erase a⟩
  | .freeAll => some ⟨freeListFreeAll A s.heap, []⟩
  | .write x v => some { s with heap := { s.heap with mem := s.heap.mem.storeByte x v } }

/-- The runs over one backing buffer, from any memory and with either policy. -/
def heapLts (B : Backing A) : Lts State Op where
  start s := (∃ h, freeListInit A h B.data B.size = some s.heap) ∧ s.live = []
  step s op s' := Allowed A s op ∧ exec A s op = some s'

variable {A} {B : Backing A} {s s' : State} {op : Op} {h : Heap} {free : List Block}
  {live : List Alloc} {a c : Alloc} {x : ℕ} {v : UInt8}

/-! ## The invariant of the run -/

/-- The heap manages the aligned part of the buffer and represents its list and the live blocks. -/
structure Valid (B : Backing A) (s : State) : Prop where
  data : s.heap.fl.data = B.start
  size : s.heap.fl.size = B.length
  represents : Represents A s.heap (freeBlocks A s.heap) s.live

theorem Valid.of_represents (hd : s.heap.fl.data = B.start) (hs : s.heap.fl.size = B.length)
    (R : Represents A s.heap free s.live) : Valid B s :=
  ⟨hd, hs, R.freeBlocks_eq.symm ▸ R⟩

theorem freeListFreeAll_spec (hpos : 0 < h.fl.data) (hb : h.fl.data + h.fl.size ≤ A.modulus)
    (ha : h.fl.data % A.maxAlign = 0) (hr : A.sizeofNode ≤ h.fl.size) :
    Represents A (freeListFreeAll A h) [⟨h.fl.data, h.fl.size⟩] [] where
  data_pos := hpos
  bound := hb
  tiles := .singleton (A.sizeofNode_pos.trans_le hr)
  ordered := List.pairwise_singleton _ _
  aligned := by simpa using ha
  room := by simpa using hr
  chain := by
    refine ⟨rfl, ?_, ?_⟩
    · calc nodeBlockSize A (freeListFreeAll A h).mem h.fl.data
        _ = nodeBlockSize A (h.setNodeBlockSize A h.fl.data h.fl.size).mem h.fl.data :=
            nodeBlockSize_setNodeNext
        _ = h.fl.size := nodeBlockSize_setNodeBlockSize (by omega)
    · exact nodeNext_setNodeNext (h := h.setNodeBlockSize A h.fl.data h.fl.size)
        (Nat.pow_pos (by decide))
  used := rfl
  placed := by simp
  headers := by simp
  separated := List.pairwise_singleton _ _

theorem Backing.start_add_length (B : Backing A) : B.start + B.length = B.data + B.size := by
  have := B.room
  unfold length start
  omega

theorem Backing.node_le_length (B : Backing A) : A.sizeofNode ≤ B.length := by
  have := B.room
  unfold length start
  omega

theorem freeListInit_spec {h' : Heap} (hi : freeListInit A h B.data B.size = some h') :
    h'.fl.data = B.start ∧ h'.fl.size = B.length ∧ Represents A h' [⟨B.start, B.length⟩] [] := by
  have hb := B.bound
  have hl := B.start_add_length
  have hn := B.node_le_length
  have hpos := A.sizeofNode_pos
  have hge : B.data ≤ B.start := le_roundUp _ _
  have hd := B.data_pos
  obtain ⟨hstart, hlength⟩ : alignedStart A B.data A.maxAlign = B.start ∧
      alignedLength A B.data B.size A.maxAlign = B.length :=
    aligned_eq (by omega) (by unfold Backing.start at hl; omega)
      (by unfold Backing.start at hl; omega)
  rw [freeListInit_eq_ite (by omega), hstart, hlength] at hi
  split at hi
  · obtain rfl := Option.some.inj hi
    exact ⟨rfl, rfl, freeListFreeAll_spec (by simp only; omega) (by simp only; omega)
      (roundUp_mod _ A.maxAlign_pos) (by simpa using hn)⟩
  · cases hi

theorem represents_write (R : Represents A h free live) (ha : a ∈ live) (hx : x ∈ a.payload) :
    Represents A { h with mem := h.mem.storeByte x v } free live := by
  have hoff : h.mem.EqOff {x} (h.mem.storeByte x v) := fun y hy => if_neg hy
  obtain ⟨hin, hpast⟩ := (R.placed a ha).payload_inside hx
  apply R.eqOff hoff
  · intro b hb y hy
    obtain rfl := Set.mem_singleton_iff.mp hy
    have h₁ := R.free_apart_live hb ha
    have h₂ := R.room b hb
    simp only [Block.Apart, Block.mem_def, Block.stop] at h₁ hin
    omega
  · intro c hc y hl hu hy
    obtain rfl := Set.mem_singleton_iff.mp hy
    rcases eq_or_ne a c with rfl | hne
    · omega
    · have h₁ := R.live_apart ha hc hne
      have h₂ := (R.placed c hc).header_inside hl hu
      simp only [Block.Apart, Block.mem_def] at h₁ h₂ hin
      omega

/-! ## Steps and runs -/

/-- The addresses an operation may write. -/
def touched (A : Abi) (s : State) : Op → Set ℕ
  | .alloc _ _ => footprint (freeBlocks A s.heap)
  | .free a => footprint (a.block A :: freeBlocks A s.heap)
  | .freeAll => Set.univ
  | .write x _ => {x}

theorem written_eq {m : Mem} {new : Alloc} (hd : HeaderAt A m new) :
    written A m new.ptr new.origSize new.alignment = new := by
  have h₁ := hd.blockSize
  have h₂ := hd.padding
  unfold Alloc.header at h₁ h₂
  cases new
  simp_all [written]

/-- An allowed operation returns, keeps the invariant and writes only where it may. -/
theorem exec_spec (V : Valid B s) (ha : Allowed A s op) :
    ∃ s', exec A s op = some s' ∧ Valid B s' ∧
      s.heap.mem.EqOff (touched A s op) s'.heap.mem := by
  cases op with
  | alloc size alignment =>
    rcases freeListAlloc_spec V.represents ha.1 ha.2 with ⟨he, -⟩ |
      ⟨h', new, free', he, rfl, rfl, hd, hs, -, hoff, R⟩
    · exact ⟨s, by simp [exec, he], V, .refl _ _⟩
    · have hptr := (R.placed new List.mem_cons_self).ptr_ne_zero
      refine ⟨⟨h', new :: s.live⟩, ?_, ?_, hoff⟩
      · simp [exec, he, hptr, written_eq (R.headers new List.mem_cons_self)]
      · exact .of_represents (hd.trans V.data) (hs.trans V.size) R
  | free a =>
    obtain ⟨h', free', he, hd, hs, -, hoff, R⟩ := freeListFree_spec V.represents ha
    exact ⟨⟨h', s.live.erase a⟩, by simp [exec, he],
      .of_represents (hd.trans V.data) (hs.trans V.size) R, hoff⟩
  | freeAll =>
    refine ⟨_, rfl, .of_represents (s := ⟨freeListFreeAll A s.heap, []⟩) V.data V.size
      (freeListFreeAll_spec V.represents.data_pos V.represents.bound ?_ ?_), fun x hx => ?_⟩
    · rw [V.data]
      exact roundUp_mod _ A.maxAlign_pos
    · rw [V.size]
      exact B.node_le_length
    · exact absurd (Set.mem_univ x) hx
  | write x v =>
    obtain ⟨a, ha, hx⟩ := ha
    refine ⟨_, rfl, .of_represents V.data V.size (represents_write V.represents ha hx), ?_⟩
    exact fun y hy => if_neg hy

theorem valid_of_reach (hr : (heapLts A B).Reach s) : Valid B s := by
  refine hr.invariant (P := Valid B) ?_ ?_
  · rintro s ⟨⟨h, hi⟩, hl⟩
    obtain ⟨hd, hs, R⟩ := freeListInit_spec hi
    exact .of_represents hd hs (hl ▸ R)
  · rintro s op s' - V ⟨ha, he⟩
    obtain ⟨t, ht, V', -⟩ := exec_spec V ha
    obtain rfl := Option.some.inj (ht.symm.trans he)
    exact V'

end Strela.Allocator
