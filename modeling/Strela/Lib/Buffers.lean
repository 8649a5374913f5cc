import Strela.Allocator.Lines
import Strela.Lib.Calls

/-! # Runs over the data buffers

A run starts when the tensor object has just been mapped and its free list made,
and takes calls for buffers, writes of the clients inside them, and whatever else
leaves the list and the tensor memory alone. The state keeps the buffers that
were handed out and not released. Every buffer is aligned to a cache line, and in
every state each has an allocation of the free list behind it.
-/

namespace Strela.Lib

open Foundation Foundation.Unsigned Strela.Allocator
open scoped List

/-- Where the tensor object is mapped: whole pages that end below the top of the address space. -/
structure Mapping (A : Abi) where
  base : ℕ
  base_pos : 0 < base
  page : 4096 ∣ base
  bound : base + tensorMemorySize < A.modulus

structure BufferState where
  world : World
  live : List Buffer

inductive BufferOp
  | alloc (sizeWords : ℕ)
  | free (b : Buffer)
  | freeAll
  | write (x : ℕ) (v : UInt8)
  | other
  deriving DecidableEq

variable {A : Abi}

namespace Mapping

variable (M : Mapping A)

def addr (b : Buffer) : ℕ := M.base + b.offsetWordsFromBase * wordSize

def bytes (b : Buffer) : Block := ⟨M.addr b, b.sizeWords * wordSize⟩

def buffer (a : Alloc) : Buffer := ⟨true, (a.ptr - M.base) / wordSize, a.origSize / wordSize⟩

/-- The tensor memory, its free list and where it is mapped have not changed. -/
structure Same (w w' : World) : Prop where
  list : w'.dev.bufferFreeList = w.dev.bufferFreeList
  base : w'.dev.tensorsBoMap = w.dev.tensorsBoMap
  mem : ∀ x, M.base ≤ x → x < M.base + tensorMemorySize → w'.mem x = w.mem x

end Mapping

/-- The steps of a run. A call on a device with an error releases nothing. -/
inductive BufferStep (M : Mapping A) : BufferState → BufferOp → BufferState → Prop
  | alloc {s : BufferState} {n : ℕ} {b : Buffer} {w : World} :
    n < A.modulus → strelaBufferAlloc A n s.world = .ok (b, w) →
    BufferStep M s (.alloc n) ⟨w, if b.valid then b :: s.live else s.live⟩
  | free {s : BufferState} {b : Buffer} {w : World} :
    b ∈ s.live → strelaBufferFree A b s.world = .ok w →
    BufferStep M s (.free b) ⟨w, if s.world.ok then s.live.erase b else s.live⟩
  | freeAll {s : BufferState} :
    BufferStep M s .freeAll
      ⟨strelaBufferFreeAll A s.world, if s.world.ok then [] else s.live⟩
  | write {s : BufferState} {b : Buffer} {x : ℕ} {v : UInt8} :
    b ∈ s.live → x ∈ M.bytes b →
    BufferStep M s (.write x v) ⟨{ s.world with mem := s.world.mem.storeByte x v }, s.live⟩
  | other {s : BufferState} {w : World} : M.Same s.world w → BufferStep M s .other ⟨w, s.live⟩

/-- The device is static, so that the policy, which nothing sets, is the first of the two. -/
def bufferLts (M : Mapping A) : Lts BufferState BufferOp where
  start s := s.live = [] ∧ s.world.dev.tensorsBoMap = M.base ∧
    s.world.dev.bufferFreeList.policy = .findFirst ∧
    ∃ h, freeListInit A h M.base tensorMemorySize = some s.world.heap
  step := BufferStep M

variable {M : Mapping A} {w w' : World} {live : List Alloc} {a : Alloc} {n : ℕ}

/-! ## The allocations behind the buffers -/

/-- The free list manages the tensor memory and represents the given allocations, each made of
whole cache lines and of whole words. -/
structure Backed (M : Mapping A) (w : World) (live : List Alloc) : Prop where
  base : w.dev.tensorsBoMap = M.base
  data : w.dev.bufferFreeList.data = M.base
  size : w.dev.bufferFreeList.size = tensorMemorySize
  policy : w.dev.bufferFreeList.policy = .findFirst
  represents : Represents A w.heap (freeBlocks A w.heap) live
  lines : ∀ a ∈ live, OnLines A cachelineSize a
  words : ∀ a ∈ live, wordSize ∣ a.origSize

theorem Mapping.modulus_ge (M : Mapping A) : 2 ^ 32 ≤ A.modulus := by
  have hb := M.bound
  have hk : 4 ≤ A.ptrBytes := by
    by_contra hlt
    have : 256 ^ A.ptrBytes ≤ 256 ^ 3 := Nat.pow_le_pow_right (by decide) (by omega)
    simp only [Abi.modulus, tensorMemorySize] at hb
    omega
  calc 2 ^ 32 = 256 ^ 4 := by norm_num
    _ ≤ A.modulus := Nat.pow_le_pow_right (by decide) hk

theorem Mapping.line_dvd_base (M : Mapping A) : cachelineSize ∣ M.base :=
  (by decide : cachelineSize ∣ 4096).trans M.page

namespace Backed

variable (B : Backed M w live)

include B

theorem free_onLines {b : Block} (hb : b ∈ freeBlocks A w.heap) :
    cachelineSize ∣ b.start ∧ cachelineSize ∣ b.size := by
  apply B.represents.free_onLines _ _ B.lines hb
  · simpa only [World.heap, B.data] using M.line_dvd_base
  · simp only [World.heap, B.size]
    decide

theorem free_inside {b : Block} (hb : b ∈ freeBlocks A w.heap) :
    M.base ≤ b.start ∧ b.stop ≤ M.base + tensorMemorySize := by
  simpa only [World.heap, B.data, B.size] using B.represents.free_inside hb

theorem live_inside (ha : a ∈ live) :
    M.base ≤ (a.block A).start ∧ (a.block A).stop ≤ M.base + tensorMemorySize := by
  simpa only [World.heap, B.data, B.size] using B.represents.live_inside ha

theorem ptr_eq (ha : a ∈ live) : (a.block A).start + cachelineSize = a.ptr :=
  (B.lines a ha).ptr (B.represents.placed a ha)

theorem line_dvd_ptr (ha : a ∈ live) : cachelineSize ∣ a.ptr := by
  rw [← B.ptr_eq ha]
  exact (B.lines a ha).start.add (dvd_refl _)

theorem addr_buffer (ha : a ∈ live) : M.addr (M.buffer a) = a.ptr := by
  have hdvd : wordSize ∣ a.ptr - M.base :=
    Nat.dvd_sub ((by decide : wordSize ∣ cachelineSize).trans (B.line_dvd_ptr ha))
      ((by decide : wordSize ∣ cachelineSize).trans M.line_dvd_base)
  have h₁ := B.ptr_eq ha
  have h₂ := (B.live_inside ha).1
  simp only [Mapping.addr, Mapping.buffer, Nat.div_mul_cancel hdvd]
  omega

theorem bytes_buffer (ha : a ∈ live) : M.bytes (M.buffer a) = a.payload := by
  rw [Mapping.bytes, B.addr_buffer ha]
  simp only [Mapping.buffer, Nat.div_mul_cancel (B.words a ha), Alloc.payload]

theorem buffer_inside (ha : a ∈ live) : (M.buffer a).offsetWordsFromBase * wordSize +
    (M.buffer a).sizeWords * wordSize ≤ tensorMemorySize := by
  have h₁ := B.bytes_buffer ha
  have h₂ := (B.represents.placed a ha).payload
  have h₃ := (B.represents.placed a ha).start_add
  have h₄ := B.live_inside ha
  have h₅ := congrArg Block.stop h₁
  simp only [Mapping.bytes, Mapping.addr, Block.stop, Alloc.payload, Alloc.block] at h₃ h₄ h₅
  omega

end Backed

/-! ## Releasing and writing -/

theorem Backed.of_represents {free : List Block} {h : Heap} (hb : w.dev.tensorsBoMap = M.base)
    (hd : h.fl.data = M.base) (hs : h.fl.size = tensorMemorySize) (hp : h.fl.policy = .findFirst)
    (R : Represents A h free live) (hl : ∀ a ∈ live, OnLines A cachelineSize a)
    (hw : ∀ a ∈ live, wordSize ∣ a.origSize) : Backed M (w.setHeap h) live where
  base := hb
  data := hd
  size := hs
  policy := hp
  represents := by
    change Represents A h (freeBlocks A h) live
    rwa [R.freeBlocks_eq]
  lines := hl
  words := hw

theorem Backed.same (B : Backed M w live) (h : M.Same w w') : Backed M w' live := by
  have hoff : w.mem.EqOff {x | x < M.base ∨ M.base + tensorMemorySize ≤ x} w'.mem := by
    intro x hx
    apply h.mem x
    · exact not_lt.mp fun hlt => hx (.inl hlt)
    · exact not_le.mp fun hle => hx (.inr hle)
  have R : Represents A w'.heap (freeBlocks A w.heap) live := by
    have := B.represents.eqOff_region hoff (by
      rw [World.heap, B.data, B.size]
      exact fun x hx => hx)
    simpa only [World.heap, h.list] using this
  constructor
  · rw [h.base, B.base]
  · rw [h.list, B.data]
  · rw [h.list, B.size]
  · rw [h.list, B.policy]
  · rwa [R.freeBlocks_eq]
  · exact B.lines
  · exact B.words

theorem Backed.write (B : Backed M w live) (ha : a ∈ live) {x : ℕ} (hx : x ∈ M.bytes (M.buffer a))
    (v : UInt8) : Backed M { w with mem := w.mem.storeByte x v } live := by
  rw [B.bytes_buffer ha] at hx
  have R := represents_write (v := v) B.represents ha hx
  exact Backed.of_represents (w := w) (h := ⟨w.mem.storeByte x v, w.dev.bufferFreeList⟩)
    B.base B.data B.size B.policy R B.lines B.words

theorem Backed.of_nil {h : Heap} (c : CacheLine A cachelineSize) (hb : w.dev.tensorsBoMap = M.base)
    (hd : h.fl.data = M.base) (hs : h.fl.size = tensorMemorySize) (hp : h.fl.policy = .findFirst) :
    Backed M (w.setHeap (freeListFreeAll A h)) [] := by
  have hnode : A.sizeofNode ≤ tensorMemorySize := by
    have := c.header
    simp only [Abi.sizeofHeader, Abi.sizeofNode, tensorMemorySize, cachelineSize] at this ⊢
    omega
  have halign : A.maxAlign ∣ M.base :=
    (A.maxAlign_pow2.dvd c.pow2 c.maxAlign).trans M.line_dvd_base
  refine .of_represents hb hd hs hp (freeListFreeAll_spec ?_ ?_ ?_ ?_) (by simp) (by simp)
  · rw [hd]
    exact M.base_pos
  · rw [hd, hs]
    exact M.bound.le
  · rw [hd]
    exact Nat.mod_eq_zero_of_dvd halign
  · rwa [hs]

theorem Backed.freeAll (c : CacheLine A cachelineSize) (B : Backed M w live) (hok : w.ok = true) :
    Backed M (strelaBufferFreeAll A w) [] := by
  rw [strelaBufferFreeAll, if_pos hok]
  exact .of_nil c B.base B.data B.size B.policy

theorem freeListInit_eq (c : CacheLine A cachelineSize) (h : Heap) :
    freeListInit A h M.base tensorMemorySize = some (freeListFreeAll A
      { h with fl := { h.fl with data := M.base, size := tensorMemorySize } }) := by
  have halign : A.maxAlign ∣ M.base :=
    (A.maxAlign_pow2.dvd c.pow2 c.maxAlign).trans M.line_dvd_base
  have hb := M.bound
  have hround : roundUp M.base A.maxAlign = M.base := by
    rw [roundUp, if_pos (Nat.mod_eq_zero_of_dvd halign)]
  have hstart : alignForwardUintptr A M.base A.maxAlign = some M.base := by
    have := alignForward_eq (p := M.base) A.maxAlign_pow2 A.maxAlign_lt (by omega)
    rwa [hround] at this
  have hadj : A.sub M.base M.base = 0 := by
    rw [Abi.sub_of_le le_rfl (by omega), Nat.sub_self]
  have hsize : A.sub tensorMemorySize 0 = tensorMemorySize := Abi.sub_of_le (by omega) (by omega)
  have hroom : A.add tensorMemorySize A.sizeofNode > 0 := by
    have h₁ := c.header
    have h₂ := M.modulus_ge
    rw [Abi.add_of_lt]
    · simp only [tensorMemorySize]
      omega
    · simp only [Abi.sizeofHeader, Abi.sizeofNode, tensorMemorySize, cachelineSize] at h₁ ⊢
      omega
  simp only [freeListInit, hstart, Option.bind_eq_bind, Option.bind_some, hadj, if_pos hroom, hsize]

theorem strelaBufferToPtr_eq (B : Backed M w live) (ha : a ∈ live) (hok : w.ok = true) :
    strelaBufferToPtr A (M.buffer a) w = .ok a.ptr := by
  have h₁ := B.addr_buffer ha
  have h₂ := (B.represents.placed a ha).ptr_lt
  unfold Mapping.addr at h₁
  rw [strelaBufferToPtr, if_neg (by simp [Mapping.buffer, hok]), B.base,
    Abi.mul_of_lt (by omega), Abi.add_of_lt (by omega), h₁]

theorem strelaBufferFree_spec (B : Backed M w live) (ha : a ∈ live) (hok : w.ok = true) :
    ∃ w', strelaBufferFree A (M.buffer a) w = .ok w' ∧ Backed M w' (live.erase a) := by
  obtain ⟨h', free', he, hd, hs, hp, -, R⟩ := freeListFree_spec B.represents ha
  refine ⟨w.setHeap h', ?_, ?_⟩
  · have hvalid : (M.buffer a).valid = true := rfl
    rw [strelaBufferFree, withBuffer, if_pos hok, hvalid, if_neg (by simp),
      strelaBufferToPtr_eq B ha hok, ok_bind, he]
    rfl
  · apply Backed.of_represents B.base (hd.trans B.data) (hs.trans B.size) (hp.trans B.policy) R
    · exact fun c hc => B.lines c (List.mem_of_mem_erase hc)
    · exact fun c hc => B.words c (List.mem_of_mem_erase hc)

/-! ## Allocating -/

/-- The size in bytes passes the guard against overflow, but is so close to the top of `size_t` that
rounding it up to a line and adding the line of the header wraps, while some block is free. -/
def Overruns (A : Abi) (w : World) (n : ℕ) : Prop :=
  n ≤ A.mul n wordSize ∧ A.modulus < A.mul n wordSize + 2 * cachelineSize ∧
    freeBlocks A w.heap ≠ []

instance : Decidable (Overruns A w n) := inferInstanceAs (Decidable (_ ∧ _ ∧ _))

/-- A product that wrapped and still passes the guard is at least a third of the address space. -/
theorem mul_eq_of_guard (hg : n ≤ A.mul n wordSize)
    (hs : 3 * A.mul n wordSize < A.modulus) : A.mul n wordSize = n * wordSize := by
  apply Abi.mul_of_lt
  by_contra hge
  have hdiv := Nat.div_add_mod (n * wordSize) A.modulus
  have hq : 1 ≤ n * wordSize / A.modulus := (Nat.one_le_div_iff (by omega)).mpr (by omega)
  have hle : A.modulus ≤ A.modulus * (n * wordSize / A.modulus) := Nat.le_mul_of_pos_right _ hq
  simp only [Abi.mul, Unsigned.mul, wordSize] at *
  omega

theorem freeListAlloc_of_head {h : Heap} (c : CacheLine A cachelineSize) (hh : h.fl.head = 0)
    (hp : h.fl.policy = .findFirst) {size : ℕ} (hs : size < A.modulus) (hn : A.sizeofNode ≤ size) :
    freeListAlloc A h size cachelineSize = some (h, 0) := by
  have hround : alignForwardSize A size cachelineSize =
      some (roundUp size cachelineSize % A.modulus) := alignForward_eq_mod c.pow2 c.lt hs
  have hfind (k : ℕ) : freeListFindFirst A h k cachelineSize = some (0, 0, 0) := by
    rw [freeListFindFirst, freeListFindFirstLoop, hh, if_pos rfl]
  simp [freeListAlloc, not_lt.mpr hn, not_lt.mpr c.maxAlign, hround, hp, hfind]

theorem Backed.head_of_nil (B : Backed M w live) (hf : freeBlocks A w.heap = []) :
    w.heap.fl.head = 0 := by
  have hc := B.represents.chain
  rw [hf] at hc
  exact hc

theorem sizeofNode_le_line (c : CacheLine A cachelineSize) : A.sizeofNode ≤ cachelineSize := by
  have := c.header
  unfold Abi.sizeofHeader at this
  unfold Abi.sizeofNode
  omega

/-- Below the sizes that wrap the free list refuses a request or places it on lines of its own. -/
theorem freeListAlloc_lines (c : CacheLine A cachelineSize) (B : Backed M w live) {size : ℕ}
    (hs : size + 2 * cachelineSize ≤ A.modulus) :
    freeListAlloc A w.heap size cachelineSize = some (w.heap, 0) ∨
    ∃ h' new, freeListAlloc A w.heap size cachelineSize = some (h', new.ptr) ∧
      new.origSize = size ∧ new.ptr ≠ 0 ∧ 3 * size < A.modulus ∧
      (wordSize ∣ size → Backed M (w.setHeap h') (new :: live)) := by
  have hnode := sizeofNode_le_line c
  have hbig := M.modulus_ge
  have hbound := M.bound
  have hround : roundedSize A size cachelineSize < max size A.sizeofNode + cachelineSize := by
    rw [roundedSize, c.roundedAlignment_eq]
    exact roundUp_lt _ c.pow2.pos
  have hlt : roundedSize A size cachelineSize + cachelineSize < A.modulus := by
    simp only [cachelineSize] at *
    omega
  have hpad {b : Block} (hb : b ∈ freeBlocks A w.heap) :
      padding A (roundedAlignment A cachelineSize) b = cachelineSize := by
    rw [c.roundedAlignment_eq, c.padding_eq (B.free_onLines hb).1]
  have hq : Allocator.Request A size cachelineSize := ⟨c.pow2, c.lt, by omega⟩
  have hw : NoWrap A (roundedSize A size cachelineSize) (roundedAlignment A cachelineSize)
      (freeBlocks A w.heap) := fun b hb => by
    rwa [hpad hb]
  rcases freeListAlloc_placed B.represents hq hw with ⟨he, -⟩ |
    ⟨h', free', b, hb, hfit, he, hd, hs, hp, -, R⟩
  · exact .inl he
  · right
    have hin := B.free_inside hb
    have horig : size ≤ roundedSize A size cachelineSize := hq.rounded.orig
    have hsmall : size ≤ tensorMemorySize := by
      unfold Fits at hfit
      simp only [Block.stop] at hin
      omega
    refine ⟨h', _, he, rfl, ?_, ?_, fun hdvd => ?_⟩
    · have hpos := M.base_pos
      simp only [placed]
      omega
    · simp only [tensorMemorySize] at hsmall
      omega
    · apply Backed.of_represents B.base (hd.trans B.data) (hs.trans B.size) (hp.trans B.policy) R
      · intro d hdm
        rcases List.mem_cons.mp hdm with rfl | hdm
        · exact c.onLines_placed (B.free_onLines hb).1 (B.free_onLines hb).2 hfit
        · exact B.lines d hdm
      · intro d hdm
        rcases List.mem_cons.mp hdm with rfl | hdm
        · exact hdvd
        · exact B.words d hdm

theorem strelaBufferAlloc_null (hok : w.ok = true) (hg : n ≤ A.mul n wordSize)
    (he : freeListAlloc A w.heap (A.mul n wordSize) cachelineSize = some (w.heap, 0)) :
    strelaBufferAlloc A n w = .ok (⟨false, 0, 0⟩, w.setErr errNoMem) := by
  unfold cachelineSize at he
  simp only [strelaBufferAlloc, hok, if_true, ge_iff_le, hg, he]
  rfl

theorem strelaBufferAlloc_ptr (hok : w.ok = true) (hg : n ≤ A.mul n wordSize) {h : Heap} {ptr : ℕ}
    (he : freeListAlloc A w.heap (A.mul n wordSize) cachelineSize = some (h, ptr)) (hp : ptr ≠ 0) :
    strelaBufferAlloc A n w =
      .ok (⟨true, A.sub ptr w.dev.tensorsBoMap / wordSize, n⟩, w.setHeap h) := by
  have hok' : (w.setHeap h).ok = true := hok
  have hoff : internalPtrToBufferOffset A ptr (w.setHeap h) =
      .ok (A.sub ptr w.dev.tensorsBoMap / wordSize) := by
    rw [internalPtrToBufferOffset, if_pos hok']
    rfl
  unfold cachelineSize at he
  simp only [strelaBufferAlloc, hok, if_true, ge_iff_le, hg, he, World.orAbort, ok_bind, hp, ne_eq,
    not_false_eq_true, hoff]

/-- Unless it overruns, a request is refused with an error and changes nothing else, or gets a
buffer of the size it asked for with an allocation of its own. -/
theorem strelaBufferAlloc_spec (c : CacheLine A cachelineSize) (B : Backed M w live)
    (hok : w.ok = true) (ho : ¬ Overruns A w n) :
    (∃ e, (e = errNoMem ∨ e = errBadArg) ∧
      strelaBufferAlloc A n w = .ok (⟨false, 0, 0⟩, w.setErr e)) ∨
    ∃ w' new, strelaBufferAlloc A n w = .ok (M.buffer new, w') ∧ new.origSize = n * wordSize ∧
      Backed M w' (new :: live) := by
  have hbig := M.modulus_ge
  have hmul : A.mul n wordSize < A.modulus := Nat.mod_lt _ (by omega)
  by_cases hg : n ≤ A.mul n wordSize
  · have refused (he : freeListAlloc A w.heap (A.mul n wordSize) cachelineSize =
        some (w.heap, 0)) : ∃ e, (e = errNoMem ∨ e = errBadArg) ∧
          strelaBufferAlloc A n w = .ok (⟨false, 0, 0⟩, w.setErr e) :=
      ⟨errNoMem, .inl rfl, strelaBufferAlloc_null hok hg he⟩
    by_cases hs : A.mul n wordSize + 2 * cachelineSize ≤ A.modulus
    · rcases freeListAlloc_lines c B hs with he | ⟨h', new, he, horig, hp, hsmall, hB⟩
      · exact .inl (refused he)
      · -- The request was placed, so the product did not wrap.
        have heq := mul_eq_of_guard hg hsmall
        have hB' := hB (heq ▸ Dvd.intro_left n rfl)
        right
        refine ⟨w.setHeap h', new, ?_, horig.trans heq, hB'⟩
        have hm : new ∈ new :: live := List.mem_cons_self
        have h₁ := hB'.ptr_eq hm
        have h₂ := (hB'.live_inside hm).1
        rw [strelaBufferAlloc_ptr hok hg he hp, B.base,
          Abi.sub_of_le (by omega) (hB'.represents.placed new hm).ptr_lt, Mapping.buffer, horig,
          heq]
        simp [wordSize]
    · have hnil : freeBlocks A w.heap = [] := by
        by_contra hne
        exact ho ⟨hg, by omega, hne⟩
      have hnode := sizeofNode_le_line c
      simp only [cachelineSize] at hs hnode
      exact .inl (refused (freeListAlloc_of_head c (B.head_of_nil hnil) B.policy hmul (by omega)))
  · left
    refine ⟨errBadArg, .inr rfl, ?_⟩
    simp only [strelaBufferAlloc, hok, if_true, ge_iff_le, if_neg hg]

/-! ## Whole runs -/

/-- Every live buffer has an allocation of its own behind it. -/
def Owned (M : Mapping A) (s : BufferState) : Prop :=
  ∃ live, s.live ~ live.map M.buffer ∧ Backed M s.world live

def NoOverrun (A : Abi) (s : BufferState) (op : BufferOp) : Prop :=
  ∀ n, op = .alloc n → s.world.ok = true → ¬ Overruns A s.world n

variable {s s' : BufferState} {op : BufferOp}

theorem Owned.start (c : CacheLine A cachelineSize) (h : (bufferLts M).start s) : Owned M s := by
  obtain ⟨hl, hb, hp, h, hi⟩ := h
  rw [freeListInit_eq c] at hi
  have hheap := Option.some.inj hi
  refine ⟨[], by simp [hl], ?_⟩
  have hw : s.world.setHeap s.world.heap = s.world := rfl
  rw [← hw, ← hheap]
  apply Backed.of_nil c hb
  · rfl
  · rfl
  · rw [← hp]
    exact congrArg (fun h => h.fl.policy) hheap

theorem Owned.mem {b : Buffer} {live : List Alloc} (hp : s.live ~ live.map M.buffer)
    (hb : b ∈ s.live) : ∃ a ∈ live, M.buffer a = b :=
  List.mem_map.mp (hp.mem_iff.mp hb)

theorem Owned.step (c : CacheLine A cachelineSize) (ho : Owned M s) (hc : NoOverrun A s op)
    (hst : (bufferLts M).step s op s') : Owned M s' := by
  obtain ⟨live, hp, B⟩ := ho
  cases hst with
  | @alloc n b w hn he =>
    cases hok : s.world.ok with
    | false =>
      have hx : strelaBufferAlloc A n s.world = .ok (⟨false, 0, 0⟩, s.world) := by
        simp [strelaBufferAlloc, hok]
      obtain ⟨rfl, rfl⟩ := Prod.mk.inj (Except.ok.inj (he.symm.trans hx))
      exact ⟨live, hp, B⟩
    | true =>
      rcases strelaBufferAlloc_spec c B hok (hc n rfl hok) with ⟨e, -, he'⟩ | ⟨w', new, he', -, B'⟩
      · obtain ⟨rfl, rfl⟩ := Prod.mk.inj (Except.ok.inj (he.symm.trans he'))
        exact ⟨live, hp, B.same ⟨rfl, rfl, fun _ _ _ => rfl⟩⟩
      · obtain ⟨rfl, rfl⟩ := Prod.mk.inj (Except.ok.inj (he.symm.trans he'))
        exact ⟨new :: live, hp.cons _, B'⟩
  | @free b w hb he =>
    obtain ⟨a, ha, rfl⟩ := Owned.mem hp hb
    cases hok : s.world.ok with
    | false =>
      have : s.world = w := by
        simpa [strelaBufferFree, withBuffer, hok] using he
      subst this
      exact ⟨live, hp, B⟩
    | true =>
      obtain ⟨w', he', B'⟩ := strelaBufferFree_spec B ha hok
      obtain rfl := Except.ok.inj (he.symm.trans he')
      refine ⟨live.erase a, ?_, B'⟩
      have hmove := (List.perm_cons_erase ha).map M.buffer
      have := (hp.trans hmove).erase (M.buffer a)
      rwa [List.map_cons, List.erase_cons_head] at this
  | freeAll =>
    cases hok : s.world.ok with
    | false =>
      simp only [strelaBufferFreeAll, hok]
      exact ⟨live, hp, B⟩
    | true => exact ⟨[], List.Perm.refl _, B.freeAll c hok⟩
  | @write b x v hb hx =>
    obtain ⟨a, ha, rfl⟩ := Owned.mem hp hb
    exact ⟨live, hp, B.write ha hx v⟩
  | other h => exact ⟨live, hp, B.same h⟩

theorem owned_of_reach (c : CacheLine A cachelineSize)
    (hr : ((bufferLts M).restrict (NoOverrun A)).Reach s) : Owned M s := by
  refine hr.invariant (P := Owned M) ?_ ?_
  · exact fun s h => Owned.start c h
  · rintro s op s' - ho ⟨hc, hst⟩
    exact ho.step c hc hst

/-! ## What a request promises -/

/-- A valid buffer has the bytes asked for, over the unbounded integers, inside the tensor memory
and inside a block that is its own; otherwise an error says so and the free list is unchanged. -/
def AllocSound (M : Mapping A) (s : BufferState) (n : ℕ) : Prop :=
  ∃ b w, strelaBufferAlloc A n s.world = .ok (b, w) ∧
    if b.valid then
      b.offsetWordsFromBase * 4 + n * 4 ≤ tensorMemorySize ∧
      let block := headerBlock A w.mem (M.addr b)
      block.start ≤ M.addr b ∧ M.addr b + n * 4 ≤ block.stop ∧
      (∀ f ∈ freeBlocks A w.heap, block.Apart f) ∧
      ∀ d ∈ s.live, block.Apart (headerBlock A w.mem (M.addr d))
    else
      (w.dev.errnum = errNoMem ∨ w.dev.errnum = errBadArg) ∧
      bookkeeping A w.heap = bookkeeping A s.world.heap

theorem Owned.allocSound (c : CacheLine A cachelineSize) (hs : Owned M s) (hok : s.world.ok = true)
    (ho : ¬ Overruns A s.world n) : AllocSound M s n := by
  obtain ⟨live, hp, B⟩ := hs
  rcases strelaBufferAlloc_spec c B hok ho with ⟨e, he, hx⟩ | ⟨w', new, hx, horig, B'⟩
  · exact ⟨_, _, hx, he, rfl⟩
  · refine ⟨_, _, hx, ?_⟩
    have hm : new ∈ new :: live := List.mem_cons_self
    have hsize : (M.buffer new).sizeWords = n := by
      simp only [Mapping.buffer, horig, wordSize]
      omega
    have block {a : Alloc} (ha : a ∈ new :: live) :
        headerBlock A w'.mem (M.addr (M.buffer a)) = a.block A := by
      rw [B'.addr_buffer ha]
      exact (B'.represents.headers a ha).headerBlock_eq
    have hin := B'.buffer_inside hm
    rw [hsize] at hin
    have hadd := (B'.represents.placed new hm).start_add
    have hpay := (B'.represents.placed new hm).payload
    rw [if_pos (show (M.buffer new).valid = true from rfl)]
    refine ⟨hin, ?_⟩
    simp only [block hm]
    refine ⟨?_, ?_, ?_, ?_⟩
    · rw [B'.addr_buffer hm]
      omega
    · rw [B'.addr_buffer hm]
      rw [horig] at hpay
      simp only [Block.stop, Alloc.block, wordSize] at hadd hpay ⊢
      omega
    · intro f hf
      exact (B'.represents.free_apart_live hf hm).symm
    · intro d hd
      obtain ⟨a, ha, rfl⟩ := Owned.mem hp hd
      have ham := List.mem_cons_of_mem new ha
      rw [block ham]
      apply B'.represents.live_apart hm ham
      rintro rfl
      exact (List.nodup_cons.mp B'.represents.live_nodup).1 ha

theorem Owned.not_allocSound (c : CacheLine A cachelineSize) (hs : Owned M s)
    (hok : s.world.ok = true) (ho : Overruns A s.world n) : ¬ AllocSound M s n := by
  obtain ⟨live, -, B⟩ := hs
  obtain ⟨hg, hbig, hne⟩ := ho
  obtain ⟨b, post, hfree⟩ := List.exists_cons_of_ne_nil hne
  have hb : b ∈ freeBlocks A s.world.heap := by
    rw [hfree]
    exact List.mem_cons_self
  have R := B.represents
  rw [hfree] at R
  have hmod := M.modulus_ge
  have hbound := M.bound
  have hmul : A.mul n wordSize < A.modulus := Nat.mod_lt _ (by omega)
  have hle : A.mul n wordSize ≤ n * 4 := Nat.mod_le _ _
  have hnode := sizeofNode_le_line c
  simp only [cachelineSize] at hbig hnode
  have hend : s.world.heap.fl.data + s.world.heap.fl.size < A.modulus := by
    simpa only [World.heap, B.data, B.size] using hbound
  obtain ⟨h', he⟩ := c.freeListAlloc_wrapped R B.policy (B.free_onLines hb).1 (B.free_onLines hb).2
    hend hmul (by omega) (by simpa only [cachelineSize] using hbig)
  have hx := strelaBufferAlloc_ptr hok hg he (by simp [cachelineSize])
  rintro ⟨d, w, hd, hif⟩
  obtain ⟨rfl, rfl⟩ := Prod.mk.inj (Except.ok.inj (hd.symm.trans hx))
  rw [if_pos rfl] at hif
  have hin := hif.1
  simp only [tensorMemorySize] at hin
  omega

theorem cacheLine_arm32 : CacheLine Abi.arm32 cachelineSize :=
  ⟨⟨6, rfl⟩, by decide, by decide, by decide⟩

theorem cacheLine_lp64 : CacheLine Abi.lp64 cachelineSize :=
  ⟨⟨6, rfl⟩, by decide, by decide, by decide⟩

theorem cacheLine_of_target (hA : A = .arm32 ∨ A = .lp64) : CacheLine A cachelineSize := by
  rcases hA with rfl | rfl
  · exact cacheLine_arm32
  · exact cacheLine_lp64

/-- On both targets, in every run without an overrun so far, a request keeps its promise exactly
if it does not overrun. -/
theorem allocSound_iff (hA : A = .arm32 ∨ A = .lp64)
    (hr : ((bufferLts M).restrict (NoOverrun A)).Reach s) (hok : s.world.ok = true) :
    AllocSound M s n ↔ ¬ Overruns A s.world n := by
  have c := cacheLine_of_target hA
  have hs := owned_of_reach c hr
  constructor
  · intro h ho
    exact hs.not_allocSound c hok ho h
  · exact hs.allocSound c hok

def freshDev (M : Mapping A) : Dev :=
  { failedDev with
    tensorsBoMap := M.base
    backwardCompatJob := .none
    errnum := 0
    jobs := fun _ => .zero }

def freshState (M : Mapping A) : BufferState where
  world := World.setHeap ⟨freshDev M, fun _ => 0, []⟩
    (freeListFreeAll A ⟨fun _ => 0, ⟨M.base, tensorMemorySize, 0, 0, .findFirst⟩⟩)
  live := []

theorem freshState_start (c : CacheLine A cachelineSize) (M : Mapping A) :
    (bufferLts M).start (freshState M) := by
  refine ⟨rfl, rfl, rfl, ⟨fun _ => 0, ⟨0, 0, 0, 0, .findFirst⟩⟩, ?_⟩
  rw [freeListInit_eq c]
  rfl

theorem freshState_overruns (c : CacheLine A cachelineSize) (M : Mapping A)
    (hg : n ≤ A.mul n wordSize) (hbig : A.modulus < A.mul n wordSize + 2 * cachelineSize) :
    Overruns A (freshState M).world n := by
  refine ⟨hg, hbig, fun hnil => ?_⟩
  obtain ⟨live, hp, B⟩ := Owned.start c (freshState_start c M)
  obtain rfl : live = [] := by simpa [freshState] using hp
  obtain ⟨b, hb, -⟩ := B.represents.tiles.cover M.base le_rfl (by
    change M.base < M.base + tensorMemorySize
    simp only [tensorMemorySize]
    omega)
  rw [hnil] at hb
  simp at hb

/-- The tensor memory in the middle of the address space of the board. -/
def boardMapping : Mapping Abi.arm32 := ⟨0x40000000, by decide, by decide, by decide⟩

theorem allocSound_iff_board : AllocSound boardMapping (freshState boardMapping) 100 :=
  (allocSound_iff (.inl rfl) (.start (freshState_start cacheLine_arm32 _)) rfl).mpr fun ho =>
    absurd ho.2.1 (by decide)

/-- A request for 2^30 - 1 words, four bytes less than the address space of the board, gets one
valid buffer. -/
theorem not_allocSound_board : ¬ ∀ (A : Abi) (M : Mapping A) (s : BufferState) (n : ℕ),
    A = .arm32 ∨ A = .lp64 → (bufferLts M).Reach s → s.world.ok = true → n < A.modulus →
    AllocSound M s n := by
  intro h
  have c := cacheLine_arm32
  have hst := freshState_start c boardMapping
  have ho := freshState_overruns (n := 2 ^ 30 - 1) c boardMapping (by decide) (by decide)
  exact (Owned.start c hst).not_allocSound c rfl ho
    (h _ boardMapping _ _ (.inl rfl) (.start hst) rfl (by decide))

end Strela.Lib
