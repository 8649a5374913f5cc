import Strela.Allocator.Chain
import Strela.Allocator.Pool
import Mathlib.Order.Interval.Set.Basic

/-! # What the initialisers manage of a buffer

Both initialisers skip to the first aligned address of the caller's buffer and
take what they skipped off its length. Neither checks that the buffer reaches
that far, so for a short buffer the length wraps: `free_list_init` asserts that
the length and a node together exceed what was skipped, and `pool_init` compares
the chunk with the length that has wrapped already.
-/

namespace Strela.Allocator

open Foundation Foundation.Unsigned

variable {A : Abi} {data size a n i e : ℕ} {h h' : Heap} {m : Mem} {p : Pool}

/-! ## The part of a buffer past its first aligned address -/

def alignedStart (A : Abi) (data align : ℕ) : ℕ := roundUp data align % A.modulus

def alignedLength (A : Abi) (data size align : ℕ) : ℕ :=
  A.sub size (A.sub (alignedStart A data align) data)

/-- In a buffer that reaches its first aligned address nothing wraps. -/
theorem aligned_eq (hs : size < A.modulus) (hlt : roundUp data a < A.modulus)
    (h : roundUp data a ≤ data + size) : alignedStart A data a = roundUp data a ∧
      alignedLength A data size a = data + size - roundUp data a := by
  have hle := le_roundUp data a
  have hstart : alignedStart A data a = roundUp data a := Nat.mod_eq_of_lt hlt
  constructor
  · exact hstart
  · rw [alignedLength, hstart, Abi.sub_of_le hle hlt, Abi.sub_of_le (by omega) hs]
    omega

/-- In a shorter one the region begins before the buffer or its length has wrapped. -/
theorem aligned_outside (ha : 0 < a) (hlt : a < A.modulus) (hb : data + size < A.modulus)
    (h : data + size < roundUp data a) : alignedStart A data a < data ∨
      data + size < alignedStart A data a + alignedLength A data size a := by
  have hup := roundUp_lt data ha
  by_cases hwrap : roundUp data a < A.modulus
  · right
    have hstart : alignedStart A data a = roundUp data a := Nat.mod_eq_of_lt hwrap
    have hsize : alignedLength A data size a = size + (A.modulus - (roundUp data a - data)) := by
      rw [alignedLength, hstart, Abi.sub_of_le (by omega) hwrap]
      exact Nat.mod_eq_of_lt (by omega)
    omega
  · left
    have hstart : alignedStart A data a = roundUp data a - A.modulus := by
      rw [alignedStart, Nat.mod_eq_sub_mod (by omega), Nat.mod_eq_of_lt (by omega)]
    omega

theorem aligned_inside_iff (ha : 0 < a) (hlt : a < A.modulus) (hb : data + size < A.modulus)
    (hpos : 0 < alignedLength A data size a) :
    Set.Ico (alignedStart A data a) (alignedStart A data a + alignedLength A data size a) ⊆
      Set.Ico data (data + size) ↔ roundUp data a ≤ data + size := by
  rw [Set.Ico_subset_Ico_iff (by omega)]
  constructor
  · intro hin
    by_contra hno
    have := aligned_outside ha hlt hb (not_le.mp hno)
    omega
  · intro hle
    obtain ⟨hstart, hlen⟩ := aligned_eq (A := A) (by omega) (by omega) hle
    have := le_roundUp data a
    omega

/-- A region in the buffer from `data` to `data + size`, with room for `need` bytes, that was set up
without a write outside that buffer. -/
structure InBuffer (data size start length need : ℕ) (m m' : Mem) : Prop where
  inside : Set.Ico start (start + length) ⊆ Set.Ico data (data + size)
  room : need ≤ length
  written : m.EqOff (Set.Ico data (data + size)) m'

/-! ## The free list -/

theorem freeListInit_eq_ite (hd : data < A.modulus) : freeListInit A h data size =
    if A.add size A.sizeofNode > A.sub (alignedStart A data A.maxAlign) data then
      some (freeListFreeAll A { h with fl := { h.fl with
        data := alignedStart A data A.maxAlign,
        size := alignedLength A data size A.maxAlign } })
    else none := by
  simp only [freeListInit, alignForwardUintptr,
    alignForward_eq_mod A.maxAlign_pow2 A.maxAlign_lt hd, Option.bind_eq_bind, Option.bind_some]
  rfl

theorem freeListFreeAll_written (h : Heap) :
    h.mem.EqOff (Set.Ico h.fl.data (h.fl.data + A.sizeofNode)) (freeListFreeAll A h).mem :=
  eqOff_setNode h h.fl.data h.fl.size 0

theorem freeListInit_inBuffer_iff (hb : data + size < A.modulus)
    (hi : freeListInit A h data size = some h') :
    InBuffer data size h'.fl.data h'.fl.size A.sizeofNode h.mem h'.mem ↔
      roundUp data A.maxAlign + A.sizeofNode ≤ data + size := by
  have hnode := A.sizeofNode_pos
  rw [freeListInit_eq_ite (by omega)] at hi
  split at hi
  · obtain rfl := Option.some.inj hi
    constructor
    · rintro ⟨hin, hroom, -⟩
      have hroom : A.sizeofNode ≤ alignedLength A data size A.maxAlign := hroom
      have hle := (aligned_inside_iff A.maxAlign_pos A.maxAlign_lt hb (by omega)).mp hin
      obtain ⟨-, hlen⟩ := aligned_eq (A := A) (by omega) (by omega) hle
      omega
    · intro hle
      have hreach : roundUp data A.maxAlign ≤ data + size := by omega
      obtain ⟨hstart, hlen⟩ := aligned_eq (A := A) (by omega) (by omega) hreach
      have hroom : A.sizeofNode ≤ alignedLength A data size A.maxAlign := by omega
      have hin := (aligned_inside_iff A.maxAlign_pos A.maxAlign_lt hb (by omega)).mpr hreach
      exact ⟨hin, hroom, (freeListFreeAll_written _).mono
        ((Set.Ico_subset_Ico_right (by simp only; omega)).trans hin)⟩
  · cases hi

/-! ## The pool -/

theorem poolFreeAllLoop_geometry (n i : ℕ) (p : Pool) (m : Mem) :
    (poolFreeAllLoop A n i (p, m)).1.buf = p.buf ∧
    (poolFreeAllLoop A n i (p, m)).1.bufLen = p.bufLen ∧
    (poolFreeAllLoop A n i (p, m)).1.chunkSize = p.chunkSize := by
  induction n generalizing i p m with
  | zero => exact ⟨rfl, rfl, rfl⟩
  | succ n ih => exact ih (i + 1) _ _

theorem poolFreeAll_geometry (p : Pool) (m : Mem) : (poolFreeAll A p m).1.buf = p.buf ∧
    (poolFreeAll A p m).1.bufLen = p.bufLen ∧ (poolFreeAll A p m).1.chunkSize = p.chunkSize :=
  poolFreeAllLoop_geometry _ _ _ _

theorem poolFreeAllLoop_written (hn : A.ptrBytes ≤ p.chunkSize) (he : e < A.modulus)
    (hle : p.buf + (i + n) * p.chunkSize ≤ e) :
    m.EqOff (Set.Ico p.buf e) (poolFreeAllLoop A n i (p, m)).2 := by
  induction n generalizing i p m with
  | zero => exact .refl _ _
  | succ n ih =>
    have hnext : (i + (n + 1)) * p.chunkSize = i * p.chunkSize + p.chunkSize + n * p.chunkSize := by
      ring
    have haddr : A.add p.buf (A.mul i p.chunkSize) = p.buf + i * p.chunkSize := by
      rw [Abi.mul_of_lt (by omega), Abi.add_of_lt (by omega)]
    have hpush : m.EqOff (Set.Ico p.buf e) (m.store (p.buf + i * p.chunkSize) A.ptrBytes p.head) :=
      .store fun x hl hu => ⟨by omega, by omega⟩
    rw [poolFreeAllLoop, haddr, poolPush]
    exact hpush.trans (ih (p := { p with head := p.buf + i * p.chunkSize }) hn
      (by rwa [show i + 1 + n = i + (n + 1) by omega]))

theorem poolFreeAll_written (hn : A.ptrBytes ≤ p.chunkSize) (he : p.buf + p.bufLen < A.modulus) :
    m.EqOff (Set.Ico p.buf (p.buf + p.bufLen)) (poolFreeAll A p m).2 := by
  apply poolFreeAllLoop_written (p := { p with head := 0 }) hn he
  have := Nat.div_mul_le_self p.bufLen p.chunkSize
  simp only [Nat.zero_add]
  omega

theorem poolInit_eq_ite {chunk : ℕ} (ha : IsPow2 a) (hlt : a < A.modulus) (hd : data < A.modulus)
    (hc : chunk < A.modulus) : poolInit A m data size chunk a =
    if A.sizeofPoolNode ≤ alignedStart A chunk a ∧
        alignedStart A chunk a ≤ alignedLength A data size a then
      some (poolFreeAll A ⟨alignedStart A data a, alignedLength A data size a,
        alignedStart A chunk a, 0⟩ m)
    else none := by
  simp only [poolInit, alignForwardUintptr, alignForwardSize, alignForward_eq_mod ha hlt hd,
    alignForward_eq_mod ha hlt hc, Option.bind_eq_bind, Option.bind_some]
  rfl

theorem poolInit_inBuffer_iff {chunk : ℕ} {q : Pool × Mem} (ha : IsPow2 a) (hlt : a < A.modulus)
    (hc : chunk < A.modulus) (hb : data + size < A.modulus)
    (hi : poolInit A m data size chunk a = some q) :
    InBuffer data size q.1.buf q.1.bufLen q.1.chunkSize m q.2 ↔
      roundUp data a ≤ data + size := by
  rw [poolInit_eq_ite ha hlt (by omega) hc] at hi
  split at hi
  · rename_i hacc
    obtain ⟨hnode, hroom⟩ := hacc
    have hnode : A.ptrBytes ≤ alignedStart A chunk a := hnode
    have hpos := A.ptrBytes_pos
    have hin := aligned_inside_iff ha.pos hlt hb (by omega : 0 < alignedLength A data size a)
    obtain rfl := Option.some.inj hi
    obtain ⟨hbuf, hlen, hchunk⟩ := poolFreeAll_geometry (A := A) ⟨alignedStart A data a,
      alignedLength A data size a, alignedStart A chunk a, 0⟩ m
    rw [hbuf, hlen, hchunk]
    constructor
    · exact fun hbuffer => hin.mp hbuffer.inside
    · intro hle
      obtain ⟨hstart, hlength⟩ := aligned_eq (A := A) (by omega) (by omega) hle
      have hend : alignedStart A data a + alignedLength A data size a < A.modulus := by omega
      exact ⟨hin.mpr hle, hroom, (poolFreeAll_written hnode hend).mono (hin.mpr hle)⟩
  · cases hi

/-- Where its assertions hold, `free_list_init` stays in the buffer exactly if a node fits past the
first aligned address, and `pool_init` exactly if the buffer reaches that address. -/
theorem init_inBuffer_iff (A : Abi) (h : Heap) (m : Mem) {data size : ℕ}
    (hb : data + size < A.modulus) :
    (∀ h', freeListInit A h data size = some h' →
      (InBuffer data size h'.fl.data h'.fl.size A.sizeofNode h.mem h'.mem ↔
        roundUp data A.maxAlign + A.sizeofNode ≤ data + size)) ∧
    ∀ chunkSize alignment q, chunkSize < A.modulus → alignment < A.modulus → IsPow2 alignment →
      poolInit A m data size chunkSize alignment = some q →
      (InBuffer data size q.1.buf q.1.bufLen q.1.chunkSize m q.2 ↔
        roundUp data alignment ≤ data + size) := by
  constructor
  · intro h' hi
    exact freeListInit_inBuffer_iff hb hi
  · intro chunkSize alignment q hc hlt ha hi
    exact poolInit_inBuffer_iff ha hlt hc hb hi

def blankHeap : Heap := ⟨fun _ => 0, ⟨0, 0, 0, 0, .findFirst⟩⟩

/-- In a buffer of 40 bytes both initialisers stay inside. -/
theorem init_inBuffer_iff_forty : ∃ h' q,
    freeListInit Abi.arm32 blankHeap 12 40 = some h' ∧
    poolInit Abi.arm32 blankHeap.mem 12 40 10 8 = some q ∧
    InBuffer 12 40 h'.fl.data h'.fl.size Abi.arm32.sizeofNode blankHeap.mem h'.mem ∧
    InBuffer 12 40 q.1.buf q.1.bufLen q.1.chunkSize blankHeap.mem q.2 := by
  obtain ⟨h', hh⟩ : ∃ h', freeListInit Abi.arm32 blankHeap 12 40 = some h' := ⟨_, rfl⟩
  obtain ⟨q, hq⟩ : ∃ q, poolInit Abi.arm32 blankHeap.mem 12 40 10 8 = some q := ⟨_, rfl⟩
  obtain ⟨hlist, hpool⟩ := init_inBuffer_iff Abi.arm32 blankHeap blankHeap.mem
    (by decide : 12 + 40 < Abi.arm32.modulus)
  exact ⟨h', q, hh, hq, (hlist h' hh).mpr (by decide),
    (hpool 10 8 q (by decide) (by decide) ⟨3, rfl⟩ hq).mpr (by decide)⟩

/-- Of a buffer of 4 bytes, 8 before the first aligned address, the free list manages all addresses
but 4, and of one of 2 bytes the pool all but 2. -/
theorem init_outside_short :
    (∃ h', freeListInit Abi.arm32 blankHeap 131080 4 = some h' ∧ h'.fl.data = 131088 ∧
      h'.fl.size = 2 ^ 32 - 4 ∧
      ¬ InBuffer 131080 4 h'.fl.data h'.fl.size Abi.arm32.sizeofNode blankHeap.mem h'.mem) ∧
    ∃ q, poolInit Abi.arm32 blankHeap.mem 131076 2 8 8 = some q ∧ q.1.buf = 131080 ∧
      q.1.bufLen = 2 ^ 32 - 2 ∧
      ¬ InBuffer 131076 2 q.1.buf q.1.bufLen q.1.chunkSize blankHeap.mem q.2 := by
  constructor
  · have hi : freeListInit Abi.arm32 blankHeap 131080 4 = _ := freeListInit_eq_ite (by decide)
    rw [if_pos (by decide)] at hi
    refine ⟨_, hi, by decide, by decide, ?_⟩
    rw [freeListInit_inBuffer_iff (by decide) hi]
    decide
  · have hi : poolInit Abi.arm32 blankHeap.mem 131076 2 8 8 = _ :=
      poolInit_eq_ite ⟨3, rfl⟩ (by decide) (by decide) (by decide)
    rw [if_pos (by decide)] at hi
    refine ⟨_, hi, ?_, ?_, ?_⟩
    · rw [(poolFreeAll_geometry _ _).1]
      decide
    · rw [(poolFreeAll_geometry _ _).2.1]
      decide
    · rw [poolInit_inBuffer_iff ⟨3, rfl⟩ (by decide) (by decide) (by decide) hi]
      decide

end Strela.Allocator
