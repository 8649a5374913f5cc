import Strela.Allocator.Guarantees

/-! # Allocations on cache lines

When every request asks for the alignment of a cache line, all blocks are made of
whole lines after any history of splits and merges: the header has the last bytes
of a line of its own, and the payload starts the next one. The free blocks need
no argument of their own, since they are the gaps that the live ones leave.
-/

namespace Strela.Allocator

open Foundation Foundation.Unsigned

variable {A : Abi} {h : Heap} {free : List Block} {live : List Alloc} {a : Alloc} {b : Block}
  {line size : ℕ}

/-- A cache line: a power of two that holds a header and a multiple of the least alignment. -/
structure CacheLine (A : Abi) (line : ℕ) : Prop where
  pow2 : IsPow2 line
  lt : line < A.modulus
  header : A.sizeofHeader ≤ line
  maxAlign : A.maxAlign ≤ line

/-- A block of whole lines that gives its first one to the header and has more. -/
structure OnLines (A : Abi) (line : ℕ) (a : Alloc) : Prop where
  start : line ∣ (a.block A).start
  size : line ∣ a.blockSize
  header : a.padding + A.sizeofHeader = line
  room : line < a.blockSize

theorem OnLines.ptr (o : OnLines A line a) (w : WellPlaced A a) :
    (a.block A).start + line = a.ptr := by
  rw [← w.start_add, o.header]

theorem CacheLine.dvd_modulus (c : CacheLine A line) : line ∣ A.modulus := by
  have hpow : IsPow2 A.modulus := ⟨8 * A.ptrBytes, by rw [Abi.modulus, Nat.pow_mul]⟩
  exact c.pow2.dvd hpow c.lt.le

theorem CacheLine.roundedAlignment_eq (c : CacheLine A line) : roundedAlignment A line = line :=
  max_eq_left c.maxAlign

theorem CacheLine.padding_eq (c : CacheLine A line) (hb : line ∣ b.start) :
    padding A line b = line := by
  have hpos := A.ptrBytes_pos
  have hround : roundUp (b.start + A.sizeofHeader) line = b.start + line := by
    have h₁ := c.header
    have h₂ : 0 < A.sizeofHeader := by
      unfold Abi.sizeofHeader
      omega
    exact roundUp_eq (Nat.mod_eq_zero_of_dvd (hb.add (dvd_refl line))) (by omega) (by omega)
  rw [padding, leastPadding, hround]
  omega

theorem Represents.free_onLines (R : Represents A h free live) (hd : line ∣ h.fl.data)
    (hs : line ∣ h.fl.size) (hl : ∀ a ∈ live, OnLines A line a) (hb : b ∈ free) :
    line ∣ b.start ∧ line ∣ b.size := by
  have hgap := isGap_of_mem R.tiles R.separated hb
  have hend : line ∣ h.fl.data + h.fl.size := hd.add hs
  have hstart : line ∣ b.start := by
    rcases hgap.start_eq with he | ⟨c, hc, he⟩
    · rwa [he]
    · obtain ⟨a, ha, rfl⟩ := List.mem_map.mp hc
      rw [he]
      exact (hl a ha).start.add (hl a ha).size
  have hstop : line ∣ b.stop := by
    rcases hgap.stop_eq with he | ⟨c, hc, he⟩
    · rwa [he]
    · obtain ⟨a, ha, rfl⟩ := List.mem_map.mp hc
      rw [he]
      exact (hl a ha).start
  exact ⟨hstart, (Nat.dvd_add_right hstart).mp hstop⟩

theorem CacheLine.dvd_roundedSize (c : CacheLine A line) : line ∣ roundedSize A size line := by
  rw [roundedSize, c.roundedAlignment_eq]
  exact Nat.dvd_of_mod_eq_zero (roundUp_mod _ c.pow2.pos)

theorem CacheLine.onLines_placed (c : CacheLine A line) (hb : line ∣ b.start)
    (hz : line ∣ b.size) (hfit : Fits A (roundedSize A size line) (roundedAlignment A line) b) :
    let pad := padding A (roundedAlignment A line) b
    OnLines A line (placed A b (roundedSize A size line + pad) pad size line) := by
  have hpad : padding A (roundedAlignment A line) b = line := by
    rw [c.roundedAlignment_eq, c.padding_eq hb]
  have hh := c.header
  simp only [hpad]
  constructor
  · have hstart : (Alloc.block A (placed A b (roundedSize A size line + line) line size line)).start
        = b.start := by
      rw [placed_block b _ _ _ hh]
    rwa [hstart]
  · simp only [placed, taken]
    split
    · exact c.dvd_roundedSize.add (dvd_refl line)
    · exact hz
  · simp only [placed]
    omega
  · have hpos : 0 < roundedSize A size line :=
      A.sizeofNode_pos.trans_le ((le_max_right _ _).trans (le_roundUp _ _))
    have hle := le_taken (A := A) hfit
    rw [hpad] at hle
    simp only [placed]
    omega

/-! ## Requests that wrap -/

/-- The space required for a size so close to the top that rounding it up, or adding the line of
the header, wraps: nothing, or one line. -/
theorem CacheLine.required_le (c : CacheLine A line) (hs : size < A.modulus)
    (hbig : A.modulus < size + 2 * line) :
    A.add (roundUp size line % A.modulus) line ≤ line := by
  obtain ⟨k, hk⟩ := c.dvd_modulus
  obtain ⟨j, hj⟩ := Nat.dvd_of_mod_eq_zero (roundUp_mod size c.pow2.pos)
  have hle := le_roundUp size line
  have hlt := roundUp_lt size c.pow2.pos
  have hlow : k < j + 2 := by
    by_contra hge
    have : line * (j + 2) ≤ line * k := Nat.mul_le_mul_left line (by omega)
    rw [Nat.mul_add] at this
    omega
  have hhigh : j < k + 1 := by
    by_contra hge
    have : line * (k + 1) ≤ line * j := Nat.mul_le_mul_left line (by omega)
    rw [Nat.mul_add] at this
    omega
  rw [Abi.add, Unsigned.add, Nat.mod_add_mod, hj]
  obtain rfl | rfl : j = k ∨ k = j + 1 := by omega
  · rw [← hk, Nat.add_mod_left, Nat.mod_eq_of_lt c.lt]
  · rw [Nat.mul_add, Nat.mul_one] at hk
    rw [← hk, Nat.mod_self]
    exact Nat.zero_le _

/-- First fit places such a request in the first free block, whatever its size. -/
theorem CacheLine.freeListAlloc_wrapped {post : List Block} (c : CacheLine A line)
    (R : Represents A h (b :: post) live) (hp : h.fl.policy = .findFirst) (hb : line ∣ b.start)
    (hz : line ∣ b.size) (hend : h.fl.data + h.fl.size < A.modulus) (hs : size < A.modulus)
    (hn : A.sizeofNode ≤ size) (hbig : A.modulus < size + 2 * line) :
    ∃ h', freeListAlloc A h size line = some (h', b.start + line) := by
  have hbm : b ∈ b :: post := List.mem_cons_self
  have hpos : 0 < b.size := A.sizeofNode_pos.trans_le (R.room b hbm)
  have hline : line ≤ b.size := Nat.le_of_dvd hpos hz
  have hstop := (R.free_inside hbm).2
  simp only [Block.stop] at hstop
  obtain ⟨hhead, hsize, -⟩ := R.chain
  rw [hhead] at hsize
  have hround : alignForwardSize A size line = some (roundUp size line % A.modulus) :=
    alignForward_eq_mod c.pow2 c.lt hs
  have hpad : calcPaddingWithHeader A b.start line A.sizeofHeader = some line := by
    have := c.padding_eq hb
    rw [padding] at this
    rw [calcPaddingWithHeader_eq c.pow2 c.lt Abi.sizeofHeader_lt_modulus (this.symm ▸ c.lt), this]
  have hfind : freeListFindFirst A h (roundUp size line % A.modulus) line =
      some (b.start, line, 0) := by
    rw [freeListFindFirst, freeListFindFirstLoop, hhead, if_neg (R.roomy b hbm).1, hpad]
    have hfit := (c.required_le hs hbig).trans hline
    simp [hsize, hfit]
  refine ⟨(freeListPlace A h b.start line 0 (roundUp size line % A.modulus) size).1, ?_⟩
  have hptr : (freeListPlace A h b.start line 0 (roundUp size line % A.modulus) size).2 =
      b.start + line := by
    have hh := c.header
    have hlt := c.lt
    simp only [freeListPlace]
    rw [Abi.sub_of_le hh hlt, Abi.add_of_lt (a := b.start) (by omega), Abi.add_of_lt (by omega)]
    omega
  simp only [freeListAlloc, if_neg (not_lt.mpr hn), if_neg (not_lt.mpr c.maxAlign), hround,
    Option.bind_eq_bind, Option.bind_some, hp, hfind, if_neg (R.roomy b hbm).1]
  exact congrArg some (Prod.ext rfl hptr)

end Strela.Allocator
