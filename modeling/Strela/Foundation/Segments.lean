import Strela.Foundation.Gather
import Strela.Foundation.Blocks

/-! # Segments of memory

A segment is a place in memory together with the bytes a client expects there.
Segments that lie apart are independent: what is stored in one is not seen in
another. Each of the operations below says which bytes are expected after it.
-/

namespace Foundation

structure Segment where
  start : ℕ
  data : List UInt8
  deriving DecidableEq, Repr

namespace Segment

variable {m m' : Mem} {s : Segment} {p n x : ℕ} {v : UInt8}

def block (s : Segment) : Block := ⟨s.start, s.data.length⟩

def Held (m : Mem) (s : Segment) : Prop := ∀ i < s.data.length, m (s.start + i) = s.data.getD i 0

/-- The bytes after a store of one byte, which may lie outside. -/
def put (s : Segment) (x : ℕ) (v : UInt8) : Segment where
  start := s.start
  data := if s.start ≤ x then s.data.set (x - s.start) v else s.data

/-- The first `n` bytes, zeroes where there are fewer. -/
def resized (s : Segment) (n : ℕ) : Segment where
  start := s.start
  data := s.data.takeD n 0

theorem getD_takeD (l : List UInt8) (n : ℕ) {i : ℕ} (h : i < n) :
    (l.takeD n 0).getD i 0 = l.getD i 0 := by
  induction n generalizing l i with
  | zero => omega
  | succ n ih =>
    cases i with
    | zero => cases l <;> simp [List.takeD]
    | succ i =>
      have := ih l.tail (i := i) (by omega)
      cases l with
      | nil => simp [List.takeD]
      | cons b l => simpa [List.takeD] using this

@[simp] theorem block_put : (s.put x v).block = s.block := by
  unfold put block
  split <;> simp

theorem mem_block : x ∈ s.block ↔ ∃ i < s.data.length, x = s.start + i := by
  simp only [Block.mem_def, block, Block.stop]
  constructor
  · rintro ⟨hl, hu⟩
    exact ⟨x - s.start, by omega, by omega⟩
  · rintro ⟨i, hi, rfl⟩
    omega

theorem Held.congr (h : Held m s) (he : ∀ x ∈ s.block, m' x = m x) : Held m' s := by
  intro i hi
  rw [he _ (mem_block.mpr ⟨i, hi, rfl⟩), h i hi]

theorem Held.put (h : Held m s) : Held (m.storeByte x v) (s.put x v) := by
  intro i hi
  unfold Segment.put at hi ⊢
  simp only at hi ⊢
  by_cases hx : s.start ≤ x
  · rw [if_pos hx] at hi ⊢
    rw [List.length_set] at hi
    have hs := h i hi
    by_cases he : s.start + i = x
    · subst he
      simp [Mem.storeByte, List.getD_eq_getElem?_getD, hi]
    · have hne : x - s.start ≠ i := by omega
      simp only [Mem.storeByte, if_neg he, hs, List.getD_eq_getElem?_getD,
        List.getElem?_set_ne hne]
  · rw [if_neg hx] at hi ⊢
    rw [Mem.storeByte, if_neg (by omega), h i hi]

theorem held_store_zero (m : Mem) (p n : ℕ) : Held (m.store p n 0) ⟨p, List.replicate n 0⟩ := by
  intro i hi
  have hn : i < n := by simpa using hi
  simp [Mem.store, List.getD_eq_getElem?_getD, hn]

/-- Growing in place zeroes what is new; what is left after shrinking is as it was. -/
theorem Held.resized (h : Held m s) (hn : s.data.length < n) :
    Held (m.store (s.start + s.data.length) (n - s.data.length) 0) (s.resized n) := by
  intro i hi
  have hi : i < n := by simpa [Segment.resized] using hi
  simp only [Segment.resized, getD_takeD _ _ hi]
  by_cases hb : i < s.data.length
  · rw [Mem.store_of_not_mem (by omega), h i hb]
  · have hm : s.start + s.data.length ≤ s.start + i ∧
        s.start + i < s.start + s.data.length + (n - s.data.length) := by omega
    rw [Mem.store, if_pos hm, List.getD_eq_default _ _ (by omega)]
    simp

theorem Held.shrunk (h : Held m s) (hn : n ≤ s.data.length) : Held m (s.resized n) := by
  intro i hi
  have hi : i < n := by simpa [Segment.resized] using hi
  simp only [Segment.resized, getD_takeD _ _ hi]
  exact h i (by omega)

theorem Held.moved (h : Held m s) (ha : s.block.Apart ⟨p, n⟩) :
    Held ((m.store p n 0).copy p s.start (min s.data.length n)) ⟨p, s.data.takeD n 0⟩ := by
  intro i hi
  have hi : i < n := by simpa using hi
  simp only [Block.Apart, block, Block.stop] at ha
  simp only [getD_takeD _ _ hi]
  by_cases hb : i < s.data.length
  · have hm : p ≤ p + i ∧ p + i < p + min s.data.length n := by omega
    have hs : s.start + (p + i - p) = s.start + i := by omega
    rw [Mem.copy, if_pos hm, hs, Mem.store_of_not_mem (by omega), h i hb]
  · have hm : ¬ (p ≤ p + i ∧ p + i < p + min s.data.length n) := by omega
    rw [Mem.copy, if_neg hm, List.getD_eq_default _ _ (by omega), Mem.store, if_pos (by omega)]
    simp

end Segment

end Foundation
