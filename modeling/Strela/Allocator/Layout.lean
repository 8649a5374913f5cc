import Strela.Foundation.Bytes
import Strela.Foundation.Unsigned

/-! # Sizes, alignment and padding

The allocators' arithmetic on addresses and sizes, in the unsigned arithmetic of
`uintptr_t` and `size_t`. Both have the width of a pointer on every target, which
is a parameter together with `sizeof (max_align_t)`. An assertion that fails
aborts the program and gives `none`.
-/

namespace Strela.Allocator

open Foundation Foundation.Unsigned

/-- What the allocators depend on of the target. -/
structure Abi where
  ptrBytes : ℕ
  maxAlign : ℕ
  ptrBytes_pos : 0 < ptrBytes
  maxAlign_pow2 : IsPow2 maxAlign
  maxAlign_lt : maxAlign < 256 ^ ptrBytes

/-- The 32-bit ARM target, the PYNQ board. -/
def Abi.arm32 : Abi where
  ptrBytes := 4
  maxAlign := 16
  ptrBytes_pos := by decide
  maxAlign_pow2 := ⟨4, rfl⟩
  maxAlign_lt := by decide

/-- The 64-bit targets the tests run on. -/
def Abi.lp64 : Abi where
  ptrBytes := 8
  maxAlign := 32
  ptrBytes_pos := by decide
  maxAlign_pow2 := ⟨5, rfl⟩
  maxAlign_lt := by decide

namespace Abi

variable (A : Abi)

/-- One more than the largest `size_t`. -/
def modulus : ℕ := 256 ^ A.ptrBytes

def add (a b : ℕ) : ℕ := Unsigned.add A.modulus a b
def sub (a b : ℕ) : ℕ := Unsigned.sub A.modulus a b
def mul (a b : ℕ) : ℕ := Unsigned.mul A.modulus a b

/-- `sizeof (Free_List_Node)`: a pointer and a size. -/
def sizeofNode : ℕ := 2 * A.ptrBytes

/-- `sizeof (Free_List_Allocation_Header)`: three sizes. -/
def sizeofHeader : ℕ := 3 * A.ptrBytes

variable {A} {a b : ℕ}

theorem add_of_lt (h : a + b < A.modulus) : A.add a b = a + b := Unsigned.add_of_lt h

theorem sub_of_le (hb : b ≤ a) (ha : a < A.modulus) : A.sub a b = a - b := Unsigned.sub_of_le hb ha

theorem mul_of_lt (h : a * b < A.modulus) : A.mul a b = a * b := Unsigned.mul_of_lt h

theorem sizeofNode_pos : 0 < A.sizeofNode := by
  have := A.ptrBytes_pos
  unfold sizeofNode
  omega

theorem sizeofHeader_lt_modulus : A.sizeofHeader < A.modulus := by
  have h : ∀ n, 3 * (n + 1) < 256 ^ (n + 1) := fun n => by
    induction n with
    | zero => decide
    | succ n ih =>
      rw [pow_succ]
      omega
  obtain ⟨n, hn⟩ := Nat.exists_eq_succ_of_ne_zero A.ptrBytes_pos.ne'
  rw [sizeofHeader, modulus, hn]
  exact h n

theorem maxAlign_pos : 0 < A.maxAlign := A.maxAlign_pow2.pos

end Abi

variable (A : Abi)

def isPowerOfTwo (x : ℕ) : Bool := x != 0 && x &&& A.sub x 1 == 0

/-- The common body of the two `align_forward` functions. -/
def alignForward (ptr align : ℕ) : Option ℕ :=
  if isPowerOfTwo A align then
    let modulo := ptr &&& A.sub align 1
    if modulo ≠ 0 then some (A.add ptr (A.sub align modulo)) else some ptr
  else none

def alignForwardUintptr (ptr align : ℕ) : Option ℕ := alignForward A ptr align

def alignForwardSize (ptr align : ℕ) : Option ℕ := alignForward A ptr align

def calcPaddingWithHeader (ptr alignment headerSize : ℕ) : Option ℕ :=
  if isPowerOfTwo A alignment then
    let modulo := ptr &&& A.sub alignment 1
    let padding := if modulo ≠ 0 then A.sub alignment modulo else 0
    if padding < headerSize then
      let neededSpace := A.sub headerSize padding
      if neededSpace &&& A.sub alignment 1 ≠ 0 then
        some (A.add padding (A.mul alignment (A.add 1 (neededSpace / alignment))))
      else
        some (A.add padding (A.mul alignment (neededSpace / alignment)))
    else some padding
  else none

variable {A} {p a n : ℕ}

theorem isPowerOfTwo_iff (ha : a < A.modulus) : isPowerOfTwo A a = true ↔ IsPow2 a := by
  rcases Nat.eq_zero_or_pos a with rfl | hpos
  · simp only [isPowerOfTwo, bne_self_eq_false, Bool.false_and, Bool.false_eq_true, false_iff]
    exact fun h => absurd h.pos (lt_irrefl 0)
  · rw [isPowerOfTwo, Abi.sub_of_le (by omega) ha, Bool.and_eq_true, bne_iff_ne, beq_iff_eq,
      land_pred_eq_zero_iff hpos]
    exact and_iff_right (by omega)

theorem mask_eq_mod (ha : IsPow2 a) (hlt : a < A.modulus) (p : ℕ) : p &&& A.sub a 1 = p % a := by
  rw [Abi.sub_of_le ha.pos hlt, ha.land_sub_one]

theorem alignForward_eq (ha : IsPow2 a) (hlt : a < A.modulus) (h : roundUp p a < A.modulus) :
    alignForward A p a = some (roundUp p a) := by
  have hmod := Nat.mod_lt p ha.pos
  rw [alignForward, if_pos ((isPowerOfTwo_iff hlt).mpr ha)]
  simp only [mask_eq_mod ha hlt, roundUp] at h ⊢
  by_cases hz : p % a = 0
  · simp [hz]
  · rw [if_neg hz] at h
    simp only [hz, ne_eq, not_false_eq_true, if_true, if_false]
    rw [Abi.sub_of_le (by omega) hlt, Abi.add_of_lt h]

/-- Without room for the rounded value, rounding up wraps. -/
theorem alignForward_eq_mod (ha : IsPow2 a) (hlt : a < A.modulus) (hp : p < A.modulus) :
    alignForward A p a = some (roundUp p a % A.modulus) := by
  have hmod := Nat.mod_lt p ha.pos
  rw [alignForward, if_pos ((isPowerOfTwo_iff hlt).mpr ha)]
  simp only [mask_eq_mod ha hlt, roundUp]
  by_cases hz : p % a = 0
  · simp [hz, Nat.mod_eq_of_lt hp]
  · simp only [hz, ne_eq, not_false_eq_true, if_true, if_false]
    rw [Abi.sub_of_le (by omega) hlt]
    rfl

/-- The least number that is at least `n` and takes `p` to a multiple of `a`. -/
def leastPadding (p a n : ℕ) : ℕ := roundUp (p + n) a - p

theorem le_leastPadding (p a n : ℕ) : n ≤ leastPadding p a n := by
  have := le_roundUp (p + n) a
  unfold leastPadding
  omega

theorem add_leastPadding (p a n : ℕ) : p + leastPadding p a n = roundUp (p + n) a := by
  have := le_roundUp (p + n) a
  unfold leastPadding
  omega

theorem add_leastPadding_mod (p n : ℕ) (h : 0 < a) : (p + leastPadding p a n) % a = 0 := by
  rw [add_leastPadding, roundUp_mod _ h]

theorem leastPadding_lt (p n : ℕ) (h : 0 < a) : leastPadding p a n < n + a := by
  have := roundUp_lt (p + n) h
  unfold leastPadding
  omega

theorem leastPadding_le {q : ℕ} (h : 0 < a) (hn : n ≤ q) (hq : (p + q) % a = 0) :
    leastPadding p a n ≤ q := by
  have := roundUp_le (p := p + n) h (Nat.dvd_of_mod_eq_zero hq) (by omega)
  unfold leastPadding
  omega

theorem calcPaddingWithHeader_eq (ha : IsPow2 a) (hlt : a < A.modulus) (hn : n < A.modulus)
    (h : leastPadding p a n < A.modulus) :
    calcPaddingWithHeader A p a n = some (leastPadding p a n) := by
  have hpos := ha.pos
  have hmod := Nat.mod_lt p hpos
  rw [calcPaddingWithHeader, if_pos ((isPowerOfTwo_iff hlt).mpr ha)]
  simp only [mask_eq_mod ha hlt]
  -- The first padding brings `p` to the next multiple of the alignment.
  obtain ⟨d, hd⟩ : ∃ d, d = roundUp p a - p := ⟨_, rfl⟩
  have hfirst : (if p % a ≠ 0 then A.sub a (p % a) else 0) = d := by
    rw [hd, roundUp]
    by_cases hz : p % a = 0
    · simp [hz]
    · rw [if_pos hz, if_neg hz, Abi.sub_of_le (by omega) hlt]
      omega
  have hround : p + d = roundUp p a := by
    have := le_roundUp p a
    omega
  have hmul : (p + d) % a = 0 := by rw [hround, roundUp_mod p hpos]
  rw [hfirst]
  by_cases hdn : d < n
  · -- The header needs the room of further multiples of the alignment.
    have hleast : leastPadding p a n = d + roundUp (n - d) a := by
      have he : p + n = (p + d) + (n - d) := by omega
      rw [leastPadding, he, roundUp_add hmul hpos]
      omega
    rw [hleast] at h ⊢
    rw [if_pos hdn, Abi.sub_of_le (by omega) hn]
    rw [roundUp_eq_mul _ hpos] at h ⊢
    by_cases hz : (n - d) % a = 0
    · rw [if_pos hz] at h ⊢
      rw [if_neg (by simpa using hz), Abi.mul_of_lt (by omega), Abi.add_of_lt h]
    · rw [if_neg hz] at h ⊢
      have hle : 1 + (n - d) / a ≤ a * (1 + (n - d) / a) := Nat.le_mul_of_pos_left _ hpos
      rw [if_pos hz, Abi.add_of_lt (a := 1) (by omega), Abi.mul_of_lt (by omega), Abi.add_of_lt h]
  · have hleast : leastPadding p a n = d := by
      have hlt' := roundUp_lt p hpos
      rw [leastPadding, roundUp_eq (m := p + d) hmul (by omega) (by omega)]
      omega
    rw [if_neg hdn, hleast]

/-- The padding leaves room for the header before an aligned address, and no smaller one does. -/
theorem calcPaddingWithHeader_isLeast {ptr alignment headerSize : ℕ} (ha : IsPow2 alignment)
    (h : ptr + headerSize + alignment < A.modulus) :
    ∃ padding, calcPaddingWithHeader A ptr alignment headerSize = some padding ∧
      IsLeast {q | headerSize ≤ q ∧ (ptr + q) % alignment = 0} padding ∧
      padding < headerSize + alignment := by
  have hlt := leastPadding_lt ptr headerSize ha.pos
  refine ⟨leastPadding ptr alignment headerSize, ?_, ⟨⟨?_, ?_⟩, ?_⟩, hlt⟩
  · exact calcPaddingWithHeader_eq ha (by omega) (by omega) (by omega)
  · exact le_leastPadding ptr alignment headerSize
  · exact add_leastPadding_mod ptr headerSize ha.pos
  · rintro q ⟨hn, hq⟩
    exact leastPadding_le ha.pos hn hq

/-- A node 4 bytes past a multiple of the alignment, whose header spans the next multiple. -/
theorem calcPaddingWithHeader_isLeast_arm32 : IsPow2 16 ∧ 20 + 24 + 16 < Abi.arm32.modulus ∧
    calcPaddingWithHeader Abi.arm32 20 16 24 = some 28 ∧
    IsLeast {q | 24 ≤ q ∧ (20 + q) % 16 = 0} 28 := by
  have hpow : IsPow2 16 := ⟨4, rfl⟩
  have hsum : 20 + 24 + 16 < Abi.arm32.modulus := by decide
  have he : calcPaddingWithHeader Abi.arm32 20 16 24 = some 28 := by decide
  obtain ⟨padding, hp, hleast, -⟩ := calcPaddingWithHeader_isLeast hpow hsum
  obtain rfl := Option.some.inj (hp.symm.trans he)
  exact ⟨hpow, hsum, he, hleast⟩

end Strela.Allocator
