import Mathlib.Data.Nat.Bitwise
import Mathlib.Algebra.Order.Group.Nat
import Mathlib.Tactic.Ring

/-! # Unsigned machine arithmetic

Addition, subtraction and multiplication modulo a word size, and the masks by
which code computes remainders by powers of two. Every operation has a lemma
that replaces it by the operation on the naturals when nothing wraps.
-/

namespace Foundation.Unsigned

variable {M a b c : ℕ}

def add (M a b : ℕ) : ℕ := (a + b) % M

/-- Subtraction modulo the word size, for operands below it. -/
def sub (M a b : ℕ) : ℕ := (a + (M - b)) % M

def mul (M a b : ℕ) : ℕ := (a * b) % M

theorem add_of_lt (h : a + b < M) : add M a b = a + b := Nat.mod_eq_of_lt h

theorem mul_of_lt (h : a * b < M) : mul M a b = a * b := Nat.mod_eq_of_lt h

theorem sub_of_le (hb : b ≤ a) (ha : a < M) : sub M a b = a - b := by
  have he : a + (M - b) = (a - b) + M := by omega
  rw [sub, he, Nat.add_mod_right, Nat.mod_eq_of_lt (by omega)]

def IsPow2 (a : ℕ) : Prop := ∃ k, a = 2 ^ k

theorem IsPow2.pos (h : IsPow2 a) : 0 < a := by
  obtain ⟨k, rfl⟩ := h
  exact Nat.two_pow_pos k

theorem IsPow2.dvd (ha : IsPow2 a) (hb : IsPow2 b) (h : a ≤ b) : a ∣ b := by
  obtain ⟨i, rfl⟩ := ha
  obtain ⟨j, rfl⟩ := hb
  exact Nat.pow_dvd_pow 2 ((Nat.pow_le_pow_iff_right (by omega)).mp h)

theorem IsPow2.max (ha : IsPow2 a) (hb : IsPow2 b) : IsPow2 (max a b) := by
  rcases le_total a b with h | h
  · rwa [max_eq_right h]
  · rwa [max_eq_left h]

theorem IsPow2.land_sub_one (h : IsPow2 a) (p : ℕ) : p &&& (a - 1) = p % a := by
  obtain ⟨k, rfl⟩ := h
  exact Nat.and_two_pow_sub_one_eq_mod p k

theorem land_complement (hM : IsPow2 M) (ha : IsPow2 a) (hle : a ≤ M) {p : ℕ} (hp : p < M) :
    p &&& (M - a) = p - p % a := by
  obtain ⟨k, rfl⟩ := ha
  obtain ⟨n, rfl⟩ := hM
  have hpos : 0 < 2 ^ k := Nat.two_pow_pos k
  obtain ⟨q, hq, he⟩ : ∃ q, IsPow2 q ∧ 2 ^ n = 2 ^ k * q := by
    refine ⟨2 ^ (n - k), ⟨_, rfl⟩, ?_⟩
    rw [← Nat.pow_add, Nat.add_sub_cancel' ((Nat.pow_le_pow_iff_right (by omega)).mp hle)]
  rw [he] at hp ⊢
  have hmask : 2 ^ k * q - 2 ^ k = 2 ^ k * (q - 1) := by rw [Nat.mul_sub, Nat.mul_one]
  have hdiv : (p &&& (2 ^ k * q - 2 ^ k)) / 2 ^ k = p / 2 ^ k := by
    rw [Nat.and_div_two_pow, hmask, Nat.mul_div_cancel_left _ hpos, hq.land_sub_one,
      Nat.mod_eq_of_lt (Nat.div_lt_of_lt_mul hp)]
  have hmod : (p &&& (2 ^ k * q - 2 ^ k)) % 2 ^ k = 0 := by
    rw [Nat.and_mod_two_pow, hmask, Nat.mul_mod_right, Nat.and_zero]
  have h₁ := Nat.div_add_mod (p &&& (2 ^ k * q - 2 ^ k)) (2 ^ k)
  have h₂ := Nat.div_add_mod p (2 ^ k)
  rw [hdiv, hmod] at h₁
  omega

/-- The test `x & (x - 1) == 0` recognises the powers of two among the positive numbers. -/
theorem land_pred_eq_zero_iff (h : 0 < a) : a &&& (a - 1) = 0 ↔ IsPow2 a := by
  constructor
  · intro hz
    by_contra hn
    -- Between two consecutive powers the number and its predecessor share their leading bit.
    have hlt : 2 ^ a.log2 < a := lt_of_le_of_ne (Nat.log2_self_le (by omega))
      fun he => hn ⟨a.log2, he.symm⟩
    have hup : a < 2 ^ (a.log2 + 1) := Nat.lt_log2_self
    have hb : (a &&& (a - 1)).testBit a.log2 = true := by
      rw [Nat.testBit_and, Bool.and_eq_true]
      constructor <;> rw [Nat.testBit_eq_decide_div_mod_eq, decide_eq_true_eq]
      · have : a / 2 ^ a.log2 = 1 := Nat.div_eq_of_lt_le (by omega) (by rw [pow_succ] at hup; omega)
        rw [this]
      · have : (a - 1) / 2 ^ a.log2 = 1 :=
          Nat.div_eq_of_lt_le (by omega) (by rw [pow_succ] at hup; omega)
        rw [this]
    rw [hz] at hb
    simp at hb
  · intro hp
    rw [hp.land_sub_one, Nat.mod_self]

/-- The least multiple of `a` that is at least `p`. -/
def roundUp (p a : ℕ) : ℕ := if p % a = 0 then p else p + (a - p % a)

theorem le_roundUp (p a : ℕ) : p ≤ roundUp p a := by
  unfold roundUp
  split <;> omega

theorem roundUp_mod (p : ℕ) (h : 0 < a) : roundUp p a % a = 0 := by
  unfold roundUp
  split
  · assumption
  · have hlt := Nat.mod_lt p h
    have he : p + (a - p % a) = a * (p / a) + a := by
      have := Nat.div_add_mod p a
      omega
    rw [he]
    simp

theorem roundUp_lt (p : ℕ) (h : 0 < a) : roundUp p a < p + a := by
  unfold roundUp
  have := Nat.mod_lt p h
  split <;> omega

/-- A multiple of `a` at most `a - 1` above `p` is the rounded value. -/
theorem roundUp_eq {p m : ℕ} (hm : m % a = 0) (hl : p ≤ m) (hu : m < p + a) : roundUp p a = m := by
  have ha : 0 < a := by omega
  have hle := le_roundUp p a
  have hlt := roundUp_lt p ha
  have hr := Nat.dvd_of_mod_eq_zero (roundUp_mod p ha)
  have hm := Nat.dvd_of_mod_eq_zero hm
  rcases le_total m (roundUp p a) with h | h
  · have := Nat.eq_zero_of_dvd_of_lt (Nat.dvd_sub hr hm) (by omega)
    omega
  · have := Nat.eq_zero_of_dvd_of_lt (Nat.dvd_sub hm hr) (by omega)
    omega

theorem roundUp_le {p m : ℕ} (ha : 0 < a) (hm : a ∣ m) (hl : p ≤ m) : roundUp p a ≤ m := by
  by_contra hlt
  have hdvd := Nat.dvd_sub (Nat.dvd_of_mod_eq_zero (roundUp_mod p ha)) hm
  have hle := Nat.le_of_dvd (by omega) hdvd
  have := roundUp_lt p ha
  omega

theorem roundUp_add {q : ℕ} (hq : q % a = 0) (ha : 0 < a) (k : ℕ) :
    roundUp (q + k) a = q + roundUp k a := by
  have hle := le_roundUp k a
  have hlt := roundUp_lt k ha
  exact roundUp_eq (by rw [Nat.add_mod, hq, roundUp_mod k ha]; simp) (by omega) (by omega)

theorem roundUp_eq_mul (p : ℕ) (ha : 0 < a) :
    roundUp p a = a * (if p % a = 0 then p / a else 1 + p / a) := by
  have hdm := Nat.div_add_mod p a
  unfold roundUp
  split_ifs with h
  · omega
  · have := Nat.mod_lt p ha
    rw [Nat.mul_add]
    omega

end Foundation.Unsigned
