import Mathlib.Data.Set.Basic
import Mathlib.Tactic.Ring

/-! # Byte-addressed memory

Memory is a function from addresses to bytes. Little-endian words of any width
are loaded and stored byte by byte; a load sees a store at its own address and
no store whose bytes are disjoint from it.
-/

namespace Foundation

abbrev Mem := ℕ → UInt8

namespace Mem

variable {m m' : Mem} {a b n k v w x : ℕ}

/-- The little-endian number in the `n` bytes at `a`. -/
def load (m : Mem) (a : ℕ) : ℕ → ℕ
  | 0 => 0
  | n + 1 => (m a).toNat + 256 * load m (a + 1) n

/-- Write the `n` low bytes of `v` at `a`, lowest first. -/
def store (m : Mem) (a n v : ℕ) : Mem := fun x =>
  if a ≤ x ∧ x < a + n then UInt8.ofNat (v / 256 ^ (x - a)) else m x

def storeByte (m : Mem) (a : ℕ) (b : UInt8) : Mem := fun x => if x = a then b else m x

/-- The two memories hold the same bytes outside `S`. -/
def EqOff (S : Set ℕ) (m m' : Mem) : Prop := ∀ x, x ∉ S → m' x = m x

theorem load_lt (m : Mem) (a n : ℕ) : load m a n < 256 ^ n := by
  induction n generalizing a with
  | zero => simp [load]
  | succ n ih =>
    have hb : (m a).toNat < 256 := (m a).toNat_lt
    have ht := ih (a + 1)
    rw [load, pow_succ]
    omega

theorem load_congr (h : ∀ x, a ≤ x → x < a + n → m' x = m x) : load m' a n = load m a n := by
  induction n generalizing a with
  | zero => rfl
  | succ n ih =>
    rw [load, load, h a le_rfl (by omega), ih fun x hl hu => h x (by omega) (by omega)]

theorem store_of_not_mem (h : x < a ∨ a + n ≤ x) : store m a n v x = m x := by
  unfold store
  rw [if_neg (by omega)]

theorem load_store_self (h : v < 256 ^ n) : load (store m a n v) a n = v := by
  induction n generalizing a v m with
  | zero => simp only [load]; simp only [pow_zero] at h; omega
  | succ n ih =>
    have hv : v / 256 < 256 ^ n := by
      rw [pow_succ] at h
      exact Nat.div_lt_of_lt_mul (by omega)
    have hhead : (store m a (n + 1) v a).toNat = v % 256 := by
      simp [store]
    -- Above the first byte the store is the store of the remaining bytes.
    have htail : load (store m a (n + 1) v) (a + 1) n =
        load (store m (a + 1) n (v / 256)) (a + 1) n := by
      apply load_congr
      intro x hl hu
      have hx : x - a = (x - (a + 1)) + 1 := by omega
      simp only [store]
      rw [if_pos (by omega), if_pos (by omega), hx, pow_succ, mul_comm, Nat.div_div_eq_div_mul]
    rw [load, hhead, htail, ih hv]
    omega

theorem load_store_of_disjoint (h : a + n ≤ b ∨ b + k ≤ a) :
    load (store m b k v) a n = load m a n :=
  load_congr fun _ _ _ => store_of_not_mem (by omega)

theorem store_comm (h : a + n ≤ b ∨ b + k ≤ a) :
    store (store m a n v) b k w = store (store m b k w) a n v := by
  funext x
  simp only [store]
  by_cases ha : a ≤ x ∧ x < a + n <;> by_cases hb : b ≤ x ∧ x < b + k
  · omega
  all_goals simp [ha, hb]

theorem load_storeByte (h : x < a ∨ a + n ≤ x) (b : UInt8) :
    load (storeByte m x b) a n = load m a n :=
  load_congr fun y _ _ => if_neg (by omega)

theorem store_storeByte (h : x < a ∨ a + n ≤ x) (b : UInt8) :
    store (storeByte m x b) a n v = storeByte (store m a n v) x b := by
  funext y
  simp only [store, storeByte]
  by_cases hy : y = x
  · rw [if_neg (by omega), if_pos hy, if_pos hy]
  · simp only [if_neg hy]

theorem storeByte_self (m : Mem) (x : ℕ) : storeByte m x (m x) = m := by
  funext y
  simp only [storeByte]
  split
  · rename_i hy
    rw [hy]
  · rfl

namespace EqOff

variable {S T : Set ℕ} {m'' : Mem}

theorem refl (S : Set ℕ) (m : Mem) : EqOff S m m := fun _ _ => rfl

theorem trans (h : EqOff S m m') (h' : EqOff S m' m'') : EqOff S m m'' :=
  fun x hx => (h' x hx).trans (h x hx)

theorem mono (h : EqOff S m m') (hs : S ⊆ T) : EqOff T m m' := fun x hx => h x fun hm => hx (hs hm)

theorem load_eq (h : EqOff S m m') (hd : ∀ x, a ≤ x → x < a + n → x ∉ S) :
    load m' a n = load m a n :=
  load_congr fun x hl hu => h x (hd x hl hu)

theorem store (h : ∀ x, a ≤ x → x < a + n → x ∈ S) : EqOff S m (m.store a n v) := fun x hx =>
  store_of_not_mem (by by_contra hc; exact hx (h x (by omega) (by omega)))

end EqOff

end Mem

end Foundation
