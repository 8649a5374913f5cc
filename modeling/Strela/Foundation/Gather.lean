import Strela.Foundation.Bytes

/-! # Gathering copies

A gather copies units of a fixed size from scattered places to consecutive ones.
Unit after unit, and gather after gather, the result is the initial memory read
through one map of addresses, as long as nothing is written that is read later,
or is written as it was. Gathers that stay away from what the others write commute,
whatever each does to its own sources.
-/

namespace Foundation

namespace Mem

/-- Copy `n` bytes, all read before one is written. -/
def copy (m : Mem) (dst src n : ℕ) : Mem := fun x =>
  if dst ≤ x ∧ x < dst + n then m (src + (x - dst)) else m x

end Mem

/-- `count` units, the `k`-th from `src k`, to consecutive places from `dst` on. -/
structure Gather where
  size : ℕ
  count : ℕ
  src : ℕ → ℕ
  dst : ℕ

namespace Gather

def Writes (g : Gather) (x : ℕ) : Prop := g.dst ≤ x ∧ x < g.dst + g.count * g.size

def Reads (g : Gather) (x : ℕ) : Prop := ∃ k < g.count, ∃ j < g.size, x = g.src k + j

instance (g : Gather) (x : ℕ) : Decidable (g.Writes x) := inferInstanceAs (Decidable (_ ∧ _))

/-- Where the byte written at an address comes from. -/
def origin (g : Gather) (x : ℕ) : Option ℕ :=
  if g.Writes x then some (g.src ((x - g.dst) / g.size) + (x - g.dst) % g.size) else none

def after (g : Gather) (m : Mem) (n : ℕ) : Mem :=
  (List.range n).foldl (fun m k => m.copy (g.dst + k * g.size) (g.src k) g.size) m

def run (g : Gather) (m : Mem) : Mem := g.after m g.count

def runAll (gs : List Gather) (m : Mem) : Mem := gs.foldl (fun m g => g.run m) m

variable {g : Gather} {gs : List Gather} {m : Mem} {n x y : ℕ}

theorem after_succ (g : Gather) (m : Mem) (n : ℕ) :
    g.after m (n + 1) = (g.after m n).copy (g.dst + n * g.size) (g.src n) g.size := by
  simp [after, List.range_succ]

theorem unit_cases : x < g.dst + (n + 1) * g.size ↔
    x < g.dst + n * g.size ∨ g.dst + n * g.size ≤ x ∧ x < g.dst + n * g.size + g.size := by
  rw [Nat.add_mul, one_mul]
  omega

/-- A byte that one unit has written and a later one reads was copied from its own place. -/
def Settled (g : Gather) : Prop := ∀ k < g.count, ∀ j < g.size, g.dst ≤ g.src k + j →
  g.src k + j < g.dst + k * g.size →
  g.src ((g.src k + j - g.dst) / g.size) + (g.src k + j - g.dst) % g.size = g.src k + j

theorem settled_of_apart (hg : ∀ y, g.Reads y → ¬ g.Writes y) : g.Settled := by
  intro k hk j hj hlo hhi
  have hle : k * g.size ≤ g.count * g.size := Nat.mul_le_mul_right _ hk.le
  exact absurd ⟨hlo, by omega⟩ (hg _ ⟨k, hk, j, hj, rfl⟩)

/-- A gather that starts at or before each of its sources, counted from the unit, reads ahead. -/
theorem settled_of_le (hg : ∀ k < g.count, g.dst + k * g.size ≤ g.src k) : g.Settled := by
  intro k hk j hj hlo hhi
  have := hg k hk
  omega

/-- A gather that repeats one unit may overwrite it, with itself. -/
theorem settled_of_repeat {s : ℕ} (hs : ∀ k < g.count, g.src k = s)
    (hd : g.size ∣ s - g.dst) (hd' : g.size ∣ g.dst - s) : g.Settled := by
  intro k hk j hj hlo hhi
  rw [hs k hk] at hlo hhi ⊢
  -- The unit is one of those written, since both are multiples of the size apart.
  have hle : g.dst ≤ s := by
    by_contra hlt
    have := Nat.le_of_dvd (by omega) hd'
    omega
  have hsub : s + j - g.dst = j + (s - g.dst) := by omega
  obtain ⟨q, hq⟩ := hd
  have hpos : 0 < g.size := by omega
  have hunit : (s + j - g.dst) / g.size = q := by
    rw [hsub, hq, Nat.add_mul_div_left _ _ hpos, Nat.div_eq_of_lt hj, Nat.zero_add]
  have hqk : q < k := by
    by_contra hge
    have := Nat.mul_le_mul_left g.size (not_lt.mp hge)
    rw [mul_comm g.size k] at this
    omega
  rw [hunit, hs q (by omega), hsub, hq, Nat.add_mul_mod_self_left, Nat.mod_eq_of_lt hj]

theorem after_of_not_writes (hn : n ≤ g.count) (hx : ¬ g.Writes x) : g.after m n x = m x := by
  induction n with
  | zero => rfl
  | succ n ih =>
    have hfull := Nat.mul_le_mul_right g.size hn
    rw [Nat.add_mul, one_mul] at hfull
    rw [after_succ, Mem.copy, if_neg, ih (by omega)]
    rintro ⟨hlo, hhi⟩
    exact hx ⟨by omega, by omega⟩

theorem after_eq (hg : g.Settled) (hn : n ≤ g.count) (x : ℕ) :
    g.after m n x = if g.dst ≤ x ∧ x < g.dst + n * g.size then
      m (g.src ((x - g.dst) / g.size) + (x - g.dst) % g.size) else m x := by
  induction n generalizing x with
  | zero =>
    rw [if_neg (by omega)]
    rfl
  | succ n ih =>
    rw [after_succ, Mem.copy]
    by_cases hlast : g.dst + n * g.size ≤ x ∧ x < g.dst + n * g.size + g.size
    · have hdiv : (x - g.dst) / g.size = n :=
        Nat.div_eq_of_lt_le (by omega) (by rw [Nat.add_mul, one_mul]; omega)
      have hmod : (x - g.dst) % g.size = x - (g.dst + n * g.size) := by
        have := Nat.div_add_mod (x - g.dst) g.size
        rw [hdiv, mul_comm] at this
        omega
      have hin : g.dst ≤ x ∧ x < g.dst + (n + 1) * g.size :=
        ⟨by omega, unit_cases.mpr (.inr hlast)⟩
      rw [if_pos hlast, if_pos hin, ih (by omega), hdiv, hmod]
      -- What the last unit reads is as it was, or was written with itself.
      split_ifs with hread
      · rw [hg n (by omega) _ (by omega) hread.1 hread.2]
      · rfl
    · rw [if_neg hlast, ih (by omega)]
      have hiff : (g.dst ≤ x ∧ x < g.dst + (n + 1) * g.size) ↔
          (g.dst ≤ x ∧ x < g.dst + n * g.size) :=
        and_congr_right fun _ => by
          rw [unit_cases]
          exact or_iff_left hlast
      simp only [hiff]

/-- A settled gather is the initial memory read through its origins. -/
theorem run_eq (hg : g.Settled) (x : ℕ) : g.run m x = m ((g.origin x).getD x) := by
  have hiff : g.Writes x ↔ g.dst ≤ x ∧ x < g.dst + g.count * g.size := Iff.rfl
  rw [run, after_eq hg le_rfl, origin]
  by_cases hx : g.Writes x
  · rw [if_pos hx, if_pos (hiff.mp hx), Option.getD_some]
  · rw [if_neg hx, if_neg (mt hiff.mpr hx), Option.getD_none]

theorem writes_of_origin (h : g.origin x = some y) : g.Writes x := by
  by_contra hn
  rw [origin, if_neg hn] at h
  cases h

theorem reads_of_origin (h : g.origin x = some y) : g.Reads y := by
  have hx := writes_of_origin h
  rw [origin, if_pos hx] at h
  obtain rfl := Option.some.inj h
  have hpos : 0 < g.size := by
    by_contra hz
    obtain ⟨h₁, h₂⟩ := hx
    simp only [show g.size = 0 by omega, mul_zero] at h₂
    omega
  refine ⟨_, ?_, _, Nat.mod_lt _ hpos, rfl⟩
  obtain ⟨h₁, h₂⟩ := hx
  exact (Nat.div_lt_iff_lt_mul hpos).mpr (by omega)

theorem origin_unit {k j : ℕ} (hk : k < g.count) (hj : j < g.size) :
    g.origin (g.dst + k * g.size + j) = some (g.src k + j) := by
  have hfull : k * g.size + g.size ≤ g.count * g.size := by
    have := Nat.mul_le_mul_right g.size (Nat.succ_le_of_lt hk)
    rwa [Nat.succ_mul] at this
  have hsub : g.dst + k * g.size + j - g.dst = j + g.size * k := by
    rw [mul_comm g.size]
    omega
  rw [origin, if_pos ⟨by omega, by omega⟩, hsub, Nat.add_mul_div_left _ _ (by omega),
    Nat.div_eq_of_lt hj, Nat.zero_add, Nat.add_mul_mod_self_left, Nat.mod_eq_of_lt hj]

section RunAll

variable (hr : ∀ g ∈ gs, ∀ h ∈ gs, ∀ y, g.Reads y → ¬ h.Writes y)
  (hw : gs.Pairwise fun g h => ∀ y, g.Writes y → ¬ h.Writes y)

include hr hw

/-- Gathers that write nothing another reads or writes leave each byte as one of them has it from
the initial memory, and every other byte alone. -/
theorem runAll_eq (m : Mem) (x : ℕ) :
    (∀ g ∈ gs, ∀ y, g.origin x = some y → runAll gs m x = m y) ∧
    ((∀ g ∈ gs, ¬ g.Writes x) → runAll gs m x = m x) := by
  induction gs generalizing m with
  | nil => exact ⟨by simp, fun _ => rfl⟩
  | cons g gs ih =>
    obtain ⟨hg, hgs⟩ := List.pairwise_cons.mp hw
    have hself := run_eq (m := m) (settled_of_apart (hr g List.mem_cons_self g List.mem_cons_self))
    have keeps {z : ℕ} (hz : ¬ g.Writes z) : g.run m z = m z := by
      rw [hself, origin, if_neg hz, Option.getD_none]
    obtain ⟨hsome, hnone⟩ := ih
      (fun a ha b hb => hr a (List.mem_cons_of_mem g ha) b (List.mem_cons_of_mem g hb)) hgs
      (g.run m)
    rw [runAll, List.foldl_cons, ← runAll]
    constructor
    · intro h hm y ho
      rcases List.mem_cons.mp hm with rfl | hm
      · rw [hnone fun a ha => hg a ha x (writes_of_origin ho), hself, ho, Option.getD_some]
      · -- A later gather reads what the first one has not written.
        rw [hsome h hm y ho]
        exact keeps (hr h (List.mem_cons_of_mem g hm) g List.mem_cons_self y (reads_of_origin ho))
    · intro hx
      rw [hnone fun a ha => hx a (List.mem_cons_of_mem g ha)]
      exact keeps (hx g List.mem_cons_self)

end RunAll

/-! ## Gathers in any order -/

section Order

open scoped List

variable {g' : Gather} {m' : Mem}

theorem after_congr (h : ∀ x, g.Reads x ∨ g.Writes x → m x = m' x) (hn : n ≤ g.count)
    (hx : g.Reads x ∨ g.Writes x) : g.after m n x = g.after m' n x := by
  induction n generalizing x with
  | zero => exact h x hx
  | succ n ih =>
    rw [after_succ, after_succ, Mem.copy, Mem.copy]
    split_ifs with hlast
    · exact ih (by omega) (.inl ⟨n, by omega, _, by omega, rfl⟩)
    · exact ih (by omega) hx

/-- Neither gather writes what the other reads or writes. -/
def Apart (g g' : Gather) : Prop :=
  (∀ x, g.Writes x → ¬ g'.Reads x ∧ ¬ g'.Writes x) ∧
  ∀ x, g'.Writes x → ¬ g.Reads x ∧ ¬ g.Writes x

theorem Apart.symm (h : Apart g g') : Apart g' g := ⟨h.2, h.1⟩

/-- On what a gather writes it does not matter whether another has run before. -/
theorem Apart.run_run (h : Apart g g') (hx : g.Writes x) : g.run (g'.run m) x = g.run m x := by
  apply after_congr _ le_rfl (.inr hx)
  intro y hy
  apply after_of_not_writes le_rfl
  intro hw
  obtain ⟨hr, hnw⟩ := h.2 y hw
  exact hy.elim hr hnw

theorem Apart.run_comm (h : Apart g g') (m : Mem) : g.run (g'.run m) = g'.run (g.run m) := by
  funext x
  by_cases hx : g.Writes x
  · rw [h.run_run hx]
    exact (after_of_not_writes le_rfl (h.1 x hx).2).symm
  · by_cases hx' : g'.Writes x
    · rw [h.symm.run_run hx']
      exact after_of_not_writes le_rfl hx
    · calc g.run (g'.run m) x
        _ = g'.run m x := after_of_not_writes le_rfl hx
        _ = m x := after_of_not_writes le_rfl hx'
        _ = g.run m x := (after_of_not_writes le_rfl hx).symm
        _ = g'.run (g.run m) x := (after_of_not_writes le_rfl hx').symm

theorem runAll_perm {ι : Type*} {f : ι → Gather} {is js : List ι} (hp : is ~ js)
    (h : ∀ i j, i ≠ j → Apart (f i) (f j)) (m : Mem) :
    runAll (is.map f) m = runAll (js.map f) m := by
  simp only [runAll, List.foldl_map]
  apply hp.foldl_eq'
  intro i _ j _ m
  by_cases hij : i = j
  · rw [hij]
  · exact (h j i (Ne.symm hij)).run_comm m

end Order

end Gather

end Foundation
