import Strela.Foundation.Gather
import Mathlib.Data.Set.Function

/-! # Effects that are put off

An effect on a memory is local to a set of addresses if it depends on these alone
and changes nothing else. What happens elsewhere in the meantime then commutes
with it, so that effects may be put off and carried out later, in their order.
-/

namespace Foundation

variable {ι β : Type*}

/-- The effect reads and writes no address outside of the set. -/
structure Local (F : Set ι) (f : (ι → β) → ι → β) : Prop where
  inside : ∀ m m' : ι → β, Set.EqOn m m' F → Set.EqOn (f m) (f m') F
  outside : ∀ (m : ι → β) (x : ι), x ∉ F → f m x = m x

def carryOut (fs : List ((ι → β) → ι → β)) (m : ι → β) : ι → β := fs.foldl (fun m f => f m) m

theorem carryOut_append (fs gs : List ((ι → β) → ι → β)) (m : ι → β) :
    carryOut (fs ++ gs) m = carryOut gs (carryOut fs m) := List.foldl_append

theorem carryOut_of_keeps {fs : List ((ι → β) → ι → β)} {x : ι} (h : ∀ f ∈ fs, ∀ m, f m x = m x)
    (m : ι → β) : carryOut fs m x = m x := by
  induction fs generalizing m with
  | nil => rfl
  | cons f fs ih =>
    have hfs := ih (fun g hg => h g (List.mem_cons_of_mem f hg)) (f m)
    exact hfs.trans (h f List.mem_cons_self m)

namespace Local

variable {F G : Set ι} {f : (ι → β) → ι → β} {fs : List ((ι → β) → ι → β)}

theorem mono (h : Local F f) (hFG : F ⊆ G) : Local G f := by
  constructor
  · intro m m' hm x hx
    by_cases hF : x ∈ F
    · exact h.inside m m' (hm.mono hFG) hF
    · rw [h.outside m x hF, h.outside m' x hF, hm hx]
  · exact fun m x hx => h.outside m x fun hF => hx (hFG hF)

theorem carryOut (h : ∀ f ∈ fs, Local F f) : Local F (carryOut fs) := by
  induction fs with
  | nil => exact ⟨fun m m' hm => hm, fun m x _ => rfl⟩
  | cons f fs ih =>
    have hf := h f List.mem_cons_self
    have hfs := ih fun g hg => h g (List.mem_cons_of_mem f hg)
    constructor
    · exact fun m m' hm => hfs.inside _ _ (hf.inside m m' hm)
    · intro m x hx
      calc Foundation.carryOut (f :: fs) m x
        _ = f m x := hfs.outside (f m) x hx
        _ = m x := hf.outside m x hx

theorem update [DecidableEq ι] (h : Local F f) {x : ι} (hx : x ∉ F) (m : ι → β) (b : β) :
    f (Function.update m x b) = Function.update (f m) x b := by
  have hne {y : ι} (hy : y ∈ F) : y ≠ x := by
    rintro rfl
    exact hx hy
  have hm : Set.EqOn (Function.update m x b) m F := fun y hy => Function.update_of_ne (hne hy) b m
  funext y
  by_cases hy : y ∈ F
  · rw [h.inside _ _ hm hy, Function.update_of_ne (hne hy)]
  · rw [h.outside _ y hy]
    by_cases he : y = x
    · rw [he, Function.update_self, Function.update_self]
    · rw [Function.update_of_ne he, Function.update_of_ne he, h.outside m y hy]

end Local

namespace Gather

variable {g g' : Gather} {m m' : Mem} {a b len n o : ℕ}

theorem local_run (g : Gather) : Local {x | g.Reads x ∨ g.Writes x} g.run := by
  constructor
  · exact fun m m' hm x hx => after_congr (fun y hy => hm hy) le_rfl hx
  · exact fun m x hx => after_of_not_writes le_rfl fun hw => hx (.inr hw)

/-- The same gather over a window of addresses that starts elsewhere. -/
structure Moved (a b len : ℕ) (g g' : Gather) : Prop where
  size : g'.size = g.size
  count : g'.count = g.count
  src : ∀ k < g.count, ∃ o, g.src k = a + o ∧ g'.src k = b + o ∧ o + g.size ≤ len
  dst : ∀ k < g.count, ∃ o, g.dst + k * g.size = a + o ∧ g'.dst + k * g.size = b + o ∧
    o + g.size ≤ len

/-- Over two windows that show the same bytes a gather leaves the same bytes. -/
theorem Moved.after (h : Moved a b len g g') (hm : ∀ o < len, m (a + o) = m' (b + o))
    (hn : n ≤ g.count) (ho : o < len) : g.after m n (a + o) = g'.after m' n (b + o) := by
  induction n generalizing o with
  | zero => exact hm o ho
  | succ n ih =>
    obtain ⟨d, hd, hd', hdl⟩ := h.dst n hn
    obtain ⟨s, hs, hs', hsl⟩ := h.src n hn
    have hsize := h.size
    rw [after_succ, after_succ, Mem.copy, Mem.copy, hsize, hd, hd', hs, hs']
    by_cases hin : d ≤ o ∧ o < d + g.size
    · rw [if_pos (by omega), if_pos (by omega)]
      have hread := ih (by omega) (o := s + (o - d)) (by omega)
      rwa [show a + s + (a + o - (a + d)) = a + (s + (o - d)) by omega,
        show b + s + (b + o - (b + d)) = b + (s + (o - d)) by omega]
    · rw [if_neg (by omega), if_neg (by omega)]
      exact ih (by omega) ho

theorem Moved.run (h : Moved a b len g g') (hm : ∀ o < len, m (a + o) = m' (b + o)) (ho : o < len) :
    g.run m (a + o) = g'.run m' (b + o) := by
  rw [Gather.run, Gather.run, h.count]
  exact h.after hm le_rfl ho

theorem Moved.writes (h : Moved a b len g g') {x : ℕ} (hx : g'.Writes x) :
    b ≤ x ∧ x < b + len := by
  obtain ⟨hlo, hhi⟩ := hx
  rw [h.size, h.count] at hhi
  have hpos : 0 < g.size := by
    by_contra hz
    rw [show g.size = 0 by omega] at hhi
    omega
  have hk : (x - g'.dst) / g.size < g.count :=
    (Nat.div_lt_iff_lt_mul hpos).mpr (by omega)
  obtain ⟨o, -, ho, hle⟩ := h.dst _ hk
  have hdiv := Nat.div_add_mod (x - g'.dst) g.size
  have hmod := Nat.mod_lt (x - g'.dst) hpos
  rw [mul_comm] at hdiv
  omega

end Gather

end Foundation
