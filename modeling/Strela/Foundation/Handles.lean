import Mathlib.Data.List.Basic

/-! # Handles in use

What a client holds of a system that gives out handles: each one in use, with what
it stands for. A handle given back right after it was taken leaves no trace, and
handles can be given back in any order.
-/

namespace Foundation

variable {κ α : Type*}

abbrev Handles (κ α : Type*) := List (κ × α)

namespace Handles

def Free (t : Handles κ α) (k : κ) : Prop := ∀ a, (k, a) ∉ t

def take (t : Handles κ α) (k : κ) (a : α) : Handles κ α := (k, a) :: t

def give [DecidableEq κ] (t : Handles κ α) (k : κ) : Handles κ α := t.filter fun p => p.1 ≠ k

variable {t : Handles κ α} {j k : κ} {a : α}

theorem Free.of_take (h : (t.take j a).Free k) : t.Free k :=
  fun b hb => h b (List.mem_cons_of_mem _ hb)

variable [DecidableEq κ]

theorem give_of_free (h : t.Free k) : t.give k = t := by
  refine List.filter_eq_self.mpr fun p hp => ?_
  have hne : p.1 ≠ k := by
    rintro rfl
    exact h p.2 hp
  simpa using hne

theorem give_take (h : t.Free k) : (t.take k a).give k = t := by
  rw [take, give, List.filter_cons_of_neg (by simp)]
  exact give_of_free h

theorem give_take_of_ne (h : j ≠ k) : (t.take j a).give k = (t.give k).take j a :=
  List.filter_cons_of_pos (by simpa using h)

end Handles

end Foundation
