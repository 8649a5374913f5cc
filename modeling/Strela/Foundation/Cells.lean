import Strela.Foundation.Blocks
import Mathlib.Data.List.Range

/-! # Cells of one size and lists threaded through them

A region cut into consecutive cells of one size, and lists of nodes, each of
which names the next, that end at the null node. A list is changed by what is
written at its nodes only, so that it grows and shrinks at its head.
-/

namespace Foundation

variable {start size count c d i : ℕ}

/-- The addresses of the first `count` cells of `size` bytes from `start` on. -/
def cells (start size count : ℕ) : List ℕ := (List.range count).map fun i => start + i * size

theorem mem_cells : c ∈ cells start size count ↔ ∃ i < count, start + i * size = c := by
  simp [cells]

theorem length_cells (start size count : ℕ) : (cells start size count).length = count := by
  simp [cells]

theorem cells_succ (start size count : ℕ) :
    cells start size (count + 1) = cells start size count ++ [start + count * size] := by
  simp [cells, List.range_succ]

theorem cell_index (start : ℕ) (hs : 0 < size) (i : ℕ) : (start + i * size - start) / size = i := by
  rw [Nat.add_sub_cancel_left, Nat.mul_div_cancel _ hs]

theorem map_index_cells (start : ℕ) (hs : 0 < size) (count : ℕ) :
    (cells start size count).map (fun c => (c - start) / size) = List.range count := by
  rw [cells, List.map_map]
  exact List.map_id'' (cell_index start hs) _

theorem nodup_cells (hs : 0 < size) (start count : ℕ) : (cells start size count).Nodup := by
  apply List.nodup_range.map_on
  intro i _ j _ h
  rw [← cell_index start hs i, h, cell_index start hs]

theorem cell_inside (hc : c ∈ cells start size count) :
    start ≤ c ∧ c + size ≤ start + count * size := by
  obtain ⟨i, hi, rfl⟩ := mem_cells.mp hc
  have := Nat.mul_le_mul_right size (Nat.succ_le_of_lt hi)
  rw [Nat.succ_mul] at this
  omega

theorem cells_apart (hc : c ∈ cells start size count) (hd : d ∈ cells start size count)
    (hne : c ≠ d) : Block.Apart ⟨c, size⟩ ⟨d, size⟩ := by
  obtain ⟨i, -, rfl⟩ := mem_cells.mp hc
  obtain ⟨j, -, rfl⟩ := mem_cells.mp hd
  have hlt {i j : ℕ} (h : i < j) : i * size + size ≤ j * size := by
    rw [← Nat.succ_mul]
    exact Nat.mul_le_mul_right size h
  rcases lt_trichotomy i j with h | rfl | h
  · left
    have := hlt h
    simp only [Block.stop]
    omega
  · exact absurd rfl hne
  · right
    have := hlt h
    simp only [Block.stop]
    omega

/-! ## Threaded lists -/

variable {next next' : ℕ → ℕ} {head node : ℕ} {nodes : List ℕ}

/-- The nodes from a head on, each naming the next, up to null. -/
def Linked (next : ℕ → ℕ) : ℕ → List ℕ → Prop
  | head, [] => head = 0
  | head, node :: nodes => head = node ∧ node ≠ 0 ∧ Linked next (next node) nodes

theorem Linked.congr (h : Linked next head nodes) (he : ∀ n ∈ nodes, next' n = next n) :
    Linked next' head nodes := by
  induction nodes generalizing head with
  | nil => exact h
  | cons node nodes ih =>
    obtain ⟨rfl, hne, h⟩ := h
    refine ⟨rfl, hne, ?_⟩
    rw [he head List.mem_cons_self]
    exact ih h fun n hn => he n (List.mem_cons_of_mem _ hn)

theorem Linked.push (h : Linked next head nodes) (hne : node ≠ 0) (hn : next' node = head)
    (he : ∀ n ∈ nodes, next' n = next n) : Linked next' node (node :: nodes) :=
  ⟨rfl, hne, hn ▸ h.congr he⟩

theorem Linked.eq_nil_iff (h : Linked next head nodes) : nodes = [] ↔ head = 0 := by
  cases nodes with
  | nil => exact iff_of_true rfl h
  | cons node nodes =>
    obtain ⟨rfl, hne, -⟩ := h
    exact iff_of_false (List.cons_ne_nil _ _) hne

end Foundation
