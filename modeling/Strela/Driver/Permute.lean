import Strela.Driver.Column

/-! # The order of the columns

The array moves its columns at once and the simulator one after another. Where
no column writes what another one reads or writes, no order can be told from any
other, even if a column works in place and overwrites its own input.
-/

namespace Strela.Driver

open Foundation
open scoped List

variable {w : ℕ} {objs : ObjId → GemObject w} {mapped : ObjId → Bool} {job : Buffers}
  {obj : Slot → ObjId} {file : FileId} {args : Submit} {i : Fin 4} {x : ℕ}

/-- The words that a column copies: as many as both its ends have. -/
def columnWords (job : Buffers) (i : Fin 4) : ℕ :=
  min (job.inputs i).count.toNat (job.outputs i).count.toNat

/-- The bytes of the first `n` words of a binding, taken `stride` words apart. -/
def Binding.bytes (objs : ObjId → GemObject w) (b : Binding) (stride n : ℕ) : Set ℕ :=
  {x | ∃ o, b.obj = some o ∧ ∃ k < n, ∃ j < wordSize,
    x = wordAddr objs o (b.offset.toNat + k * stride) + j}

def inputBytes (objs : ObjId → GemObject w) (job : Buffers) (i : Fin 4) : Set ℕ :=
  (job.inputs i).bytes objs (job.inputStrides i).toNat (columnWords job i)

def outputBytes (objs : ObjId → GemObject w) (job : Buffers) (i : Fin 4) : Set ℕ :=
  (job.outputs i).bytes objs 1 (columnWords job i)

/-- No output meets the input or the output of another column. -/
structure ColumnsApart (objs : ObjId → GemObject w) (job : Buffers) : Prop where
  inputs : ∀ i j, i ≠ j → Disjoint (outputBytes objs job i) (inputBytes objs job j)
  outputs : ∀ i j, i ≠ j → Disjoint (outputBytes objs job i) (outputBytes objs job j)

theorem Binding.disjoint_bytes {b c : Binding} {o : ObjId} {p q n n' : ℕ} (hb : b.obj = some o)
    (hc : c.obj = some o)
    (h : ∀ k < n, ∀ l < n', b.offset.toNat + k * p ≠ c.offset.toNat + l * q) :
    Disjoint (b.bytes objs p n) (c.bytes objs q n') := by
  rw [Set.disjoint_left]
  rintro x ⟨o₁, ho₁, k, hk, j, hj, rfl⟩ ⟨o₂, ho₂, l, hl, j', hj', hx⟩
  obtain rfl := Option.some.inj (hb.symm.trans ho₁)
  obtain rfl := Option.some.inj (hc.symm.trans ho₂)
  have hne := h k hk l hl
  simp only [wordAddr, wordSize] at hj hj' hx
  omega

section Job

variable (hr : Resolved objs file args job)
  (hc : ∀ s, strelaBindingCheck (objs (obj s)).size (args.source s) = .ok ())
  (he : ∀ s, job.get s = ⟨some (obj s), (args.source s).offset, (args.source s).count⟩)

include hr hc he

/-- The copy loop of an accepted column reads and writes the words of its bindings: the index of
`u32` does not wrap. -/
theorem mappedJobGather_touches :
    ((mappedJobGather objs mapped job obj i).Reads x → x ∈ inputBytes objs job i) ∧
    ((mappedJobGather objs mapped job obj i).Writes x → x ∈ outputBytes objs job i) := by
  have hi : job.inputs i = (args.inputs i).binding (obj (.input i)) := he (.input i)
  have ho : job.outputs i = (args.outputs i).strided.binding (obj (.output i)) := he (.output i)
  have hcount : (mappedJobGather objs mapped job obj i).count ≤ columnWords job i := by
    simp only [mappedJobGather, mappedGather, columnGather, toNat_min32, columnWords]
    split_ifs <;> omega
  constructor
  · rintro ⟨k, hk, j, hj, rfl⟩
    have hlt : k < columnWords job i := hk.trans_le hcount
    have hk' : k < (args.inputs i).count.toNat := by
      have := hlt.trans_le (min_le_left _ _)
      rwa [hi] at this
    have hindex : (BitVec.ofNat 32 k * (args.inputs i).stride).toNat =
        k * (args.inputs i).stride.toNat := index_eq (hc (.input i)) hk'
    refine ⟨obj (.input i), by rw [hi]; rfl, k, hlt, j, hj, ?_⟩
    simp only [mappedJobGather, mappedGather, columnGather, hr.strides i, hindex]
  · rintro ⟨hlo, hhi⟩
    have hdst : (mappedJobGather objs mapped job obj i).dst =
        wordAddr objs (obj (.output i)) (job.outputs i).offset.toNat := rfl
    have hsize : (mappedJobGather objs mapped job obj i).size = 4 := rfl
    rw [hdst] at hlo hhi
    rw [hsize] at hhi
    refine ⟨obj (.output i), by rw [ho]; rfl,
      (x - wordAddr objs (obj (.output i)) (job.outputs i).offset.toNat) / 4, by omega,
      (x - wordAddr objs (obj (.output i)) (job.outputs i).offset.toNat) % 4,
      Nat.mod_lt _ (by decide), ?_⟩
    simp only [wordAddr, wordSize] at hlo ⊢
    omega

theorem mappedJobGather_apart (ha : ColumnsApart objs job) {j : Fin 4} (hij : i ≠ j) :
    Gather.Apart (mappedJobGather objs mapped job obj i)
      (mappedJobGather objs mapped job obj j) := by
  have hone {a b : Fin 4} (hab : a ≠ b) {y : ℕ}
      (hy : (mappedJobGather objs mapped job obj a).Writes y) :
      ¬ (mappedJobGather objs mapped job obj b).Reads y ∧
      ¬ (mappedJobGather objs mapped job obj b).Writes y := by
    have hout := (mappedJobGather_touches hr hc he).2 hy
    constructor
    · intro hread
      exact Set.disjoint_left.mp (ha.inputs a b hab) hout
        ((mappedJobGather_touches hr hc he).1 hread)
    · intro hwrite
      exact Set.disjoint_left.mp (ha.outputs a b hab) hout
        ((mappedJobGather_touches hr hc he).2 hwrite)
  exact ⟨fun y => hone hij, fun y => hone (Ne.symm hij)⟩

end Job

/-- For every accepted job whose columns are apart, every order of the four columns leaves the
memory and the `fed` that the order of the worker leaves. -/
theorem simColumns_perm (hr : Resolved objs file args job) (ha : ColumnsApart objs job)
    {is : List (Fin 4)} (hp : is ~ List.finRange 4) (m : Mem) :
    ∃ fed m', simColumns objs mapped job (fun _ => true) (List.finRange 4) true m =
        some (some fed, m') ∧
      simColumns objs mapped job (fun _ => true) is true m = some (some fed, m') := by
  choose obj hc he using hr.checked
  have ho (s : Slot) : (job.get s).obj = some (obj s) := by rw [he s]
  refine ⟨_, _, simColumns_eq ho _ _ _, ?_⟩
  rw [simColumns_eq ho, hp.all_eq,
    Gather.runAll_perm hp fun i j hij => mappedJobGather_apart hr hc he ha hij]

/-- Three columns share one buffer: the first moves every other word to the front, in place, and the
next two read the same words. -/
def sharedSubmit : Submit where
  config := ⟨1, 0, 16⟩
  inputs := ![⟨1, 0, 4, 2⟩, ⟨1, 8, 4, 1⟩, ⟨1, 8, 4, 0⟩, ⟨1, 0, 0, 1⟩]
  outputs := ![⟨1, 0, 4⟩, ⟨1, 16, 4⟩, ⟨1, 20, 4⟩, ⟨1, 0, 2⟩]
  outSyncobj := 1
  flags := 0
  inSyncobj := 0
  pad := 0

def sharedBuffers : Buffers where
  config := ⟨some 0, 0, 16⟩
  inputs := ![⟨some 0, 0, 4⟩, ⟨some 0, 8, 4⟩, ⟨some 0, 8, 4⟩, ⟨some 0, 0, 0⟩]
  inputStrides := ![2, 1, 0, 1]
  outputs := ![⟨some 0, 0, 4⟩, ⟨some 0, 16, 4⟩, ⟨some 0, 20, 4⟩, ⟨some 0, 0, 2⟩]

theorem resolved_shared : Resolved spacedObjs 0 sharedSubmit sharedBuffers :=
  resolved_of_slots ⟨[((0, 1), 0)], [0], fun _ => 1, []⟩ (by decide) (by decide)

theorem columnsApart_shared : ColumnsApart spacedObjs sharedBuffers := by
  have hobj : ∀ i, (sharedBuffers.inputs i).obj = some 0 ∧
      (sharedBuffers.outputs i).obj = some 0 := by
    decide
  constructor
  · intro i j hij
    apply Binding.disjoint_bytes (hobj i).2 (hobj j).1
    revert i j
    decide
  · intro i j hij
    apply Binding.disjoint_bytes (hobj i).2 (hobj j).2
    revert i j
    decide

theorem simColumns_perm_shared : ∃ m',
    simColumns spacedObjs (fun _ => true) sharedBuffers (fun _ => true) [0, 1, 2, 3] true
      (fun x => UInt8.ofNat x) = some (some false, m') ∧
    simColumns spacedObjs (fun _ => true) sharedBuffers (fun _ => true) [2, 0, 3, 1] true
      (fun x => UInt8.ofNat x) = some (some false, m') := by
  have hp : [2, 0, 3, 1] ~ List.finRange 4 := by decide
  obtain ⟨fed, m', h₁, h₂⟩ : ∃ fed m', simColumns spacedObjs (fun _ => true) sharedBuffers
      (fun _ => true) (List.finRange 4) true (fun x => UInt8.ofNat x) = some (some fed, m') ∧ _ :=
    simColumns_perm resolved_shared columnsApart_shared hp fun x => UInt8.ofNat x
  have hfed : (simColumns spacedObjs (fun _ => true) sharedBuffers (fun _ => true)
      (List.finRange 4) true fun x => UInt8.ofNat x).map Prod.fst = some (some false) := by rfl
  rw [h₁] at hfed
  obtain rfl : fed = false := by simpa using hfed
  exact ⟨m', h₁, h₂⟩

end Strela.Driver
