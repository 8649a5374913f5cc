import Strela.Driver.Lifecycle
import Strela.Driver.Program
import Strela.Foundation.Gather
import Mathlib.Data.Set.Lattice
import Mathlib.Order.CompletePartialOrder

/-! # The simulated device

Without an FPGA a worker stands in for the array with the bypass kernel loaded:
it copies each input column to its output, word by word, through the kernel's
mappings of the buffers. The array instead reads the registers. Where no output
is read or written by another column, both leave the same memory and complete
the same jobs.
-/

namespace Strela.Driver

open Foundation

def min32 (a b : U32) : U32 := if a < b then a else b

variable {w : ℕ} (objs : ObjId → GemObject w) (mapped : ObjId → Bool)

/-- The kernel's mapping of an object shows the memory behind its bus addresses. -/
def wordAddr (o : ObjId) (k : ℕ) : ℕ := (objs o).dmaAddr.toNat + k * wordSize

/-- The copy loop of one column: word `i * stride` of the input, a product of `u32`, to word `i` of
the output. -/
def columnGather (inObj outObj : ObjId) (inp : Binding) (stride : U32) (out : Binding) :
    Gather where
  size := wordSize
  count := (min32 inp.count out.count).toNat
  src i := wordAddr objs inObj (inp.offset.toNat + (BitVec.ofNat 32 i * stride).toNat)
  dst := wordAddr objs outObj out.offset.toNat

/-- Says whether the output got all its words. A binding without an object is not there to copy. -/
def strelaSimBypassColumn (inp : Binding) (stride : U32) (out : Binding) (m : Mem) :
    Option (Bool × Mem) :=
  let fed := decide (out.count ≤ inp.count)
  let n := min32 inp.count out.count
  if n = 0 then some (fed, m)
  else do
    let inObj ← inp.obj
    let outObj ← out.obj
    if !mapped inObj || !mapped outObj then some (fed, m)
    else some (fed, (columnGather objs inObj outObj inp stride out).run m)

/-- The columns in order, each after its wait, until a wait is cut short. -/
def simColumns (job : Buffers) (wait : Fin 4 → Bool) :
    List (Fin 4) → Bool → Mem → Option (Option Bool × Mem)
  | [], fed, m => some (some fed, m)
  | i :: is, fed, m =>
    if wait i then do
      let (fed', m) ← strelaSimBypassColumn objs mapped (job.inputs i) (job.inputStrides i)
        (job.outputs i) m
      simColumns job wait is (fed && fed') m
    else some (none, m)

/-- The phases the worker reports for the job it finds, and the memory it leaves. A wait gives
`true` if it ran its course. -/
def strelaSimWork (active : Option Buffers) (configWait : Bool) (wait : Fin 4 → Bool) (m : Mem) :
    Option (List Phase × Mem) :=
  match active with
  | none => some ([], m)
  | some job =>
    if configWait then do
      let (fed, m) ← simColumns objs mapped job wait (List.finRange 4) true m
      some (if fed = some true then [.config, .exec] else [.config], m)
    else some ([], m)

/-! ## What the array does -/

/-- The words a column moves with the bypass kernel loaded: as many as both its ends have. -/
def bypassWords (r : Regs) (i : Fin 4) : ℕ :=
  min (decode r (.input i)).words (decode r (.output i)).words

/-- The memory after the columns have moved their words, by the registers. -/
structure Bypassed (r : Regs) (m m' : Mem) : Prop where
  written : ∀ i, ∀ k < bypassWords r i, ∀ j < wordSize,
    m' ((decode r (.output i)).addr + k * wordSize + j) =
      m ((decode r (.input i)).addr + k * (decode r (.input i)).stride + j)
  unchanged : ∀ x, (∀ i, ∀ k < bypassWords r i, ∀ j < wordSize,
    x ≠ (decode r (.output i)).addr + k * wordSize + j) → m' x = m x

def AllFed (r : Regs) : Prop := ∀ i, (decode r (.output i)).words ≤ (decode r (.input i)).words

structure NoOverlap (r : Regs) : Prop where
  inputs : ∀ i j, Disjoint (decode r (.output i)).touches (decode r (.input j)).touches
  outputs : ∀ i j, i ≠ j → Disjoint (decode r (.output i)).touches (decode r (.output j)).touches

theorem Bypassed.unique {r : Regs} {m m₁ m₂ : Mem} (h₁ : Bypassed r m m₁) (h₂ : Bypassed r m m₂) :
    m₁ = m₂ := by
  funext x
  by_cases hx : ∀ i, ∀ k < bypassWords r i, ∀ j < wordSize,
      x ≠ (decode r (.output i)).addr + k * wordSize + j
  · rw [h₁.unchanged x hx, h₂.unchanged x hx]
  · push Not at hx
    obtain ⟨i, k, hk, j, hj, rfl⟩ := hx
    rw [h₁.written i k hk j hj, h₂.written i k hk j hj]

/-! ## The simulator as gathers -/

variable {objs mapped} {job : Buffers} {m : Mem}

theorem toNat_min32 (a b : U32) : (min32 a b).toNat = min a.toNat b.toNat := by
  unfold min32
  split
  · rename_i h
    have := BitVec.lt_def.mp h
    omega
  · rename_i h
    have := mt BitVec.lt_def.mpr h
    omega

/-- The copy loop with the check of the mappings: without one of them nothing is copied. -/
def mappedGather (objs : ObjId → GemObject w) (mapped : ObjId → Bool) (inObj outObj : ObjId)
    (inp : Binding) (stride : U32) (out : Binding) : Gather :=
  let g := columnGather objs inObj outObj inp stride out
  { g with count := if mapped inObj && mapped outObj then g.count else 0 }

theorem mappedGather_eq {inObj outObj : ObjId} (hi : mapped inObj = true)
    (ho : mapped outObj = true) (inp : Binding) (stride : U32) (out : Binding) :
    mappedGather objs mapped inObj outObj inp stride out =
      columnGather objs inObj outObj inp stride out := by
  simp [mappedGather, hi, ho]

theorem strelaSimBypassColumn_eq {inp out : Binding} {inObj outObj : ObjId}
    (hi : inp.obj = some inObj) (ho : out.obj = some outObj) (stride : U32) :
    strelaSimBypassColumn objs mapped inp stride out m = some (decide (out.count ≤ inp.count),
      (mappedGather objs mapped inObj outObj inp stride out).run m) := by
  have hnone {g : Gather} (hg : g.count = 0) : g.run m = m := by
    simp [Gather.run, Gather.after, hg]
  by_cases hn : min32 inp.count out.count = 0
  · have hcount : (mappedGather objs mapped inObj outObj inp stride out).count = 0 := by
      simp [mappedGather, columnGather, hn]
    simp only [strelaSimBypassColumn, if_pos hn, hnone hcount]
  · simp only [strelaSimBypassColumn, if_neg hn, hi, ho, Option.bind_eq_bind, Option.bind_some,
      ← Bool.not_and]
    cases hm : mapped inObj && mapped outObj with
    | true => simp [mappedGather, hm]
    | false =>
      have hcount : (mappedGather objs mapped inObj outObj inp stride out).count = 0 := by
        simp [mappedGather, hm]
      simp [hnone hcount]

/-- The copy loop of a column of a job whose bindings name the given objects. -/
def jobGather (objs : ObjId → GemObject w) (job : Buffers) (obj : Slot → ObjId) (i : Fin 4) :
    Gather :=
  columnGather objs (obj (.input i)) (obj (.output i)) (job.inputs i) (job.inputStrides i)
    (job.outputs i)

def mappedJobGather (objs : ObjId → GemObject w) (mapped : ObjId → Bool) (job : Buffers)
    (obj : Slot → ObjId) (i : Fin 4) : Gather :=
  mappedGather objs mapped (obj (.input i)) (obj (.output i)) (job.inputs i) (job.inputStrides i)
    (job.outputs i)

theorem simColumns_eq {obj : Slot → ObjId} (ho : ∀ s, (job.get s).obj = some (obj s))
    (is : List (Fin 4)) (fed : Bool) (m : Mem) :
    simColumns objs mapped job (fun _ => true) is fed m =
      some (some (fed && is.all fun i => decide ((job.outputs i).count ≤ (job.inputs i).count)),
        Gather.runAll (is.map (mappedJobGather objs mapped job obj)) m) := by
  induction is generalizing fed m with
  | nil => simp [simColumns, Gather.runAll]
  | cons i is ih =>
    have hcol : strelaSimBypassColumn objs mapped (job.inputs i) (job.inputStrides i)
        (job.outputs i) m = _ := strelaSimBypassColumn_eq (ho (.input i)) (ho (.output i)) _
    rw [simColumns, if_pos rfl, hcol]
    simp only [Option.bind_eq_bind, Option.bind_some, ih, List.all_cons, Bool.and_assoc]
    rfl

/-! ## Refinement -/

section Column

variable {c d : Column} {src dst : StridedSource} {inObj outObj : ObjId}

/-- The copy loop reads word `k` where the array does: the product of `u32` does not wrap. -/
theorem columnGather_src (hin : ReadsBack (objs inObj) src c) (outObj : ObjId) (out : Binding)
    {k : ℕ} (hk : k < c.words) :
    (columnGather objs inObj outObj ⟨some inObj, src.offset, src.count⟩ src.stride out).src k =
      c.addr + k * c.stride := by
  have hspan := (strelaBindingCheck_ok hin.check).1
  have hword := hin.word_le_span hk
  have hwords := hin.words
  have hlt := src.count.isLt
  rw [hin.stride (hin.count_ne_zero hk)] at hword
  simp only [wordSize, maxColumnBytes] at hspan hword
  rw [← mul_assoc] at hword
  have hmod : k % 2 ^ 32 = k := Nat.mod_eq_of_lt (by omega)
  have hprod : k * src.stride.toNat % 2 ^ 32 = k * src.stride.toNat := Nat.mod_eq_of_lt (by omega)
  rw [hin.addr_eq hk, hin.stride (hin.count_ne_zero hk), ← mul_assoc]
  simp only [columnGather, wordAddr, BitVec.toNat_mul, BitVec.toNat_ofNat, hmod, hprod, wordSize]
  omega

theorem columnGather_dst (hout : ReadsBack (objs outObj) dst d) (inObj : ObjId) (inp : Binding)
    (stride : U32) (hpos : 0 < d.words) :
    (columnGather objs inObj outObj inp stride ⟨some outObj, dst.offset, dst.count⟩).dst =
      d.addr := by
  rw [hout.addr_eq hpos]
  rfl

variable (hin : ReadsBack (objs inObj) src c) (hout : ReadsBack (objs outObj) dst d)

include hin hout

theorem columnGather_count :
    (columnGather objs inObj outObj ⟨some inObj, src.offset, src.count⟩ src.stride
      ⟨some outObj, dst.offset, dst.count⟩).count = min c.words d.words := by
  simp only [columnGather, toNat_min32, hin.words, hout.words]

theorem columnGather_touches (hstride : d.stride = wordSize) {x : ℕ} :
    ((columnGather objs inObj outObj ⟨some inObj, src.offset, src.count⟩ src.stride
      ⟨some outObj, dst.offset, dst.count⟩).Reads x → x ∈ c.touches) ∧
    ((columnGather objs inObj outObj ⟨some inObj, src.offset, src.count⟩ src.stride
      ⟨some outObj, dst.offset, dst.count⟩).Writes x → x ∈ d.touches) := by
  have hcount := columnGather_count hin hout
  have hbi := hin.bound
  have hbo := hout.bound
  constructor
  · rintro ⟨k, hk, j, hj, rfl⟩
    rw [hcount] at hk
    have hkc : k < c.words := by omega
    have hle := hin.word_le hkc
    have hj' : j < wordSize := hj
    refine ⟨k, hkc, j, hj', ?_⟩
    rw [columnGather_src hin _ _ hkc, Nat.mod_eq_of_lt (by omega)]
  · rintro ⟨hlo, hhi⟩
    have hsize : (columnGather objs inObj outObj ⟨some inObj, src.offset, src.count⟩ src.stride
      ⟨some outObj, dst.offset, dst.count⟩).size = 4 := rfl
    rw [hcount, hsize] at hhi
    have hpos : 0 < d.words := by omega
    rw [columnGather_dst hout _ _ _ hpos] at hlo hhi
    have hkd : (x - d.addr) / 4 < d.words := by omega
    have hle := hout.word_le hkd
    refine ⟨(x - d.addr) / 4, hkd, (x - d.addr) % 4, Nat.mod_lt _ (by decide), ?_⟩
    rw [hstride, wordSize] at hle ⊢
    rw [Nat.mod_eq_of_lt (by omega)]
    omega

end Column

section Job

variable {file : FileId} {args : Submit} {r : Regs} {obj : Slot → ObjId}
  (hr : Resolved objs file args job)
  (he : ∀ s, job.get s = ⟨some (obj s), (args.source s).offset, (args.source s).count⟩)
  (hb : ∀ s, ReadsBack (objs (obj s)) (args.source s) (decode r s))

include he hb

theorem count_le_iff (i : Fin 4) : (job.outputs i).count ≤ (job.inputs i).count ↔
    (decode r (.output i)).words ≤ (decode r (.input i)).words := by
  have hi : job.inputs i = _ := he (.input i)
  have ho : job.outputs i = _ := he (.output i)
  rw [(hb (.input i)).words, (hb (.output i)).words, hi, ho, BitVec.le_def]

include hr

theorem jobGather_spec (i : Fin 4) :
    (jobGather objs job obj i).count = bypassWords r i ∧
    (0 < bypassWords r i → (jobGather objs job obj i).dst = (decode r (.output i)).addr) ∧
    (∀ k < bypassWords r i, (jobGather objs job obj i).src k =
      (decode r (.input i)).addr + k * (decode r (.input i)).stride) ∧
    (∀ x, (jobGather objs job obj i).Reads x → x ∈ (decode r (.input i)).touches) ∧
    (∀ x, (jobGather objs job obj i).Writes x → x ∈ (decode r (.output i)).touches) := by
  have hi : job.inputs i = _ := he (.input i)
  have ho : job.outputs i = _ := he (.output i)
  have hs : job.inputStrides i = (args.source (.input i)).stride := hr.strides i
  have htouch {x : ℕ} := columnGather_touches (hb (.input i)) (hb (.output i)) rfl (x := x)
  rw [jobGather, hi, ho, hs]
  refine ⟨columnGather_count (hb _) (hb _), fun hpos => ?_, fun k hk => ?_,
    fun x => htouch.1, fun x => htouch.2⟩
  · exact columnGather_dst (hb (.output i)) _ _ _ (lt_min_iff.mp hpos).2
  · exact columnGather_src (hb (.input i)) _ _ (lt_min_iff.mp hk).1

/-- Without overlaps the copy loops leave the memory that the array leaves. -/
theorem runAll_bypassed (hn : NoOverlap r) (m : Mem) :
    Bypassed r m (Gather.runAll ((List.finRange 4).map (jobGather objs job obj)) m) := by
  have hspec := jobGather_spec hr he hb
  have hreads : ∀ g ∈ (List.finRange 4).map (jobGather objs job obj),
      ∀ h ∈ (List.finRange 4).map (jobGather objs job obj), ∀ y, g.Reads y → ¬ h.Writes y := by
    intro g hg h hh y hry hwy
    obtain ⟨i, -, rfl⟩ := List.mem_map.mp hg
    obtain ⟨j, -, rfl⟩ := List.mem_map.mp hh
    obtain ⟨-, -, -, hri, -⟩ := hspec i
    obtain ⟨-, -, -, -, hwj⟩ := hspec j
    exact Set.disjoint_left.mp (hn.inputs j i) (hwj y hwy) (hri y hry)
  have hwrites : ((List.finRange 4).map (jobGather objs job obj)).Pairwise
      fun g h => ∀ y, g.Writes y → ¬ h.Writes y := by
    apply List.pairwise_map.mpr
    apply (List.nodup_finRange 4).imp
    intro i j hij y hi hj
    obtain ⟨-, -, -, -, hwi⟩ := hspec i
    obtain ⟨-, -, -, -, hwj⟩ := hspec j
    exact Set.disjoint_left.mp (hn.outputs i j hij) (hwi y hi) (hwj y hj)
  have hrun := Gather.runAll_eq hreads hwrites m
  constructor
  · intro i k hk j hj
    obtain ⟨hcount, hdst, hsrc, -, -⟩ := hspec i
    have horigin : (jobGather objs job obj i).origin
        ((jobGather objs job obj i).dst + k * wordSize + j) = _ :=
      Gather.origin_unit (hcount.symm ▸ hk) hj
    rw [hdst (by omega), hsrc k hk] at horigin
    exact (hrun _).1 _ (List.mem_map_of_mem (List.mem_finRange i)) _ horigin
  · intro x hx
    apply (hrun x).2
    rintro g hg ⟨hlo, hhi⟩
    obtain ⟨i, -, rfl⟩ := List.mem_map.mp hg
    obtain ⟨hcount, hdst, -, -, -⟩ := hspec i
    have hsize : (jobGather objs job obj i).size = 4 := rfl
    rw [hcount, hsize] at hhi
    have hpos : 0 < bypassWords r i := by omega
    rw [hdst hpos] at hlo hhi
    refine hx i ((x - (decode r (.output i)).addr) / 4) (by omega)
      ((x - (decode r (.output i)).addr) % 4) (Nat.mod_lt _ (by decide)) ?_
    simp only [wordSize]
    omega

end Job

/-- For a job whose bindings were accepted, on mapped objects, the worker that is not aborted
reports the exec phase done exactly if by the registers every output is fed, and if by them no
output overlaps, it leaves the one memory the array leaves. -/
theorem strelaSimWork_refines {file : FileId} {args : Submit} (hw : 32 ≤ w)
    (hr : Resolved objs file args job)
    (hb : ∀ s o, (job.get s).obj = some o →
      (objs o).dmaAddr.toNat + (objs o).size.toNat ≤ 2 ^ 32)
    (hm : ∀ s o, (job.get s).obj = some o → mapped o = true) (m : Mem) (r : Regs) :
    ∃ r' phases m', strelaHwProgram objs false job r = some r' ∧
      strelaSimWork objs mapped (some job) true (fun _ => true) m = some (phases, m') ∧
      (.exec ∈ phases ↔ AllFed r') ∧
      (NoOverlap r' → Bypassed r' m m' ∧ ∀ m'', Bypassed r' m m'' → m'' = m') := by
  obtain ⟨r', hprog, h⟩ := strelaHwProgram_decode hw hr hb r
  choose obj he hback using h
  have ho (s : Slot) : (job.get s).obj = some (obj s) := by rw [he s]
  have hfed : ((List.finRange 4).all fun i =>
      decide ((job.outputs i).count ≤ (job.inputs i).count)) = true ↔ AllFed r' := by
    simp only [List.all_eq_true, decide_eq_true_eq, AllFed]
    exact ⟨fun h i => (count_le_iff he hback i).mp (h i (List.mem_finRange i)),
      fun h i _ => (count_le_iff he hback i).mpr (h i)⟩
  obtain ⟨fed, hall⟩ : ∃ fed, fed = (List.finRange 4).all fun i =>
    decide ((job.outputs i).count ≤ (job.inputs i).count) := ⟨_, rfl⟩
  have hwork : strelaSimWork objs mapped (some job) true (fun _ => true) m =
      some (if fed then [.config, .exec] else [.config],
        Gather.runAll ((List.finRange 4).map (jobGather objs job obj)) m) := by
    have hmapped : mappedJobGather objs mapped job obj = jobGather objs job obj :=
      funext fun i => mappedGather_eq (hm _ _ (ho _)) (hm _ _ (ho _)) _ _ _
    rw [strelaSimWork, if_pos rfl, simColumns_eq ho, ← hall, hmapped]
    cases fed <;> rfl
  refine ⟨r', _, _, hprog, hwork, ?_, fun hn => ?_⟩
  · rw [← hfed, ← hall]
    cases fed <;> decide
  · have hbyp := runAll_bypassed hr he hback hn m
    exact ⟨hbyp, fun m'' h => h.unique hbyp⟩

/-- The first column takes every other word from the front of a buffer of 256 bytes to its second
half; the others are idle. -/
def spacedObjs : ObjId → GemObject 32 := fun _ => ⟨256, 0x1000⟩

def spacedSubmit : Submit where
  config := ⟨1, 0, 16⟩
  inputs := ![⟨1, 0, 4, 2⟩, ⟨1, 0, 0, 1⟩, ⟨1, 0, 0, 1⟩, ⟨1, 0, 0, 1⟩]
  outputs := ![⟨1, 32, 4⟩, ⟨1, 0, 0⟩, ⟨1, 0, 0⟩, ⟨1, 0, 0⟩]
  outSyncobj := 1
  flags := 0
  inSyncobj := 0
  pad := 0

def spacedBuffers : Buffers where
  config := ⟨some 0, 0, 16⟩
  inputs := ![⟨some 0, 0, 4⟩, ⟨some 0, 0, 0⟩, ⟨some 0, 0, 0⟩, ⟨some 0, 0, 0⟩]
  inputStrides := ![2, 1, 1, 1]
  outputs := ![⟨some 0, 32, 4⟩, ⟨some 0, 0, 0⟩, ⟨some 0, 0, 0⟩, ⟨some 0, 0, 0⟩]

def spacedColumn : Slot → Column
  | .config => ⟨0x1000, 16, 4⟩
  | .input i => if i.val = 0 then ⟨0x1000, 4, 8⟩ else ⟨0x1000, 0, 4⟩
  | .output i => if i.val = 0 then ⟨0x1080, 4, 4⟩ else ⟨0x1000, 0, 4⟩

theorem spaced_touches {i : Fin 4} {x : ℕ} :
    (x ∈ (spacedColumn (.input i)).touches → x < 0x1080) ∧
    (x ∈ (spacedColumn (.output i)).touches → i.val = 0 ∧ 0x1080 ≤ x) := by
  by_cases hi : i.val = 0
  · constructor <;> rintro ⟨k, hk, j, hj, rfl⟩
    · simp only [spacedColumn, if_pos hi, wordSize] at hk hj ⊢
      omega
    · simp only [spacedColumn, if_pos hi, wordSize] at hk hj ⊢
      exact ⟨hi, by omega⟩
  · constructor <;> rintro ⟨k, hk, -⟩ <;> simp [spacedColumn, hi] at hk

theorem strelaSimWork_refines_spaced : ∃ r' phases m',
    strelaHwProgram spacedObjs false spacedBuffers (fun _ => 0) = some r' ∧
    strelaSimWork spacedObjs (fun _ => true) (some spacedBuffers) true (fun _ => true)
      (fun x => UInt8.ofNat x) = some (phases, m') ∧
    .exec ∈ phases ∧ Bypassed r' (fun x => UInt8.ofNat x) m' := by
  have hres : Resolved spacedObjs 0 spacedSubmit spacedBuffers :=
    resolved_of_slots ⟨[((0, 1), 0)], [0], fun _ => 1, []⟩ (by decide) (by decide)
  have hmapped : ∀ s o, (spacedBuffers.get s).obj = some o → (fun _ : ObjId => true) o = true :=
    fun _ _ _ => rfl
  obtain ⟨r', phases, m', hprog, hwork, hfed, hbyp⟩ := strelaSimWork_refines le_rfl hres
    (fun s o _ => by simp [spacedObjs]) hmapped (fun x => UInt8.ofNat x) (fun _ => 0)
  have hdec (s : Slot) : decode r' s = spacedColumn s := by
    have h : ∀ s ∈ slots, (strelaHwProgram spacedObjs false spacedBuffers (fun _ => 0)).map
        (fun r => decode r s) = some (spacedColumn s) := by decide
    have hs := h s (mem_slots s)
    rw [hprog] at hs
    exact Option.some.inj hs
  refine ⟨r', phases, m', hprog, hwork, hfed.mpr fun i => ?_,
    (hbyp ⟨fun i j => ?_, fun i j hij => ?_⟩).1⟩
  · rw [hdec, hdec]
    revert i
    decide
  · rw [hdec, hdec, Set.disjoint_left]
    intro x ho hi
    have h₁ := (spaced_touches.2 ho).2
    have h₂ := spaced_touches.1 hi
    omega
  · rw [hdec, hdec, Set.disjoint_left]
    intro x hi hj
    exact hij (Fin.ext ((spaced_touches.2 hi).1.trans (spaced_touches.2 hj).1.symm))

end Strela.Driver
