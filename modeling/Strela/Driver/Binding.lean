import Mathlib.Data.BitVec
import Mathlib.Logic.Function.Basic
import Mathlib.Tactic.Ring

/-! # Bindings and buffer objects

A submit names nine buffers: the configuration, four inputs and four outputs.
Each is looked up among the client's handles, checked against the size of its
buffer object and the hardware's registers, and kept in the job with a reference
on the object. Offsets, counts and strides are in words.
-/

namespace Strela.Driver

abbrev U32 := BitVec 32
abbrev U64 := BitVec 64

inductive Errno | einval | enoent | enomem | other (code : ℕ)
  deriving DecidableEq, Repr

/-! ## What a submit carries -/

/-- `drm_strela_strided_binding`. -/
structure StridedSource where
  handle : U32
  offset : U32
  count : U32
  stride : U32
  deriving DecidableEq, Repr

/-- `drm_strela_binding`. -/
structure Source where
  handle : U32
  offset : U32
  count : U32
  deriving DecidableEq, Repr

/-- `drm_strela_submit`. -/
structure Submit where
  config : Source
  inputs : Fin 4 → StridedSource
  outputs : Fin 4 → Source
  outSyncobj : U32
  flags : U32
  inSyncobj : U32
  pad : U32

/-- The places of the nine bindings. -/
inductive Slot | config | input (i : Fin 4) | output (i : Fin 4)
  deriving DecidableEq, Repr

/-- The places in the order the driver takes and drops their references. -/
def slots : List Slot :=
  [.config, .input 0, .output 0, .input 1, .output 1, .input 2, .output 2, .input 3, .output 3]

theorem mem_slots (s : Slot) : s ∈ slots := by
  cases s with
  | config => decide
  | input i => revert i; decide
  | output i => revert i; decide

theorem nodup_slots : slots.Nodup := by decide

abbrev ObjId := ℕ
abbrev FileId := ℕ

/-- `strela_binding`, with no object until one is found. -/
structure Binding where
  obj : Option ObjId
  offset : U32
  count : U32
  deriving DecidableEq, Repr

/-- What `strela_job` holds of its buffers. -/
structure Buffers where
  config : Binding
  inputs : Fin 4 → Binding
  inputStrides : Fin 4 → U32
  outputs : Fin 4 → Binding

namespace Buffers

/-- All fields zero, as `kzalloc` leaves them. -/
def zero : Buffers := ⟨⟨none, 0, 0⟩, fun _ => ⟨none, 0, 0⟩, fun _ => 0, fun _ => ⟨none, 0, 0⟩⟩

def get (b : Buffers) : Slot → Binding
  | .config => b.config
  | .input i => b.inputs i
  | .output i => b.outputs i

def set (b : Buffers) (s : Slot) (v : Binding) : Buffers :=
  match s with
  | .config => { b with config := v }
  | .input i => { b with inputs := Function.update b.inputs i v }
  | .output i => { b with outputs := Function.update b.outputs i v }

theorem get_zero (s : Slot) : zero.get s = ⟨none, 0, 0⟩ := by cases s <;> rfl

theorem get_set_of_ne (b : Buffers) {s t : Slot} (v : Binding) (h : t ≠ s) :
    (b.set s v).get t = b.get t := by
  cases s <;> cases t <;> simp_all [get, set]

end Buffers

/-! ## Buffer objects and handles -/

/-- The part of a buffer object fixed at its creation; `w` is the width of `dma_addr_t`. -/
structure GemObject (w : ℕ) where
  size : U64
  dmaAddr : BitVec w
  deriving DecidableEq, Repr

/-- The open handles of every file, the objects ever created, their reference counts, and those
released because the last reference was dropped. -/
structure Gem where
  handles : List ((FileId × U32) × ObjId)
  objects : List ObjId
  refs : ObjId → ℕ
  released : List ObjId

namespace Gem

/-- `drm_gem_object_lookup`, which takes a reference on what it finds. -/
def lookup (g : Gem) (file : FileId) (handle : U32) : Option ObjId × Gem :=
  match g.handles.lookup (file, handle) with
  | none => (none, g)
  | some o => (some o, { g with refs := Function.update g.refs o (g.refs o + 1) })

/-- `drm_gem_object_put`, which ignores a null pointer and releases the object with its last
reference. -/
def put (g : Gem) : Option ObjId → Gem
  | none => g
  | some o =>
    { g with
      refs := Function.update g.refs o (g.refs o - 1)
      released := if g.refs o ≤ 1 then o :: g.released else g.released }

end Gem

/-! ## Checking and resolving a binding -/

def wordSize : ℕ := 4

def maxColumnBytes : ℕ := 0xFFFF

def max32 (a b : U32) : U32 := if a < b then b else a

def strelaBindingCheck (objSize : U64) (b : StridedSource) : Except Errno Unit :=
  let stride : U64 := (max32 b.stride 1).setWidth 64
  let spanBytes : U64 := b.count.setWidth 64 * stride * BitVec.ofNat 64 wordSize
  let stop : U64 := b.offset.setWidth 64 * BitVec.ofNat 64 wordSize + spanBytes
  if spanBytes > BitVec.ofNat 64 maxColumnBytes then .error .einval
  else if b.count ≠ 0 ∧ stride * BitVec.ofNat 64 wordSize > BitVec.ofNat 64 maxColumnBytes then
    .error .einval
  else if stop > objSize then .error .einval
  else .ok ()

variable {w : ℕ} (objs : ObjId → GemObject w)

def strelaStridedBindingGet (g : Gem) (file : FileId) (src : StridedSource) :
    Except Errno Binding × Gem :=
  match g.lookup file src.handle with
  | (none, g) => (.error .enoent, g)
  | (some obj, g) =>
    match strelaBindingCheck (objs obj).size src with
    | .error e => (.error e, g.put (some obj))
    | .ok () => (.ok ⟨some obj, src.offset, src.count⟩, g)

/-- A contiguous binding has the stride of one word. -/
def Source.strided (src : Source) : StridedSource := ⟨src.handle, src.offset, src.count, 1⟩

def strelaBindingGet (g : Gem) (file : FileId) (src : Source) : Except Errno Binding × Gem :=
  strelaStridedBindingGet objs g file src.strided

def Submit.source (args : Submit) : Slot → StridedSource
  | .config => args.config.strided
  | .input i => args.inputs i
  | .output i => (args.outputs i).strided

def Submit.bindingGet (args : Submit) (g : Gem) (file : FileId) :
    Slot → Except Errno Binding × Gem
  | .config => strelaBindingGet objs g file args.config
  | .input i => strelaStridedBindingGet objs g file (args.inputs i)
  | .output i => strelaBindingGet objs g file (args.outputs i)

/-! ## What a check that passes says -/

variable {objs} {g : Gem} {file : FileId} {src : StridedSource} {b : Binding} {objSize : U64}

/-- The bytes a column spans, a stride of 0 sized as 1. -/
def StridedSource.span (src : StridedSource) : ℕ :=
  src.count.toNat * max src.stride.toNat 1 * wordSize

theorem toNat_max32 (a b : U32) : (max32 a b).toNat = max a.toNat b.toNat := by
  unfold max32
  split
  · rename_i h
    have := BitVec.lt_def.mp h
    omega
  · rename_i h
    have := mt BitVec.lt_def.mpr h
    omega

/-- The check over the natural numbers: only the span and the end can wrap. -/
theorem strelaBindingCheck_eq (objSize : U64) (src : StridedSource) :
    strelaBindingCheck objSize src =
      if maxColumnBytes < src.span % 2 ^ 64 then .error .einval
      else if src.count ≠ 0 ∧ maxColumnBytes < max src.stride.toNat 1 * wordSize then .error .einval
      else if objSize.toNat < (src.offset.toNat * wordSize + src.span) % 2 ^ 64 then .error .einval
      else .ok () := by
  have hs := src.stride.isLt
  have hc := src.count.isLt
  have ho := src.offset.isLt
  have hone : (1 : U32).toNat = 1 := rfl
  obtain ⟨st, hst⟩ : ∃ st, st = max src.stride.toNat 1 := ⟨_, rfl⟩
  have hmods : st % 2 ^ 64 = st := Nat.mod_eq_of_lt (by omega)
  have hmodc : src.count.toNat % 2 ^ 64 = src.count.toNat := Nat.mod_eq_of_lt (by omega)
  have hmodo : src.offset.toNat % 2 ^ 64 = src.offset.toNat := Nat.mod_eq_of_lt (by omega)
  have hmodm : st * 4 % 2 ^ 64 = st * 4 := Nat.mod_eq_of_lt (by omega)
  have hfour : 4 % 2 ^ 64 = 4 := by norm_num
  have hcap : 65535 % 2 ^ 64 = 65535 := by norm_num
  unfold strelaBindingCheck StridedSource.span
  simp only [gt_iff_lt, BitVec.lt_def, BitVec.toNat_mul, BitVec.toNat_add,
    BitVec.toNat_setWidth, toNat_max32, BitVec.toNat_ofNat, wordSize, maxColumnBytes, hone, ← hst,
    hmods, hmodc, hmodo, hmodm, hfour, hcap, Nat.mod_mul_mod, Nat.mod_add_mod, Nat.add_mod_mod]

/-- What the checked bytes need to be: sizes the registers can encode, inside the object. -/
def StridedSource.Fits (src : StridedSource) (objSize : U64) : Prop :=
  src.span ≤ maxColumnBytes ∧
  (src.count ≠ 0 → max src.stride.toNat 1 * wordSize ≤ maxColumnBytes) ∧
  src.offset.toNat * wordSize + src.span ≤ objSize.toNat

/-- A stride that would make the `u64` arithmetic of the check wrap is refused unless nothing is
moved, and then the span is 0. -/
theorem span_lt_of_stride (h : src.count ≠ 0 → max src.stride.toNat 1 * wordSize ≤ maxColumnBytes) :
    src.span < 2 ^ 32 * 2 ^ 16 := by
  unfold StridedSource.span
  rw [Nat.mul_assoc]
  by_cases hz : src.count = 0
  · have hzero : src.count.toNat = 0 := by simp [hz]
    rw [hzero, Nat.zero_mul]
    norm_num
  · have hle := h hz
    simp only [maxColumnBytes] at hle
    exact Nat.mul_lt_mul'' src.count.isLt (by omega)

theorem strelaBindingCheck_ok_iff : strelaBindingCheck objSize src = .ok () ↔ src.Fits objSize := by
  have ho := src.offset.isLt
  rw [strelaBindingCheck_eq]
  constructor
  · intro h
    split_ifs at h with h₁ h₂ h₃
    have hstride : src.count ≠ 0 → max src.stride.toNat 1 * wordSize ≤ maxColumnBytes := by
      intro hne
      by_contra hgt
      exact h₂ ⟨hne, by omega⟩
    have hlt := span_lt_of_stride hstride
    rw [Nat.mod_eq_of_lt (by omega)] at h₁
    rw [Nat.mod_eq_of_lt (by simp only [wordSize]; omega)] at h₃
    exact ⟨by omega, hstride, by omega⟩
  · rintro ⟨hspan, hstride, hend⟩
    have hsmall : src.span < 2 ^ 64 := by
      simp only [maxColumnBytes] at hspan
      omega
    rw [Nat.mod_eq_of_lt hsmall, if_neg (by omega), if_neg, Nat.mod_eq_of_lt, if_neg (by omega)]
    · simp only [maxColumnBytes] at hspan
      simp only [wordSize]
      omega
    · rintro ⟨hne, hgt⟩
      have := hstride hne
      omega

theorem strelaBindingCheck_ok (h : strelaBindingCheck objSize src = .ok ()) :
    src.span ≤ maxColumnBytes ∧
    (src.count ≠ 0 → max src.stride.toNat 1 * wordSize ≤ maxColumnBytes) ∧
    src.offset.toNat * wordSize + src.span ≤ objSize.toNat :=
  strelaBindingCheck_ok_iff.mp h

/-- The check is exact: it accepts what fits over the unbounded integers, and answers `-EINVAL`
to everything else. -/
theorem strelaBindingCheck_exact (objSize : U64) (handle offset count stride : U32) :
    strelaBindingCheck objSize ⟨handle, offset, count, stride⟩ =
      if count.toNat * max stride.toNat 1 * 4 ≤ 65535 ∧
        (count.toNat = 0 ∨ max stride.toNat 1 * 4 ≤ 65535) ∧
        offset.toNat * 4 + count.toNat * max stride.toNat 1 * 4 ≤ objSize.toNat
      then .ok () else .error .einval := by
  have hzero : count.toNat = 0 ↔ count = 0 := by
    rw [← BitVec.toNat_inj]
    rfl
  split_ifs with hfits
  · apply strelaBindingCheck_ok_iff.mpr
    simpa only [StridedSource.Fits, StridedSource.span, wordSize, maxColumnBytes, hzero, ne_eq,
      ← or_iff_not_imp_left] using hfits
  · have hnot : ¬ strelaBindingCheck objSize ⟨handle, offset, count, stride⟩ = .ok () := by
      rw [strelaBindingCheck_ok_iff]
      simpa only [StridedSource.Fits, StridedSource.span, wordSize, maxColumnBytes, hzero, ne_eq,
        ← or_iff_not_imp_left] using hfits
    rw [strelaBindingCheck_eq] at hnot ⊢
    split_ifs at hnot ⊢ <;> first | rfl | exact absurd rfl hnot

-- Two rows of the driver's own table: the largest span that can be encoded, and one word more.
example : strelaBindingCheck 0x100000 ⟨1, 0, 0x3FFF, 1⟩ = .ok () ∧
    strelaBindingCheck 0x100000 ⟨1, 0, 0x4000, 1⟩ = .error .einval := ⟨rfl, rfl⟩

theorem strelaStridedBindingGet_ok {g' : Gem}
    (h : strelaStridedBindingGet objs g file src = (.ok b, g')) :
    ∃ o, g.handles.lookup (file, src.handle) = some o ∧
      strelaBindingCheck (objs o).size src = .ok () ∧ b = ⟨some o, src.offset, src.count⟩ := by
  unfold strelaStridedBindingGet Gem.lookup at h
  cases hl : g.handles.lookup (file, src.handle) with
  | none => simp [hl] at h
  | some o =>
    simp only [hl] at h
    cases hc : strelaBindingCheck (objs o).size src with
    | error e => simp [hc] at h
    | ok u =>
      simp only [hc, Prod.mk.injEq, Except.ok.injEq] at h
      exact ⟨o, rfl, hc, h.1.symm⟩

theorem Submit.bindingGet_eq (args : Submit) (g : Gem) (file : FileId) (s : Slot) :
    args.bindingGet objs g file s = strelaStridedBindingGet objs g file (args.source s) := by
  cases s <;> rfl

end Strela.Driver
