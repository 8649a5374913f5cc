import Strela.Driver.Binding
import Mathlib.Order.Interval.Set.Defs
import Mathlib.Data.Fin.VecNotation

/-! # Programming the columns

`strela_hw_program` writes an address and a size register for each binding. The
size register of an input packs the stride in bytes in its high half and the
bytes spanned in its low half. Read back as the hardware reads them, the
registers of a job whose bindings passed their checks describe the columns that
were submitted, and no column leaves its buffer object. The address of a column
that moves nothing may still be the one just past its object, since the check is
on the end of the column.
-/

namespace Strela.Driver

/-- The device's registers, by offset. -/
abbrev Regs := ℕ → U32

def writel (v : U32) (offset : ℕ) (r : Regs) : Regs := Function.update r offset v

structure BindingRegs where
  addr : ℕ
  size : ℕ

def confRegs : BindingRegs := ⟨0x04, 0x08⟩

def inpRegs : Fin 4 → BindingRegs := ![⟨0x10, 0x14⟩, ⟨0x18, 0x1C⟩, ⟨0x20, 0x24⟩, ⟨0x28, 0x2C⟩]

def outRegs : Fin 4 → BindingRegs := ![⟨0x50, 0x54⟩, ⟨0x58, 0x5C⟩, ⟨0x60, 0x64⟩, ⟨0x68, 0x6C⟩]

def regOutArbHold : ℕ := 0xA0

def outArbHoldEnable : U32 := 1

variable {w : ℕ} (objs : ObjId → GemObject w)

/-- The byte address of a binding inside its buffer object, unless it has none. -/
def strelaBindingAddr (b : Binding) : Option (BitVec w) :=
  b.obj.map fun o => (objs o).dmaAddr + b.offset.setWidth w * BitVec.ofNat w wordSize

def strelaInputSize (count stride : U32) : U32 :=
  ((stride * BitVec.ofNat 32 wordSize) <<< 16) |||
    (max32 stride 1 * count * BitVec.ofNat 32 wordSize)

def strelaHwWriteBinding (b : Binding) (regs : BindingRegs) (size : U32) (r : Regs) :
    Option Regs := do
  let addr ← strelaBindingAddr objs b
  return writel size regs.size (writel (addr.setWidth 32) regs.addr r)

/-- A simulated device has no registers to write. -/
def strelaHwProgram (isSim : Bool) (job : Buffers) (r : Regs) : Option Regs :=
  if isSim then some r
  else do
    let r ← strelaHwWriteBinding objs job.config confRegs
      (job.config.count * BitVec.ofNat 32 wordSize) r
    let r ← (List.finRange 4).foldlM (fun r i => do
      let r ← strelaHwWriteBinding objs (job.inputs i) (inpRegs i)
        (strelaInputSize (job.inputs i).count (job.inputStrides i)) r
      strelaHwWriteBinding objs (job.outputs i) (outRegs i)
        ((job.outputs i).count * BitVec.ofNat 32 wordSize) r) r
    return writel outArbHoldEnable regOutArbHold r

/-! ## How the hardware reads the registers -/

/-- A column as the DMA engine sees it: where it starts, its words, and the bytes between them. -/
structure Column where
  addr : ℕ
  words : ℕ
  stride : ℕ
  deriving DecidableEq, Repr

def Column.touches (c : Column) : Set ℕ :=
  {x | ∃ k < c.words, ∃ j < wordSize, x = (c.addr + k * c.stride + j) % 2 ^ 32}

def decodeContiguous (addr size : U32) : Column := ⟨addr.toNat, size.toNat / wordSize, wordSize⟩

/-- A size register with the stride in its high half and the bytes spanned in its low half. -/
def decodeStrided (addr size : U32) : Column :=
  let high := size.toNat / 2 ^ 16
  let low := size.toNat % 2 ^ 16
  ⟨addr.toNat, low / max high wordSize, high⟩

def decode (r : Regs) : Slot → Column
  | .config => decodeContiguous (r confRegs.addr) (r confRegs.size)
  | .input i => decodeStrided (r (inpRegs i).addr) (r (inpRegs i).size)
  | .output i => decodeContiguous (r (outRegs i).addr) (r (outRegs i).size)

def GemObject.range (o : GemObject w) : Set ℕ :=
  Set.Ico o.dmaAddr.toNat (o.dmaAddr.toNat + o.size.toNat)

/-- Each binding of the job was resolved from the submit, against the handles of its moment. -/
structure Resolved (file : FileId) (args : Submit) (job : Buffers) : Prop where
  bindings : ∀ s, ∃ g g', args.bindingGet objs g file s = (.ok (job.get s), g')
  strides : ∀ i, job.inputStrides i = (args.inputs i).stride

variable {objs} {src : StridedSource} {job : Buffers} {args : Submit} {file : FileId} {r : Regs}

/-! ## The registers that are written -/

theorem toNat_bindingAddr (hw : 32 ≤ w) (o : GemObject w) (offset : U32)
    (h : o.dmaAddr.toNat + offset.toNat * wordSize < 2 ^ w) :
    (o.dmaAddr + offset.setWidth w * BitVec.ofNat w wordSize).toNat =
      o.dmaAddr.toNat + offset.toNat * wordSize := by
  have hpow : 2 ^ 32 ≤ 2 ^ w := Nat.pow_le_pow_right (by decide) hw
  have hlt := offset.isLt
  simp only [wordSize] at h
  have hmodo : offset.toNat % 2 ^ w = offset.toNat := Nat.mod_eq_of_lt (by omega)
  have hmodw : 4 % 2 ^ w = 4 := Nat.mod_eq_of_lt (by omega)
  have hmul : offset.toNat * 4 % 2 ^ w = offset.toNat * 4 := Nat.mod_eq_of_lt (by omega)
  simp only [BitVec.toNat_add, BitVec.toNat_mul, BitVec.toNat_setWidth, BitVec.toNat_ofNat,
    wordSize, hmodo, hmodw, hmul]
  exact Nat.mod_eq_of_lt h

def Buffers.sizeReg (job : Buffers) : Slot → U32
  | .config => job.config.count * BitVec.ofNat 32 wordSize
  | .input i => strelaInputSize (job.inputs i).count (job.inputStrides i)
  | .output i => (job.outputs i).count * BitVec.ofNat 32 wordSize

def regsOf : Slot → BindingRegs
  | .config => confRegs
  | .input i => inpRegs i
  | .output i => outRegs i

theorem decode_eq (r : Regs) (s : Slot) : decode r s =
    match s with
    | .input _ => decodeStrided (r (regsOf s).addr) (r (regsOf s).size)
    | _ => decodeContiguous (r (regsOf s).addr) (r (regsOf s).size) := by
  cases s <;> rfl

theorem strelaHwProgram_spec {addr : Slot → BitVec w}
    (ha : ∀ s, strelaBindingAddr objs (job.get s) = some (addr s)) (r : Regs) :
    ∃ r', strelaHwProgram objs false job r = some r' ∧
      ∀ s, r' (regsOf s).addr = (addr s).setWidth 32 ∧ r' (regsOf s).size = job.sizeReg s := by
  have hc : strelaBindingAddr objs job.config = some (addr .config) := ha .config
  have hi (i : Fin 4) : strelaBindingAddr objs (job.inputs i) = some (addr (.input i)) :=
    ha (.input i)
  have ho (i : Fin 4) : strelaBindingAddr objs (job.outputs i) = some (addr (.output i)) :=
    ha (.output i)
  have hr : List.finRange 4 = [0, 1, 2, 3] := by decide
  simp only [strelaHwProgram, strelaHwWriteBinding, hc, hi, ho, hr, List.foldlM_cons,
    List.foldlM_nil, Bool.false_eq_true, if_false, Option.bind_eq_bind, Option.bind_some,
    Option.pure_def]
  refine ⟨_, rfl, fun s => ?_⟩
  cases s with
  | config => exact ⟨rfl, rfl⟩
  | input i => match i with | 0 | 1 | 2 | 3 => exact ⟨rfl, rfl⟩
  | output i => match i with | 0 | 1 | 2 | 3 => exact ⟨rfl, rfl⟩

/-! ## Reading them back -/

/-- The low half of an input's size register is the span, and the stride fills only the high. -/
theorem toNat_strelaInputSize (hspan : src.span ≤ maxColumnBytes) :
    (strelaInputSize src.count src.stride).toNat =
      (src.stride.toNat * wordSize % 2 ^ 16) * 2 ^ 16 + src.span := by
  have hs := src.stride.isLt
  have hlow : (max32 src.stride 1 * src.count * BitVec.ofNat 32 wordSize).toNat = src.span := by
    have hle : src.count.toNat * max src.stride.toNat 1 ≤ src.span :=
      Nat.le_mul_of_pos_right _ (by decide)
    have hone : max src.stride.toNat (1 : U32).toNat = max src.stride.toNat 1 := rfl
    simp only [BitVec.toNat_mul, toNat_max32, hone, BitVec.toNat_ofNat, wordSize, maxColumnBytes,
      StridedSource.span] at *
    rw [mul_comm (max _ _)]
    omega
  have hhigh : ((src.stride * BitVec.ofNat 32 wordSize) <<< 16).toNat =
      (src.stride.toNat * wordSize % 2 ^ 16) <<< 16 := by
    simp only [BitVec.toNat_shiftLeft, BitVec.toNat_mul, BitVec.toNat_ofNat, wordSize,
      Nat.shiftLeft_eq]
    omega
  rw [strelaInputSize, BitVec.toNat_or, hlow, hhigh,
    ← Nat.shiftLeft_add_eq_or_of_lt (by simp only [maxColumnBytes] at hspan; omega),
    Nat.shiftLeft_eq]

/-- A checked input is read back with its own count, and its own stride unless it moves nothing. -/
theorem decodeStrided_input {size : U64} (hc : strelaBindingCheck size src = .ok ()) (addr : U32) :
    (decodeStrided addr (strelaInputSize src.count src.stride)).words = src.count.toNat ∧
    (src.count ≠ 0 → (decodeStrided addr (strelaInputSize src.count src.stride)).stride =
      src.stride.toNat * wordSize) := by
  obtain ⟨hspan, hstride, -⟩ := strelaBindingCheck_ok hc
  have hlt : src.span < 2 ^ 16 := by
    simp only [maxColumnBytes] at hspan
    omega
  simp only [decodeStrided, toNat_strelaInputSize hspan, wordSize]
  obtain ⟨high, hhigh⟩ : ∃ h, h = src.stride.toNat * 4 % 2 ^ 16 := ⟨_, rfl⟩
  rw [← hhigh]
  have hdiv : (high * 2 ^ 16 + src.span) / 2 ^ 16 = high := by omega
  have hmod : (high * 2 ^ 16 + src.span) % 2 ^ 16 = src.span := by omega
  rw [hdiv, hmod]
  by_cases hz : src.count = 0
  · simp [hz, StridedSource.span]
  · have hle := hstride hz
    simp only [wordSize, maxColumnBytes] at hle
    have hfull : high = src.stride.toNat * 4 := by
      rw [hhigh]
      exact Nat.mod_eq_of_lt (by omega)
    refine ⟨?_, fun _ => hfull⟩
    have hmax : max high 4 = max src.stride.toNat 1 * 4 := by omega
    rw [hmax, StridedSource.span, wordSize, mul_assoc]
    exact Nat.mul_div_cancel _ (by omega)

theorem decodeContiguous_words {size : U64} (hs : src.stride = 1)
    (hc : strelaBindingCheck size src = .ok ()) (addr : U32) :
    (decodeContiguous addr (src.count * BitVec.ofNat 32 wordSize)).words = src.count.toNat := by
  obtain ⟨hspan, -, -⟩ := strelaBindingCheck_ok hc
  have hone : (1 : U32).toNat = 1 := rfl
  simp only [StridedSource.span, hs, hone, max_self, mul_one, wordSize, maxColumnBytes] at hspan
  simp only [decodeContiguous, BitVec.toNat_mul, BitVec.toNat_ofNat, wordSize]
  omega

/-- The column reads back a checked binding of an object that lies below 4 GiB. -/
structure ReadsBack (o : GemObject w) (src : StridedSource) (c : Column) : Prop where
  width : 32 ≤ w
  bound : o.dmaAddr.toNat + o.size.toNat ≤ 2 ^ 32
  check : strelaBindingCheck o.size src = .ok ()
  addr : c.addr =
    ((o.dmaAddr + src.offset.setWidth w * BitVec.ofNat w wordSize).setWidth 32).toNat
  words : c.words = src.count.toNat
  stride : src.count ≠ 0 → c.stride = src.stride.toNat * wordSize

namespace ReadsBack

variable {o : GemObject w} {c : Column} {k : ℕ} (h : ReadsBack o src c)

include h

theorem count_ne_zero (hk : k < c.words) : src.count ≠ 0 := by
  rintro hz
  simp [h.words, hz] at hk

theorem word_le_span (hk : k < c.words) : k * c.stride + wordSize ≤ src.span := by
  have hwords := h.words
  rw [h.stride (h.count_ne_zero hk)]
  obtain ⟨m, hm⟩ : ∃ m, m = max src.stride.toNat 1 := ⟨_, rfl⟩
  have h₁ : k * src.stride.toNat ≤ k * m := Nat.mul_le_mul_left _ (by omega)
  have h₂ : (k + 1) * m ≤ src.count.toNat * m := Nat.mul_le_mul_right _ (by omega)
  rw [Nat.add_mul, one_mul] at h₂
  rw [StridedSource.span, ← hm, ← mul_assoc]
  simp only [wordSize]
  omega

theorem addr_eq (hk : k < c.words) : c.addr = o.dmaAddr.toNat + src.offset.toNat * wordSize := by
  obtain ⟨-, -, hend⟩ := strelaBindingCheck_ok h.check
  have hbound := h.bound
  have hword := h.word_le_span hk
  have hpow : 2 ^ 32 ≤ 2 ^ w := Nat.pow_le_pow_right (by decide) h.width
  simp only [wordSize] at hword
  rw [h.addr, BitVec.toNat_setWidth, toNat_bindingAddr h.width _ _ (by omega)]
  exact Nat.mod_eq_of_lt (by omega)

theorem word_le (hk : k < c.words) :
    c.addr + k * c.stride + wordSize ≤ o.dmaAddr.toNat + o.size.toNat := by
  obtain ⟨-, -, hend⟩ := strelaBindingCheck_ok h.check
  have hword := h.word_le_span hk
  rw [h.addr_eq hk]
  omega

theorem touches_subset : c.touches ⊆ o.range := by
  rintro x ⟨k, hk, j, hj, rfl⟩
  have hbound := h.bound
  have hstart := h.addr_eq hk
  have hle := h.word_le hk
  rw [Nat.mod_eq_of_lt (by omega)]
  simp only [GemObject.range, Set.mem_Ico]
  omega

end ReadsBack

theorem Resolved.checked (hr : Resolved objs file args job) (s : Slot) :
    ∃ o, strelaBindingCheck (objs o).size (args.source s) = .ok () ∧
      job.get s = ⟨some o, (args.source s).offset, (args.source s).count⟩ := by
  obtain ⟨g, g', h⟩ := hr.bindings s
  rw [Submit.bindingGet_eq] at h
  obtain ⟨o, -, hc, he⟩ := strelaStridedBindingGet_ok h
  exact ⟨o, hc, he⟩

/-- It is enough that all bindings resolve against the handles of one moment. -/
theorem resolved_of_slots (g : Gem)
    (hb : ∀ s ∈ slots, (args.bindingGet objs g file s).1 = .ok (job.get s))
    (hs : ∀ i, job.inputStrides i = (args.inputs i).stride) : Resolved objs file args job :=
  ⟨fun s => ⟨g, _, Prod.ext (hb s (mem_slots s)) rfl⟩, hs⟩

theorem strelaHwProgram_decode (hw : 32 ≤ w) (hr : Resolved objs file args job)
    (hb : ∀ s o, (job.get s).obj = some o →
      (objs o).dmaAddr.toNat + (objs o).size.toNat ≤ 2 ^ 32) (r : Regs) :
    ∃ r', strelaHwProgram objs false job r = some r' ∧
      ∀ s, ∃ o, job.get s = ⟨some o, (args.source s).offset, (args.source s).count⟩ ∧
        ReadsBack (objs o) (args.source s) (decode r' s) := by
  choose obj hcheck heq using hr.checked
  have haddr (s : Slot) : strelaBindingAddr objs (job.get s) = some ((objs (obj s)).dmaAddr +
      (args.source s).offset.setWidth w * BitVec.ofNat w wordSize) := by
    rw [heq s]
    rfl
  obtain ⟨r', hprog, hregs⟩ := strelaHwProgram_spec haddr r
  refine ⟨r', hprog, fun s => ⟨obj s, heq s, ?_⟩⟩
  obtain ⟨hra, hrs⟩ := hregs s
  have hcount : (job.get s).count = (args.source s).count := by rw [heq s]
  suffices h : (decode r' s).addr = (r' (regsOf s).addr).toNat ∧
      (decode r' s).words = (args.source s).count.toNat ∧ ((args.source s).count ≠ 0 →
        (decode r' s).stride = (args.source s).stride.toNat * wordSize) by
    exact ⟨hw, hb s (obj s) (by rw [heq s]), hcheck s, by rw [h.1, hra], h.2.1, h.2.2⟩
  rw [decode_eq, hrs]
  cases s with
  | config =>
    refine ⟨rfl, ?_, fun _ => by simp [decodeContiguous, Submit.source, Source.strided]⟩
    rw [← decodeContiguous_words rfl (hcheck .config) (r' (regsOf .config).addr), ← hcount]
    rfl
  | input i =>
    have hsz : job.sizeReg (.input i) =
        strelaInputSize (args.source (.input i)).count (args.source (.input i)).stride := by
      simp only [Buffers.sizeReg, hr.strides i]
      rw [← hcount]
      rfl
    rw [hsz]
    obtain ⟨h₁, h₂⟩ := decodeStrided_input (hcheck (.input i)) (r' (regsOf (.input i)).addr)
    exact ⟨rfl, h₁, h₂⟩
  | output i =>
    refine ⟨rfl, ?_, fun _ => by simp [decodeContiguous, Submit.source, Source.strided]⟩
    rw [← decodeContiguous_words rfl (hcheck (.output i)) (r' (regsOf (.output i)).addr), ← hcount]
    rfl

/-- Each of the columns is inside the buffer object that its handle named. -/
theorem strelaHwProgram_contained (hw : 32 ≤ w) (hr : Resolved objs file args job)
    (hb : ∀ s o, (job.get s).obj = some o →
      (objs o).dmaAddr.toNat + (objs o).size.toNat ≤ 2 ^ 32) (r : Regs) :
    ∃ r', strelaHwProgram objs false job r = some r' ∧
      ∀ s, (∃ o, (job.get s).obj = some o ∧ (decode r' s).touches ⊆ (objs o).range) ∧
        (decode r' s).words = (args.source s).count.toNat ∧
        ((args.source s).count ≠ 0 →
          (decode r' s).stride = (args.source s).stride.toNat * wordSize) := by
  obtain ⟨r', hprog, h⟩ := strelaHwProgram_decode hw hr hb r
  refine ⟨r', hprog, fun s => ?_⟩
  obtain ⟨o, heq, hback⟩ := h s
  have hobj : (job.get s).obj = some o := by rw [heq]
  exact ⟨⟨o, hobj, hback.touches_subset⟩, hback.words, hback.stride⟩

/-- One page, named by every place of the submit. -/
def sampleObjs : ObjId → GemObject 32 := fun _ => ⟨4096, 0x1000⟩

/-- The first input repeats one word, the second takes every other word. -/
def sampleSubmit : Submit where
  config := ⟨1, 0, 16⟩
  inputs := ![⟨1, 3, 13, 0⟩, ⟨1, 0, 8, 2⟩, ⟨1, 8, 8, 1⟩, ⟨1, 1024, 0, 0x40000000⟩]
  outputs := fun _ => ⟨1, 8, 8⟩
  outSyncobj := 1
  flags := 0
  inSyncobj := 0
  pad := 0

def sampleBuffers : Buffers where
  config := ⟨some 0, 0, 16⟩
  inputs := ![⟨some 0, 3, 13⟩, ⟨some 0, 0, 8⟩, ⟨some 0, 8, 8⟩, ⟨some 0, 1024, 0⟩]
  inputStrides := ![0, 2, 1, 0x40000000]
  outputs := fun _ => ⟨some 0, 8, 8⟩

theorem resolved_sample : Resolved sampleObjs 0 sampleSubmit sampleBuffers :=
  resolved_of_slots ⟨[((0, 1), 0)], [0], fun _ => 1, []⟩ (by decide) (by decide)

theorem strelaHwProgram_contained_sample :
    ∃ r', strelaHwProgram sampleObjs false sampleBuffers (fun _ => 0) = some r' ∧
      (decode r' (.input 1)).touches ⊆ Set.Ico 0x1000 0x2000 ∧
      (decode r' (.input 1)).words = 8 ∧ (decode r' (.input 1)).stride = 8 := by
  obtain ⟨r', hp, h⟩ := strelaHwProgram_contained le_rfl resolved_sample
    (fun s o _ => by simp [sampleObjs]) (fun _ => 0)
  obtain ⟨⟨o, -, ho⟩, hwords, hstride⟩ := h (.input 1)
  exact ⟨r', hp, ho, hwords, hstride (by decide)⟩

/-! ## The address registers -/

/-- The register has the address of the binding, which has no upper half and is an address of the
buffer object. -/
def AddressInside (objs : ObjId → GemObject w) (b : Binding) (v : U32) : Prop :=
  ∃ o addr, b.obj = some o ∧ strelaBindingAddr objs b = some addr ∧ addr.toNat / 2 ^ 32 = 0 ∧
    v.toNat = (objs o).dmaAddr.toNat + b.offset.toNat * wordSize ∧ v.toNat ∈ (objs o).range

theorem addressInside_iff (hw : 32 ≤ w) {o : ObjId} {b : Binding} (ho : b.obj = some o)
    (hb : (objs o).dmaAddr.toNat + (objs o).size.toNat ≤ 2 ^ 32) {addr : BitVec w}
    (ha : strelaBindingAddr objs b = some addr) :
    AddressInside objs b (addr.setWidth 32) ↔
      b.offset.toNat * wordSize < (objs o).size.toNat := by
  constructor
  · rintro ⟨o', -, ho', -, -, hv, hin⟩
    obtain rfl := Option.some.inj (ho.symm.trans ho')
    rw [hv] at hin
    have := hin.2
    omega
  · intro hlt
    have hpow : 2 ^ 32 ≤ 2 ^ w := Nat.pow_le_pow_right (by decide) hw
    have haddr : addr.toNat = (objs o).dmaAddr.toNat + b.offset.toNat * wordSize := by
      rw [strelaBindingAddr, ho, Option.map_some] at ha
      rw [← Option.some.inj ha, toNat_bindingAddr hw _ _ (by omega)]
    have hv : (addr.setWidth 32).toNat = (objs o).dmaAddr.toNat + b.offset.toNat * wordSize := by
      rw [BitVec.toNat_setWidth, haddr, Nat.mod_eq_of_lt (by omega)]
    refine ⟨o, addr, ho, ha, Nat.div_eq_of_lt (by omega), hv, ?_⟩
    rw [hv]
    exact ⟨by omega, by omega⟩

/-- The nine address registers hold addresses inside the buffer objects exactly if every offset,
also of a column that moves nothing, is before the end of its object. -/
theorem strelaHwProgram_addresses_iff (hw : 32 ≤ w) (hr : Resolved objs file args job)
    (hb : ∀ s o, (job.get s).obj = some o →
      (objs o).dmaAddr.toNat + (objs o).size.toNat ≤ 2 ^ 32) (r : Regs) :
    ∃ r', strelaHwProgram objs false job r = some r' ∧
      ((∀ s, AddressInside objs (job.get s) (r' (regsOf s).addr)) ↔
        ∀ s o, (job.get s).obj = some o →
          (args.source s).offset.toNat * wordSize < (objs o).size.toNat) := by
  choose obj hcheck heq using hr.checked
  have hobj (s : Slot) : (job.get s).obj = some (obj s) := by rw [heq s]
  have hoff (s : Slot) : (job.get s).offset = (args.source s).offset := by rw [heq s]
  have haddr (s : Slot) : strelaBindingAddr objs (job.get s) = some ((objs (obj s)).dmaAddr +
      (job.get s).offset.setWidth w * BitVec.ofNat w wordSize) := by
    rw [strelaBindingAddr, hobj s, Option.map_some]
  obtain ⟨r', hprog, hregs⟩ := strelaHwProgram_spec haddr r
  refine ⟨r', hprog, forall_congr' fun s => ?_⟩
  rw [(hregs s).1, addressInside_iff hw (hobj s) (hb s _ (hobj s)) (haddr s), hoff s]
  constructor
  · rintro h o ho
    obtain rfl := Option.some.inj ((hobj s).symm.trans ho)
    exact h
  · exact fun h => h _ (hobj s)

/-- A submit that moves nothing and names the last word of the buffer for its outputs. -/
def idleSubmit : Submit where
  config := ⟨1, 0, 16⟩
  inputs := fun _ => ⟨1, 0, 0, 1⟩
  outputs := fun _ => ⟨1, 1023, 0⟩
  outSyncobj := 1
  flags := 0
  inSyncobj := 0
  pad := 0

def idleBuffers : Buffers where
  config := ⟨some 0, 0, 16⟩
  inputs := fun _ => ⟨some 0, 0, 0⟩
  inputStrides := fun _ => 1
  outputs := fun _ => ⟨some 0, 1023, 0⟩

theorem strelaHwProgram_addresses_iff_idle :
    ∃ r', strelaHwProgram sampleObjs false idleBuffers (fun _ => 0) = some r' ∧
      ∀ s, AddressInside sampleObjs (idleBuffers.get s) (r' (regsOf s).addr) := by
  have hres : Resolved sampleObjs 0 idleSubmit idleBuffers :=
    resolved_of_slots ⟨[((0, 1), 0)], [0], fun _ => 1, []⟩ (by decide) (by decide)
  obtain ⟨r', hprog, hiff⟩ := strelaHwProgram_addresses_iff le_rfl hres
    (fun s o _ => by simp [sampleObjs]) (fun _ => 0)
  refine ⟨r', hprog, hiff.mpr fun s o _ => ?_⟩
  cases s with
  | config => exact (by decide : 0 * 4 < 4096)
  | input i => exact (by decide : 0 * 4 < 4096)
  | output i => exact (by decide : 1023 * 4 < 4096)

/-- The fourth input of the sample moves nothing and is placed at the end of the buffer: it is
accepted, and its address register is outside. -/
theorem address_outside_sample : Resolved sampleObjs 0 sampleSubmit sampleBuffers ∧
    ∃ r', strelaHwProgram sampleObjs false sampleBuffers (fun _ => 0) = some r' ∧
      (r' (regsOf (.input 3)).addr).toNat = 0x2000 ∧
      ¬ ∀ s, AddressInside sampleObjs (sampleBuffers.get s) (r' (regsOf s).addr) := by
  have hval : (strelaHwProgram sampleObjs false sampleBuffers (fun _ => 0)).map
      (fun r => (r (regsOf (.input 3)).addr).toNat) = some 0x2000 := by decide
  obtain ⟨r', hprog, hv⟩ := Option.map_eq_some_iff.mp hval
  refine ⟨resolved_sample, r', hprog, hv, fun h => ?_⟩
  obtain ⟨o, addr, -, -, -, -, hin⟩ := h (.input 3)
  rw [hv] at hin
  have hend : (sampleObjs o).dmaAddr.toNat + (sampleObjs o).size.toNat = 0x2000 := rfl
  have := hin.2
  omega

end Strela.Driver
