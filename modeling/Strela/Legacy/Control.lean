import Strela.Driver.Program

/-! # The control request of the character device

The older driver has one region for all columns and takes offsets, counts and strides
of words in it. The bounds are checked on the end of each column, and the registers
are those of the newer driver. Nothing keeps the bytes that an input spans out of the
half of its size register that holds the stride, and a stride of 0 is not sized as 1:
such an input is not read as it was asked for, but it never leaves the region.
-/

namespace Strela.Legacy

open Strela.Driver

inductive Errno | efault | einval | enotty | ebusy | etimedout | erestartsys
  deriving DecidableEq, Repr

/-- `strela_ctrl`, its numbered fields by their number. -/
structure Ctrl where
  confOffset : U32
  confCount : U32
  inpOffset : Fin 4 → U32
  inpCount : Fin 4 → U32
  inpStride : Fin 4 → U32
  outOffset : Fin 4 → U32
  outCount : Fin 4 → U32

def dataRegionSize : ℕ := 0x100000 * 4

/-- Whether the product wraps, and the product as it wraps. -/
def checkMulOverflow (a b : U32) : Bool × U32 := (decide (2 ^ 32 ≤ a.toNat * b.toNat), a * b)

def checkAddOverflow (a b : U32) : Bool × U32 := (decide (2 ^ 32 ≤ a.toNat + b.toNat), a + b)

def strelaCheckBounds (offsetWords countWords stride : U32) : Bool :=
  let (wraps, offsetBytes) := checkMulOverflow offsetWords (BitVec.ofNat 32 wordSize)
  if wraps then true
  else
    let (wraps, countBytes) := checkMulOverflow countWords stride
    if wraps then true
    else
      let (wraps, countBytes) := checkMulOverflow countBytes (BitVec.ofNat 32 wordSize)
      if wraps then true
      else
        let (wraps, endBytes) := checkAddOverflow offsetBytes countBytes
        if wraps then true
        else decide (dataRegionSize < endBytes.toNat)

/-- `STRELA_MKINPSIZE`, whose stride is in bytes. -/
def mkInpSize (stride count : U32) : U32 := (stride <<< 16) ||| stride * count

/-- Some column ends after the region. -/
def Ctrl.outOfBounds (ctrl : Ctrl) : Bool :=
  strelaCheckBounds ctrl.confOffset ctrl.confCount 1 ||
  (List.finRange 4).any (fun i =>
    strelaCheckBounds (ctrl.inpOffset i) (ctrl.inpCount i) (ctrl.inpStride i)) ||
  (List.finRange 4).any fun i => strelaCheckBounds (ctrl.outOffset i) (ctrl.outCount i) 1

variable {w : ℕ}

/-- The two writes for a column, the address of `dma_addr_t` cut to the width of a register. -/
def writeColumn (dmaAddr : BitVec w) (offset size : U32) (regs : BindingRegs) (r : Regs) : Regs :=
  let addr := dmaAddr + (offset * BitVec.ofNat 32 wordSize).setWidth w
  writel size regs.size (writel (addr.setWidth 32) regs.addr r)

/-- `IOCTL_STRELA_CONTROL`; there is no request if it cannot be copied from the caller. -/
def strelaIoctlControl (dmaAddr : BitVec w) (user : Option Ctrl) (r : Regs) : Except Errno Regs :=
  match user with
  | none => .error .efault
  | some ctrl =>
    if ctrl.outOfBounds then .error .einval
    else
      let r := writeColumn dmaAddr ctrl.confOffset (ctrl.confCount * BitVec.ofNat 32 wordSize)
        confRegs r
      let r := (List.finRange 4).foldl (fun r i => writeColumn dmaAddr (ctrl.inpOffset i)
        (mkInpSize (ctrl.inpStride i * BitVec.ofNat 32 wordSize) (ctrl.inpCount i)) (inpRegs i) r) r
      let r := (List.finRange 4).foldl (fun r i => writeColumn dmaAddr (ctrl.outOffset i)
        (ctrl.outCount i * BitVec.ofNat 32 wordSize) (outRegs i) r) r
      .ok (writel 1 regOutArbHold r)

/-! ## The bounds -/

/-- The same columns, all in the buffer that one handle of the newer driver names. -/
def Ctrl.submit (ctrl : Ctrl) (handle : U32) : Submit where
  config := ⟨handle, ctrl.confOffset, ctrl.confCount⟩
  inputs i := ⟨handle, ctrl.inpOffset i, ctrl.inpCount i, ctrl.inpStride i⟩
  outputs i := ⟨handle, ctrl.outOffset i, ctrl.outCount i⟩
  outSyncobj := 0
  flags := 0
  inSyncobj := 0
  pad := 0

def Ctrl.column (ctrl : Ctrl) (s : Slot) : StridedSource := (ctrl.submit 0).source s

/-- The bytes that the bounds are checked for, a stride of 0 sized as 0. -/
def bytes (src : StridedSource) : ℕ := src.count.toNat * src.stride.toNat * wordSize

variable {ctrl : Ctrl} {src : StridedSource} {r r' : Regs} {dmaAddr : BitVec w}

/-- No step of the check wraps unless the column ends after the region. -/
theorem strelaCheckBounds_eq_false_iff (offset count stride : U32) :
    strelaCheckBounds offset count stride = false ↔
      offset.toNat * wordSize + count.toNat * stride.toNat * wordSize ≤ dataRegionSize := by
  have hfour : (BitVec.ofNat 32 wordSize).toNat = 4 := rfl
  simp only [strelaCheckBounds, checkMulOverflow, checkAddOverflow, Bool.if_true_left,
    Bool.or_eq_false_iff, decide_eq_false_iff_not, decide_eq_true_eq, BitVec.toNat_mul,
    BitVec.toNat_add, hfour, dataRegionSize]
  generalize count.toNat * stride.toNat = p
  simp only [wordSize]
  omega

theorem outOfBounds_eq_false_iff : ctrl.outOfBounds = false ↔
    ∀ s, (ctrl.column s).offset.toNat * wordSize + bytes (ctrl.column s) ≤ dataRegionSize := by
  simp only [Ctrl.outOfBounds, Bool.or_eq_false_iff, List.any_eq_false, List.mem_finRange,
    Bool.not_eq_true, true_implies, strelaCheckBounds_eq_false_iff]
  constructor
  · rintro ⟨⟨hc, hi⟩, ho⟩ s
    cases s with
    | config => exact hc
    | input i => exact hi i
    | output i => exact ho i
  · intro h
    exact ⟨⟨h .config, fun i => h (.input i)⟩, fun i => h (.output i)⟩

/-! ## The registers -/

def Ctrl.sizeReg (ctrl : Ctrl) : Slot → U32
  | .config => ctrl.confCount * BitVec.ofNat 32 wordSize
  | .input i => mkInpSize (ctrl.inpStride i * BitVec.ofNat 32 wordSize) (ctrl.inpCount i)
  | .output i => ctrl.outCount i * BitVec.ofNat 32 wordSize

def Ctrl.addrReg (ctrl : Ctrl) (dmaAddr : BitVec w) (s : Slot) : U32 :=
  (dmaAddr + ((ctrl.column s).offset * BitVec.ofNat 32 wordSize).setWidth w).setWidth 32

def programmed : List ℕ :=
  regOutArbHold :: slots.flatMap fun s => [(regsOf s).addr, (regsOf s).size]

/-- Registers that hold one address and size for each place, and are as before elsewhere. -/
structure Programs (addr size : Slot → U32) (r r' : Regs) : Prop where
  addr : ∀ s, r' (regsOf s).addr = addr s
  size : ∀ s, r' (regsOf s).size = size s
  hold : r' regOutArbHold = 1
  other : ∀ x ∉ programmed, r' x = r x

theorem Programs.ext_iff {addr size addr' size' : Slot → U32} {r₁ r₂ : Regs}
    (h₁ : Programs addr size r r₁) (h₂ : Programs addr' size' r r₂) :
    r₁ = r₂ ↔ addr = addr' ∧ size = size' := by
  constructor
  · rintro rfl
    exact ⟨funext fun s => (h₁.addr s).symm.trans (h₂.addr s),
      funext fun s => (h₁.size s).symm.trans (h₂.size s)⟩
  · rintro ⟨rfl, rfl⟩
    ext1 x
    by_cases hx : x ∈ programmed
    · simp only [programmed, List.mem_cons, List.mem_flatMap, List.not_mem_nil, or_false] at hx
      obtain rfl | ⟨s, -, rfl | rfl⟩ := hx
      · rw [h₁.hold, h₂.hold]
      · rw [h₁.addr, h₂.addr]
      · rw [h₁.size, h₂.size]
    · rw [h₁.other x hx, h₂.other x hx]

theorem strelaIoctlControl_accepts (h : ctrl.outOfBounds = false) (r : Regs) :
    ∃ r', strelaIoctlControl dmaAddr (some ctrl) r = .ok r' := ⟨_, if_neg (by simp [h])⟩

theorem strelaIoctlControl_ok (h : strelaIoctlControl dmaAddr (some ctrl) r = .ok r') :
    ctrl.outOfBounds = false ∧ Programs (ctrl.addrReg dmaAddr) ctrl.sizeReg r r' := by
  have hr : List.finRange 4 = [0, 1, 2, 3] := by decide
  simp only [strelaIoctlControl] at h
  split at h
  · cases h
  rename_i hb
  refine ⟨by simpa using hb, ?_⟩
  obtain rfl := Except.ok.inj h
  simp only [writeColumn, hr, List.foldl_cons, List.foldl_nil]
  constructor
  · intro s
    cases s with
    | config => rfl
    | input i => match i with | 0 | 1 | 2 | 3 => rfl
    | output i => match i with | 0 | 1 | 2 | 3 => rfl
  · intro s
    cases s with
    | config => rfl
    | input i => match i with | 0 | 1 | 2 | 3 => rfl
    | output i => match i with | 0 | 1 | 2 | 3 => rfl
  · rfl
  · intro x hx
    have hne (y : ℕ) (hy : y ∈ programmed) : x ≠ y := fun h => hx (h ▸ hy)
    simp only [writel]
    repeat rw [Function.update_of_ne (hne _ (by decide))]

/-! ## Reading them back -/

/-- The bytes spanned fill the low half and spill over into the stride. -/
theorem decodeStrided_mkInpSize (addr stride count : U32)
    (h : stride.toNat * count.toNat < 2 ^ 32) :
    decodeStrided addr (mkInpSize stride count) =
      let high := stride.toNat % 2 ^ 16 ||| stride.toNat * count.toNat / 2 ^ 16
      ⟨addr.toNat, stride.toNat * count.toNat % 2 ^ 16 / max high wordSize, high⟩ := by
  have hval : (mkInpSize stride count).toNat =
      stride.toNat % 2 ^ 16 * 2 ^ 16 ||| stride.toNat * count.toNat := by
    rw [mkInpSize, BitVec.toNat_or, BitVec.toNat_mul, Nat.mod_eq_of_lt h, BitVec.toNat_shiftLeft,
      Nat.shiftLeft_eq]
    congr 1
    omega
  have hlow : (mkInpSize stride count).toNat % 2 ^ 16 = stride.toNat * count.toNat % 2 ^ 16 := by
    rw [hval, Nat.or_mod_two_pow, Nat.mul_mod_left, Nat.zero_or]
  have hhigh : (mkInpSize stride count).toNat / 2 ^ 16 =
      stride.toNat % 2 ^ 16 ||| stride.toNat * count.toNat / 2 ^ 16 := by
    rw [hval, Nat.or_div_two_pow, Nat.mul_div_cancel _ (by decide)]
  simp only [decodeStrided, hlow, hhigh]

/-- A column that was accepted: where it starts, and that its words are inside the bytes checked. -/
structure Within (src : StridedSource) (dmaAddr : BitVec w) (c : Column) : Prop where
  addr : c.addr = ((dmaAddr + (src.offset * BitVec.ofNat 32 wordSize).setWidth w).setWidth 32).toNat
  words : c.words * max c.stride wordSize ≤ bytes src

/-- Only the end of the column was checked, and that is enough. -/
theorem Within.touches_subset {c : Column} (h : Within src dmaAddr c) (hw : 32 ≤ w)
    (hbus : dmaAddr.toNat + dataRegionSize ≤ 2 ^ 32)
    (hend : src.offset.toNat * wordSize + bytes src ≤ dataRegionSize) :
    c.touches ⊆ Set.Ico dmaAddr.toNat (dmaAddr.toNat + dataRegionSize) := by
  rintro x ⟨k, hk, j, hj, rfl⟩
  have hpow : 2 ^ 32 ≤ 2 ^ w := Nat.pow_le_pow_right (by decide) hw
  have hword : k * c.stride + wordSize ≤ bytes src := by
    calc k * c.stride + wordSize
        ≤ k * max c.stride wordSize + max c.stride wordSize :=
          Nat.add_le_add (Nat.mul_le_mul_left _ (le_max_left _ _)) (le_max_right _ _)
      _ = (k + 1) * max c.stride wordSize := by ring
      _ ≤ c.words * max c.stride wordSize := Nat.mul_le_mul_right _ hk
      _ ≤ bytes src := h.words
  have hoff : (src.offset * BitVec.ofNat 32 wordSize).toNat = src.offset.toNat * 4 := by
    rw [BitVec.toNat_mul, BitVec.toNat_ofNat]
    simp only [wordSize, dataRegionSize] at *
    omega
  simp only [wordSize, dataRegionSize] at hend hbus hword hj ⊢
  have haddr : c.addr = dmaAddr.toNat + src.offset.toNat * 4 := by
    rw [h.addr, BitVec.toNat_setWidth, BitVec.toNat_add, BitVec.toNat_setWidth, hoff,
      Nat.mod_eq_of_lt (show src.offset.toNat * 4 < 2 ^ w by omega),
      Nat.mod_eq_of_lt (show dmaAddr.toNat + src.offset.toNat * 4 < 2 ^ w by omega)]
    exact Nat.mod_eq_of_lt (by omega)
  rw [haddr, Nat.mod_eq_of_lt (by omega)]
  exact ⟨by omega, by omega⟩

theorem toNat_strideBytes {src : StridedSource} (hc : src.count ≠ 0)
    (hend : bytes src ≤ dataRegionSize) :
    (src.stride * BitVec.ofNat 32 wordSize).toNat = src.stride.toNat * wordSize ∧
      src.stride.toNat * wordSize * src.count.toNat = bytes src := by
  have hpos : 0 < src.count.toNat := Nat.pos_of_ne_zero fun h => hc (BitVec.eq_of_toNat_eq h)
  have heq : src.stride.toNat * wordSize * src.count.toNat = bytes src := by
    rw [bytes]
    ring
  refine ⟨?_, heq⟩
  have hle : src.stride.toNat * wordSize ≤ bytes src := by
    rw [← heq]
    exact Nat.le_mul_of_pos_right _ hpos
  rw [BitVec.toNat_mul]
  simp only [wordSize, dataRegionSize, BitVec.toNat_ofNat] at *
  omega

def Asked (src : StridedSource) (c : Column) : Prop :=
  c.words = src.count.toNat ∧ (src.count ≠ 0 → c.stride = src.stride.toNat * wordSize)

variable (addr : U32)

theorem decodeContiguous_asked {count : U32} (hend : count.toNat * wordSize ≤ dataRegionSize) :
    (decodeContiguous addr (count * BitVec.ofNat 32 wordSize)).words = count.toNat := by
  simp only [decodeContiguous, BitVec.toNat_mul, BitVec.toNat_ofNat]
  simp only [wordSize, dataRegionSize] at *
  omega

theorem decodeStrided_zero (stride : U32) :
    (decodeStrided addr (mkInpSize stride 0)).words = 0 := by
  have hz : (0 : U32).toNat = 0 := rfl
  rw [decodeStrided_mkInpSize addr stride 0 (by rw [hz]; omega)]
  simp

theorem decodeStrided_words_le (hend : bytes src ≤ dataRegionSize) {c : Column}
    (hc : c = decodeStrided addr (mkInpSize (src.stride * BitVec.ofNat 32 wordSize) src.count)) :
    c.words * max c.stride wordSize ≤ bytes src := by
  by_cases hz : src.count = 0
  · rw [hc, hz, decodeStrided_zero, Nat.zero_mul]
    exact Nat.zero_le _
  · obtain ⟨hs, hb⟩ := toNat_strideBytes hz hend
    have hlt : bytes src < 2 ^ 32 := lt_of_le_of_lt hend (by decide)
    rw [decodeStrided_mkInpSize _ _ _ (by rwa [hs, hb]), hs, hb] at hc
    rw [hc]
    exact (Nat.div_mul_le_self _ _).trans (Nat.mod_le _ _)

theorem decodeStrided_asked_iff (hend : bytes src ≤ dataRegionSize) :
    Asked src (decodeStrided addr
        (mkInpSize (src.stride * BitVec.ofNat 32 wordSize) src.count)) ↔
      src.count = 0 ∨ src.stride ≠ 0 ∧ bytes src < 2 ^ 16 := by
  by_cases hz : src.count = 0
  · simp only [Asked, hz, decodeStrided_zero, ne_eq, not_true_eq_false, false_implies, and_true,
      true_or, iff_true]
    rfl
  obtain ⟨hs, hb⟩ := toNat_strideBytes hz hend
  have hlt : bytes src < 2 ^ 32 := lt_of_le_of_lt hend (by decide)
  have hpos : 0 < src.count.toNat := Nat.pos_of_ne_zero fun h => hz (BitVec.eq_of_toNat_eq h)
  rw [decodeStrided_mkInpSize _ _ _ (by rwa [hs, hb]), hs, hb]
  simp only [Asked, hz, ne_eq, not_false_eq_true, true_implies, false_or]
  constructor
  · rintro ⟨hwords, hstride⟩
    rw [hstride] at hwords
    have hle : src.count.toNat * max (src.stride.toNat * wordSize) wordSize ≤
        bytes src % 2 ^ 16 := by
      rw [← hwords]
      exact Nat.div_mul_le_self _ _
    have hfour : src.count.toNat * wordSize ≤
        src.count.toNat * max (src.stride.toNat * wordSize) wordSize :=
      Nat.mul_le_mul_left _ (le_max_right _ _)
    have hall : src.stride.toNat * wordSize * src.count.toNat ≤
        src.count.toNat * max (src.stride.toNat * wordSize) wordSize := by
      rw [mul_comm]
      exact Nat.mul_le_mul_left _ (le_max_left _ _)
    constructor
    · intro h0
      rw [h0] at hb
      have hzero : (0 : U32).toNat = 0 := rfl
      simp only [hzero, wordSize] at *
      omega
    · omega
  · rintro ⟨hne, hsmall⟩
    have hspos : 0 < src.stride.toNat := Nat.pos_of_ne_zero fun h => hne (BitVec.eq_of_toNat_eq h)
    have hsle : src.stride.toNat * wordSize ≤ bytes src := by
      rw [← hb]
      exact Nat.le_mul_of_pos_right _ hpos
    have hhigh : src.stride.toNat * wordSize % 2 ^ 16 ||| bytes src / 2 ^ 16 =
        src.stride.toNat * wordSize := by
      rw [Nat.div_eq_of_lt hsmall, Nat.or_zero, Nat.mod_eq_of_lt (by omega)]
    refine ⟨?_, hhigh⟩
    rw [hhigh, Nat.mod_eq_of_lt hsmall, ← hb,
      max_eq_left (Nat.le_mul_of_pos_left wordSize hspos)]
    exact Nat.mul_div_cancel_left _ (Nat.mul_pos hspos (by decide))

variable {addr}

/-- The place is not that of an input that was asked to repeat a word, or to span 64 KiB. -/
def Ctrl.Encodes (ctrl : Ctrl) (s : Slot) : Prop :=
  ∀ i, s = .input i → ctrl.inpCount i = 0 ∨
    ctrl.inpStride i ≠ 0 ∧ bytes (ctrl.column s) < 2 ^ 16

theorem decode_control (h : Programs (ctrl.addrReg dmaAddr) ctrl.sizeReg r r') {s : Slot}
    (hend : (ctrl.column s).offset.toNat * wordSize + bytes (ctrl.column s) ≤ dataRegionSize) :
    Within (ctrl.column s) dmaAddr (decode r' s) ∧
      (Asked (ctrl.column s) (decode r' s) ↔ ctrl.Encodes s) := by
  have hone : (1 : U32).toNat = 1 := rfl
  have hend' : bytes (ctrl.column s) ≤ dataRegionSize := le_trans (Nat.le_add_left _ _) hend
  rw [decode_eq, h.size]
  have haddr := h.addr s
  cases s with
  | config =>
    simp only [bytes, Ctrl.column, Ctrl.submit, Submit.source, Source.strided, hone,
      mul_one] at hend'
    have hwords := decodeContiguous_asked (r' (regsOf .config).addr) hend'
    refine ⟨⟨congrArg BitVec.toNat haddr, ?_⟩, iff_of_true ⟨hwords, fun _ => rfl⟩ ?_⟩
    · dsimp only [Ctrl.sizeReg]
      rw [hwords]
      simp [bytes, Ctrl.column, Ctrl.submit, Submit.source, Source.strided, decodeContiguous]
    · rintro j hj
      cases hj
  | input i =>
    refine ⟨⟨congrArg BitVec.toNat haddr, decodeStrided_words_le _ hend' rfl⟩, ?_⟩
    refine (decodeStrided_asked_iff _ hend').trans ⟨fun h j hj => ?_, fun h => h i rfl⟩
    cases hj
    exact h
  | output i =>
    simp only [bytes, Ctrl.column, Ctrl.submit, Submit.source, Source.strided, hone,
      mul_one] at hend'
    have hwords := decodeContiguous_asked (r' (regsOf (.output i)).addr) hend'
    refine ⟨⟨congrArg BitVec.toNat haddr, ?_⟩, iff_of_true ⟨hwords, fun _ => rfl⟩ ?_⟩
    · dsimp only [Ctrl.sizeReg]
      rw [hwords]
      simp [bytes, Ctrl.column, Ctrl.submit, Submit.source, Source.strided, decodeContiguous]
    · rintro j hj
      cases hj

/-- A request is accepted if and only if its columns end inside the region. No column of it then
leaves the region, and each is read as it was asked for unless it is an input with a stride of 0 or
with 64 KiB or more. -/
theorem strelaIoctlControl_columns (hw : 32 ≤ w) (hbus : dmaAddr.toNat + dataRegionSize ≤ 2 ^ 32)
    (ctrl : Ctrl) (r : Regs) :
    ((∀ s, (ctrl.column s).offset.toNat * wordSize + bytes (ctrl.column s) ≤ dataRegionSize) ↔
      ∃ r', strelaIoctlControl dmaAddr (some ctrl) r = .ok r') ∧
    ∀ r', strelaIoctlControl dmaAddr (some ctrl) r = .ok r' → ∀ s,
      (decode r' s).touches ⊆ Set.Ico dmaAddr.toNat (dmaAddr.toNat + dataRegionSize) ∧
      (Asked (ctrl.column s) (decode r' s) ↔ ctrl.Encodes s) := by
  constructor
  · rw [← outOfBounds_eq_false_iff]
    constructor
    · exact fun h => strelaIoctlControl_accepts h r
    · rintro ⟨r', h⟩
      exact (strelaIoctlControl_ok h).1
  · intro r' h s
    obtain ⟨hb, hp⟩ := strelaIoctlControl_ok h
    have hend := outOfBounds_eq_false_iff.mp hb s
    obtain ⟨hin, hasked⟩ := decode_control hp hend
    exact ⟨hin.touches_subset hw hbus hend, hasked⟩

/-- A region at the top of the bus, and a request that is accepted: the first input spans 256 KiB
in steps of 16 KiB, the second repeats a word, the third takes every other word. -/
def sampleCtrl : Ctrl where
  confOffset := 0
  confCount := 80
  inpOffset := ![0, 0, 256, 0xFFFFF]
  inpCount := ![16, 8, 8, 1]
  inpStride := ![4096, 0, 2, 1]
  outOffset _ := 1024
  outCount _ := 8

theorem strelaIoctlControl_columns_sample :
    ∃ r', strelaIoctlControl (0xFFC00000 : BitVec 32) (some sampleCtrl) (fun _ => 0) = .ok r' ∧
      (decode r' (.input 3)).touches ⊆ Set.Ico 0xFFC00000 0x100000000 ∧
      Asked (sampleCtrl.column (.input 2)) (decode r' (.input 2)) ∧
      ¬ Asked (sampleCtrl.column (.input 0)) (decode r' (.input 0)) ∧
      ¬ Asked (sampleCtrl.column (.input 1)) (decode r' (.input 1)) := by
  obtain ⟨hok, h⟩ := @strelaIoctlControl_columns 32 0xFFC00000 le_rfl (by decide) sampleCtrl
    fun _ => 0
  obtain ⟨r', hr⟩ := hok.mp (outOfBounds_eq_false_iff.mp (by decide))
  refine ⟨r', hr, (h r' hr _).1, (h r' hr _).2.mpr ?_, (h r' hr _).2.not.mpr ?_,
    (h r' hr _).2.not.mpr ?_⟩
  · rintro i hi
    cases hi
    exact .inr (by decide)
  · intro henc
    exact absurd (henc 0 rfl) (by decide)
  · intro henc
    exact absurd (henc 1 rfl) (by decide)

/-! ## The newer driver on the same columns -/

section Newer

variable {objs : ObjId → GemObject w} {job : Buffers} {file : FileId} {handle : U32}

theorem strelaHwProgram_programs {addr : Slot → BitVec w}
    (ha : ∀ s, strelaBindingAddr objs (job.get s) = some (addr s)) (r : Regs) :
    ∃ r', strelaHwProgram objs false job r = some r' ∧
      Programs (fun s => (addr s).setWidth 32) job.sizeReg r r' := by
  obtain ⟨r', hprog, hregs⟩ := strelaHwProgram_spec ha r
  have hc : strelaBindingAddr objs job.config = some (addr .config) := ha .config
  have hi (i : Fin 4) : strelaBindingAddr objs (job.inputs i) = some (addr (.input i)) :=
    ha (.input i)
  have ho (i : Fin 4) : strelaBindingAddr objs (job.outputs i) = some (addr (.output i)) :=
    ha (.output i)
  have hr : List.finRange 4 = [0, 1, 2, 3] := by decide
  refine ⟨r', hprog, ?_⟩
  simp only [strelaHwProgram, strelaHwWriteBinding, hc, hi, ho, hr, List.foldlM_cons,
    List.foldlM_nil, Bool.false_eq_true, if_false, Option.bind_eq_bind, Option.bind_some,
    Option.pure_def, Option.some.injEq] at hprog
  subst hprog
  constructor
  · exact fun s => (hregs s).1
  · exact fun s => (hregs s).2
  · rfl
  · intro x hx
    have hne (y : ℕ) (hy : y ∈ programmed) : x ≠ y := fun h => hx (h ▸ hy)
    simp only [writel]
    repeat rw [Function.update_of_ne (hne _ (by decide))]

/-- The two ways to pack an input agree unless a word was to be repeated. -/
theorem mkInpSize_eq_iff (hspan : src.span ≤ maxColumnBytes) :
    mkInpSize (src.stride * BitVec.ofNat 32 wordSize) src.count =
      strelaInputSize src.count src.stride ↔ (src.stride = 0 → src.count = 0) := by
  by_cases hs : src.stride = 0
  · have hzero : (0 : U32).toNat = 0 := rfl
    have hl : (mkInpSize (src.stride * BitVec.ofNat 32 wordSize) src.count).toNat = 0 := by
      simp [hs, mkInpSize]
    rw [← BitVec.toNat_inj, hl, toNat_strelaInputSize hspan]
    simp only [StridedSource.span, hs, hzero, wordSize, true_implies, ← BitVec.toNat_inj,
      Nat.zero_mul, Nat.zero_mod, Nat.zero_add, zero_le, max_eq_right, mul_one]
    omega
  · have hmax : max32 src.stride 1 = src.stride := by
      refine if_neg fun h => hs (BitVec.eq_of_toNat_eq ?_)
      have := BitVec.lt_def.mp h
      have hone : (1 : U32).toNat = 1 := rfl
      have hzero : (0 : U32).toNat = 0 := rfl
      omega
    refine iff_of_true ?_ fun h => absurd h hs
    rw [mkInpSize, strelaInputSize, hmax, BitVec.mul_assoc, BitVec.mul_assoc,
      BitVec.mul_comm (BitVec.ofNat 32 wordSize)]

theorem column_offset (ctrl : Ctrl) (handle : U32) (s : Slot) :
    (ctrl.column s).offset = ((ctrl.submit handle).source s).offset := by cases s <;> rfl

/-- What the newer driver accepts ends inside the region, since a stride of 0 is sized as 1. -/
theorem bytes_le_span (ctrl : Ctrl) (handle : U32) (s : Slot) :
    bytes (ctrl.column s) ≤ ((ctrl.submit handle).source s).span := by
  have heq : bytes (ctrl.column s) = bytes ((ctrl.submit handle).source s) := by cases s <;> rfl
  rw [heq, bytes, StridedSource.span]
  exact Nat.mul_le_mul_right _ (Nat.mul_le_mul_left _ (le_max_left _ _))

theorem setWidth_offset (hw : 32 ≤ w) {offset : U32}
    (h : offset.toNat * wordSize ≤ dataRegionSize) :
    (offset * BitVec.ofNat 32 wordSize).setWidth w =
      offset.setWidth w * BitVec.ofNat w wordSize := by
  have hpow : 2 ^ 32 ≤ 2 ^ w := Nat.pow_le_pow_right (by decide) hw
  simp only [wordSize, dataRegionSize] at *
  apply BitVec.eq_of_toNat_eq
  rw [BitVec.toNat_setWidth, BitVec.toNat_mul, BitVec.toNat_mul, BitVec.toNat_setWidth,
    BitVec.toNat_ofNat, BitVec.toNat_ofNat, Nat.mod_eq_of_lt (show offset.toNat < 2 ^ w by omega),
    Nat.mod_eq_of_lt (show 4 < 2 ^ w by omega)]
  congr 1
  omega

/-- What the newer driver accepts on one buffer of the size of the region, the older one accepts,
and it writes the same registers unless some word was to be repeated. -/
theorem strelaIoctlControl_agrees (hw : 32 ≤ w)
    (hres : Resolved objs file (ctrl.submit handle) job)
    (hobj : ∀ s o, (job.get s).obj = some o →
      (objs o).size.toNat = dataRegionSize ∧ (objs o).dmaAddr = dmaAddr) (r : Regs) :
    ∃ r₁ r₂, strelaIoctlControl dmaAddr (some ctrl) r = .ok r₁ ∧
      strelaHwProgram objs false job r = some r₂ ∧
      (r₁ = r₂ ↔ ∀ i, ctrl.inpStride i = 0 → ctrl.inpCount i = 0) := by
  choose obj hcheck heq using hres.checked
  have hregion (s : Slot) := hobj s (obj s) (by rw [heq s])
  have hend (s : Slot) :
      (ctrl.column s).offset.toNat * wordSize + bytes (ctrl.column s) ≤ dataRegionSize := by
    obtain ⟨-, -, h⟩ := strelaBindingCheck_ok (hcheck s)
    rw [(hregion s).1] at h
    rw [column_offset ctrl handle]
    exact le_trans (Nat.add_le_add_left (bytes_le_span ctrl handle s) _) h
  obtain ⟨r₁, h₁⟩ := strelaIoctlControl_accepts (outOfBounds_eq_false_iff.mpr hend) r
  have haddr (s : Slot) : strelaBindingAddr objs (job.get s) = some (dmaAddr +
      (ctrl.column s).offset.setWidth w * BitVec.ofNat w wordSize) := by
    rw [heq s, ← (hregion s).2, column_offset ctrl handle]
    rfl
  obtain ⟨r₂, h₂, hp₂⟩ := strelaHwProgram_programs haddr r
  refine ⟨r₁, r₂, h₁, h₂, ((strelaIoctlControl_ok h₁).2.ext_iff hp₂).trans ?_⟩
  have hsame : ctrl.addrReg dmaAddr = fun s => (dmaAddr +
      (ctrl.column s).offset.setWidth w * BitVec.ofNat w wordSize).setWidth 32 := by
    ext1 s
    rw [Ctrl.addrReg, setWidth_offset hw (le_trans (Nat.le_add_right _ _) (hend s))]
  have hcount (s : Slot) : (job.get s).count = ((ctrl.submit handle).source s).count := by
    rw [heq s]
  have hinput (i : Fin 4) : ctrl.sizeReg (.input i) = job.sizeReg (.input i) ↔
      (ctrl.inpStride i = 0 → ctrl.inpCount i = 0) := by
    obtain ⟨hspan, -, -⟩ := strelaBindingCheck_ok (hcheck (.input i))
    have hjob : (job.inputs i).count = ctrl.inpCount i := hcount (.input i)
    have hstride : job.inputStrides i = ctrl.inpStride i := hres.strides i
    have hsrc : (ctrl.submit handle).source (.input i) =
        ⟨handle, ctrl.inpOffset i, ctrl.inpCount i, ctrl.inpStride i⟩ := rfl
    rw [hsrc] at hspan
    rw [Ctrl.sizeReg, Buffers.sizeReg, hstride, hjob, mkInpSize_eq_iff hspan]
  constructor
  · rintro ⟨-, hsize⟩ i
    exact (hinput i).mp (congrFun hsize _)
  · intro h
    refine ⟨hsame, funext fun s => ?_⟩
    cases s with
    | config =>
      rw [Buffers.sizeReg, show job.config.count = _ from hcount .config]
      rfl
    | input i => exact (hinput i).mpr (h i)
    | output i =>
      rw [Buffers.sizeReg, show (job.outputs i).count = _ from hcount (.output i)]
      rfl

/-- Both drivers on a buffer of 4 MiB, with an input that is strided and none that repeats. -/
def sharedCtrl : Ctrl where
  confOffset := 0
  confCount := 80
  inpOffset _ := 256
  inpCount _ := 8
  inpStride _ := 2
  outOffset _ := 1024
  outCount _ := 8

def sharedObjs : ObjId → GemObject 32 := fun _ => ⟨0x400000, 0xFFC00000⟩

def sharedBuffers : Buffers where
  config := ⟨some 0, 0, 80⟩
  inputs _ := ⟨some 0, 256, 8⟩
  inputStrides _ := 2
  outputs _ := ⟨some 0, 1024, 8⟩

theorem strelaIoctlControl_agrees_shared :
    ∃ r', strelaIoctlControl (0xFFC00000 : BitVec 32) (some sharedCtrl) (fun _ => 0) = .ok r' ∧
      strelaHwProgram sharedObjs false sharedBuffers (fun _ => 0) = some r' := by
  have hres : Resolved sharedObjs 0 (sharedCtrl.submit 1) sharedBuffers :=
    resolved_of_slots ⟨[((0, 1), 0)], [0], fun _ => 1, []⟩ (by decide) (by decide)
  obtain ⟨r₁, r₂, h₁, h₂, hiff⟩ :=
    strelaIoctlControl_agrees le_rfl hres (fun _ _ _ => ⟨rfl, rfl⟩) fun _ => 0
  obtain rfl := hiff.mpr fun i h => absurd (show (2 : U32) = 0 from h) (by decide)
  exact ⟨r₁, h₁, h₂⟩

end Newer

end Strela.Legacy
