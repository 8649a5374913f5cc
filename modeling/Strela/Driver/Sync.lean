import Strela.Driver.Binding

/-! # Cache maintenance

`DRM_IOCTL_STRELA_GEM_SYNC` hands a range of a buffer object from the CPU to the
device or back. The range is checked against the size of the object and against
the alignment of the DMA caches, and nothing is rounded.
-/

namespace Strela.Driver

/-- `drm_strela_gem_sync`. -/
structure GemSync where
  handle : U32
  flags : U32
  offset : U64
  length : U64
  deriving DecidableEq, Repr

def syncRead : U32 := 1

def syncWrite : U32 := 2

def syncRw : U32 := syncRead ||| syncWrite

def syncFini : U32 := 4

def syncValidFlagsMask : U32 := syncRw ||| syncFini

/-- `enum dma_data_direction`. -/
inductive Direction | bidirectional | toDevice | fromDevice
  deriving DecidableEq, Repr

inductive DmaSync (w : ℕ)
  | forDevice (addr : BitVec w) (length : U64) (dir : Direction)
  | forCpu (addr : BitVec w) (length : U64) (dir : Direction)
  deriving DecidableEq, Repr

/-- `IS_ALIGNED`, for a power of two. -/
def isAligned (x : U64) (align : ℕ) : Bool := x &&& (BitVec.ofNat 64 align - 1) == 0

def syncDirection (flags : U32) : Option Direction :=
  if flags &&& syncRw = syncRw then some .bidirectional
  else if flags &&& syncWrite ≠ 0 then some .toDevice
  else if flags &&& syncRead ≠ 0 then some .fromDevice
  else none

variable {w : ℕ} (objs : ObjId → GemObject w) (align : ℕ)

def syncObject (obj : GemObject w) (args : GemSync) (dir : Direction) :
    Except Errno (Option (DmaSync w)) :=
  if args.offset > obj.size ∨ args.length > obj.size - args.offset then .error .einval
  else if ¬ isAligned args.offset align ∨ ¬ isAligned args.length align then .error .einval
  else if args.length = 0 then .ok none
  else
    let addr := (obj.dmaAddr.setWidth 64 + args.offset).setWidth w
    if args.flags &&& syncFini ≠ 0 then .ok (some (.forDevice addr args.length dir))
    else .ok (some (.forCpu addr args.length dir))

/-- `align` is what `dma_get_cache_alignment` returns. -/
def strelaGemSyncIoctl (g : Gem) (file : FileId) (args : GemSync) :
    Except Errno (Option (DmaSync w)) × Gem :=
  if args.flags &&& ~~~syncValidFlagsMask ≠ 0 then (.error .einval, g)
  else
    match syncDirection args.flags with
    | none => (.error .einval, g)
    | some dir =>
      match g.lookup file args.handle with
      | (none, g) => (.error .enoent, g)
      | (some o, g) => (syncObject align (objs o) args dir, g.put (some o))

/-! ## Ranges that are accepted -/

variable {align}

theorem isAligned_of_dvd {x : U64} {k : ℕ} (ha : align = 2 ^ k) (hk : k < 64)
    (hx : align ∣ x.toNat) : isAligned x align = true := by
  subst ha
  have hlt : 2 ^ k < 2 ^ 64 := Nat.pow_lt_pow_right (by omega) hk
  have hpos : 0 < 2 ^ k := Nat.two_pow_pos k
  have hmask : (BitVec.ofNat 64 (2 ^ k) - 1).toNat = 2 ^ k - 1 := by
    rw [BitVec.toNat_sub, BitVec.toNat_ofNat, Nat.mod_eq_of_lt hlt]
    change (2 ^ 64 - 1 + 2 ^ k) % 2 ^ 64 = 2 ^ k - 1
    omega
  rw [isAligned, beq_iff_eq]
  apply BitVec.eq_of_toNat_eq
  rw [BitVec.toNat_and, hmask, Nat.and_two_pow_sub_one_eq_mod, Nat.mod_eq_zero_of_dvd hx]
  rfl

theorem syncObject_ok {obj : GemObject w} {args : GemSync} {dir : Direction} {k : ℕ}
    (ha : align = 2 ^ k) (hk : k < 64)
    (hin : args.offset.toNat + args.length.toNat ≤ obj.size.toNat)
    (ho : align ∣ args.offset.toNat) (hl : align ∣ args.length.toNat) (hne : args.length ≠ 0) :
    ∃ sync, syncObject align obj args dir = .ok (some sync) := by
  have hbounds : ¬ (args.offset > obj.size ∨ args.length > obj.size - args.offset) := by
    have hle : args.offset ≤ obj.size := by
      rw [BitVec.le_def]
      omega
    simp only [gt_iff_lt, BitVec.lt_def, BitVec.toNat_sub_of_le hle]
    omega
  have haligned : ¬ (¬ isAligned args.offset align ∨ ¬ isAligned args.length align) := by
    rw [isAligned_of_dvd ha hk ho, isAligned_of_dvd ha hk hl]
    decide
  rw [syncObject, if_neg hbounds, if_neg haligned, if_neg hne]
  split
  · exact ⟨_, rfl⟩
  · exact ⟨_, rfl⟩

theorem strelaGemSyncIoctl_fst {g : Gem} {file : FileId} {args : GemSync} {dir : Direction}
    {o : ObjId} (hf : args.flags &&& ~~~syncValidFlagsMask = 0)
    (hd : syncDirection args.flags = some dir)
    (hg : g.handles.lookup (file, args.handle) = some o) :
    (strelaGemSyncIoctl objs align g file args).1 = syncObject align (objs o) args dir := by
  simp [strelaGemSyncIoctl, hf, hd, Gem.lookup, hg]

end Strela.Driver
