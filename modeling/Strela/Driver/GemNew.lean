import Strela.Driver.Submit
import Strela.Driver.Sync
import Strela.Foundation.Unsigned
import Mathlib.Order.Bounds.Basic

/-! # Creating buffer objects

`DRM_IOCTL_STRELA_GEM_NEW` rounds the size it is asked for up to whole pages, in
the `u64` of the request, and passes it on as a `size_t`. What the kernel offers,
memory, offsets and handles, is a parameter that may fail at any size. A size
that the rounding or the narrowing changes still gets an object, of fewer bytes
than were asked for.
-/

namespace Strela.Driver

open Foundation.Unsigned

/-- The part of `drm_strela_gem_new` that the client fills in. -/
structure GemNewArgs where
  size : U64
  flags : U32
  deriving DecidableEq, Repr

def pageSize : ℕ := 4096

/-- `PAGE_ALIGN`, in the type of its argument. -/
def pageAlign (x : U64) : U64 :=
  (x + (BitVec.ofNat 64 pageSize - 1)) &&& ~~~(BitVec.ofNat 64 pageSize - 1)

/-- What the kernel answers: `size_t` has `z` bits and `dma_addr_t` has `w`. -/
structure GemKernel (z w : ℕ) where
  kzalloc : Bool
  objectInit : BitVec z → Except Errno Unit
  createMmapOffset : BitVec z → Except Errno Unit
  dmaAlloc : BitVec z → Option (BitVec w)
  mappingError : BitVec w → Bool
  handleCreate : Except Errno U32
  nodeOffset : U64
  obj : ObjId

structure Made (w : ℕ) where
  object : GemObject w
  handle : U32
  offset : U64

variable {z w : ℕ} (kernel : GemKernel z w)

/-- The object has the size that it was initialized with. -/
def strelaGemCreate (size : BitVec z) : Except Errno (GemObject w) :=
  if kernel.kzalloc then do
    kernel.objectInit size
    kernel.createMmapOffset size
    match kernel.dmaAlloc size with
    | none => .error .enomem
    | some addr =>
      if kernel.mappingError addr then .error .enomem else .ok ⟨size.setWidth 64, addr⟩
  else .error .enomem

def strelaGemNewIoctl (g : Gem) (file : FileId) (args : GemNewArgs) :
    Except Errno (Made w) × Gem :=
  if args.flags ≠ 0 then (.error .einval, g)
  else if args.size = 0 ∨ ¬ isAligned args.size wordSize then (.error .einval, g)
  else
    match strelaGemCreate kernel ((pageAlign args.size).setWidth z) with
    | .error e => (.error e, g)
    | .ok object =>
      match kernel.handleCreate with
      | .error e => (.error e, g.createFail kernel.obj)
      | .ok handle =>
        (.ok ⟨object, handle, kernel.nodeOffset⟩,
          (g.create file handle kernel.obj).put (some kernel.obj))

/-! ## The size of what is made -/

/-- A successful call makes an object of the fewest pages that hold the size, and a size whose pages
`size_t` cannot count is refused without a handle, whatever the kernel answers. -/
structure GivesAsked (z w : ℕ) (size : U64) : Prop where
  least : ∀ (kernel : GemKernel z w) g file flags made,
    (strelaGemNewIoctl kernel g file ⟨size, flags⟩).1 = .ok made →
    IsLeast {n | pageSize ∣ n ∧ size.toNat ≤ n} made.object.size.toNat
  refused : (∀ n, pageSize ∣ n → size.toNat ≤ n → 2 ^ z ≤ n) →
    ∀ (kernel : GemKernel z w) g file flags,
      (∃ e, (strelaGemNewIoctl kernel g file ⟨size, flags⟩).1 = .error e) ∧
      (strelaGemNewIoctl kernel g file ⟨size, flags⟩).2.handles = g.handles

variable {size : U64} {kernel}

theorem isLeast_roundUp (n : ℕ) :
    IsLeast {k | pageSize ∣ k ∧ n ≤ k} (roundUp n pageSize) :=
  ⟨⟨Nat.dvd_of_mod_eq_zero (roundUp_mod n (by decide)), le_roundUp _ _⟩,
    fun _ hk => roundUp_le (by decide) hk.1 hk.2⟩

theorem toNat_pageAlign (x : U64) : (pageAlign x).toNat = roundUp x.toNat pageSize % 2 ^ 64 := by
  have hlt := x.isLt
  have hpage : IsPow2 pageSize := ⟨12, rfl⟩
  have hmask : (~~~(BitVec.ofNat 64 pageSize - 1)).toNat = 2 ^ 64 - pageSize := by decide
  have hlow : (BitVec.ofNat 64 pageSize - 1).toNat = pageSize - 1 := by decide
  rw [pageAlign, BitVec.toNat_and, hmask, BitVec.toNat_add, hlow,
    land_complement ⟨64, rfl⟩ hpage (by decide) (Nat.mod_lt _ (by decide))]
  simp only [pageSize]
  by_cases hfit : x.toNat + 4095 < 2 ^ 64
  · have hround : roundUp x.toNat 4096 = x.toNat + 4095 - (x.toNat + 4095) % 4096 := by
      apply roundUp_eq <;> omega
    rw [hround]
    omega
  · have hround : roundUp x.toNat 4096 = 2 ^ 64 := by
      apply roundUp_eq <;> omega
    rw [hround]
    omega

theorem toNat_passed (hz : z ≤ 64) (size : U64) :
    ((pageAlign size).setWidth z).toNat = roundUp size.toNat pageSize % 2 ^ z := by
  rw [BitVec.toNat_setWidth, toNat_pageAlign, Nat.mod_mod_of_dvd _ (Nat.pow_dvd_pow 2 hz)]

def servingKernel (z w : ℕ) : GemKernel z w where
  kzalloc := true
  objectInit _ := .ok ()
  createMmapOffset _ := .ok ()
  dmaAlloc _ := some 0
  mappingError _ := false
  handleCreate := .ok 1
  nodeOffset := 0
  obj := 0

theorem strelaGemCreate_ok {size : BitVec z} {o : GemObject w}
    (h : strelaGemCreate kernel size = .ok o) : o.size = size.setWidth 64 := by
  unfold strelaGemCreate at h
  split at h
  · cases hinit : kernel.objectInit size with
    | error e =>
      simp only [hinit, bind, Except.bind] at h
      cases h
    | ok =>
      cases hoffset : kernel.createMmapOffset size with
      | error e =>
        simp only [hinit, hoffset, bind, Except.bind] at h
        cases h
      | ok =>
        simp only [hinit, hoffset, bind, Except.bind] at h
        split at h
        · cases h
        · split at h
          · cases h
          · rw [← Except.ok.inj h]
  · cases h

/-- The object of a successful call has the size that was passed on. -/
theorem strelaGemNewIoctl_ok (hz : z ≤ 64) {g : Gem} {file : FileId} {flags : U32} {made : Made w}
    (h : (strelaGemNewIoctl kernel g file ⟨size, flags⟩).1 = .ok made) :
    made.object.size.toNat = roundUp size.toNat pageSize % 2 ^ z := by
  unfold strelaGemNewIoctl at h
  dsimp only at h
  split at h
  · cases h
  · split at h
    · cases h
    · split at h
      · cases h
      · rename_i object ho
        split at h
        · cases h
        · obtain rfl := Except.ok.inj h
          have hlt := ((pageAlign size).setWidth z).isLt
          have hpow : 2 ^ z ≤ 2 ^ 64 := Nat.pow_le_pow_right (by decide) hz
          rw [strelaGemCreate_ok ho, BitVec.toNat_setWidth, Nat.mod_eq_of_lt (by omega),
            toNat_passed hz]

theorem strelaGemNewIoctl_serving (h0 : size ≠ 0) (ha : isAligned size wordSize = true) (g : Gem)
    (file : FileId) :
    ∃ made, (strelaGemNewIoctl (servingKernel z w) g file ⟨size, 0⟩).1 = .ok made := by
  refine ⟨⟨⟨((pageAlign size).setWidth z).setWidth 64, 0⟩, 1, 0⟩, ?_⟩
  rw [strelaGemNewIoctl, if_neg (by simp), if_neg (not_or.mpr ⟨h0, by simp [ha]⟩)]
  rfl

/-- For every size that the call accepts, with `size_t` of 32 or of 64 bits, it gives what was asked
exactly if the rounded size, over the unbounded integers, is a `size_t`. -/
theorem givesAsked_iff (hz : z = 32 ∨ z = 64) (h0 : size ≠ 0)
    (ha : isAligned size wordSize = true) :
    GivesAsked z w size ↔ roundUp size.toNat pageSize < 2 ^ z := by
  have hle : z ≤ 64 := by omega
  have hleast := isLeast_roundUp size.toNat
  constructor
  · intro h
    obtain ⟨made, hmade⟩ := strelaGemNewIoctl_serving (z := z) (w := w) h0 ha
      ⟨[], [], fun _ => 0, []⟩ 0
    have hsize := IsLeast.unique (h.least _ _ _ _ _ hmade) hleast
    rw [strelaGemNewIoctl_ok hle hmade] at hsize
    rw [← hsize]
    exact Nat.mod_lt _ (Nat.two_pow_pos z)
  · intro hlt
    constructor
    · intro kernel g file flags made hmade
      rw [strelaGemNewIoctl_ok hle hmade, Nat.mod_eq_of_lt hlt]
      exact hleast
    · intro hbig
      exact absurd (hbig _ hleast.1.1 hleast.1.2) (not_le.mpr hlt)

theorem givesAsked_iff_page : GivesAsked 32 32 (BitVec.ofNat 64 5000) :=
  (givesAsked_iff (.inl rfl) (by decide) (by decide)).mpr (by decide)

/-- A request for 4 GiB and one page gets one page where `size_t` has 32 bits. -/
theorem gemNew_truncates : ¬ GivesAsked 32 32 (BitVec.ofNat 64 (2 ^ 32 + 4096)) ∧
    ((strelaGemNewIoctl (servingKernel 32 32) ⟨[], [], fun _ => 0, []⟩ 0
      ⟨BitVec.ofNat 64 (2 ^ 32 + 4096), 0⟩).1.toOption.map fun made => made.object.size.toNat) =
      some 4096 := by
  have hmade : (strelaGemNewIoctl (servingKernel 32 32) ⟨[], [], fun _ => 0, []⟩ 0
      ⟨BitVec.ofNat 64 (2 ^ 32 + 4096), 0⟩).1 = .ok ⟨⟨4096, 0⟩, 1, 0⟩ := by rfl
  refine ⟨fun h => ?_, by rw [hmade]; rfl⟩
  have := (h.least _ _ _ _ _ hmade).1.2
  exact absurd this (by decide)

end Strela.Driver
