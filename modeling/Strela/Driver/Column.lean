import Strela.Driver.Simulator
import Mathlib.Data.Set.Lattice
import Mathlib.Order.CompletePartialOrder

/-! # One column of the simulator

The simulator copies the words of a column through a stride and may write where
it reads. The bounds rest on the check of the bindings at submit time, which was
made on counts and strides and not on what is copied. The copy is exact where no
word is written before it is read: the ranges are apart, or the output starts at
or before the input, or a stride of 0 repeats one word.
-/

namespace Strela.Driver

open Foundation

variable {w : ℕ} (objs : ObjId → GemObject w) (mapped : ObjId → Bool)

/-- The synchronizations before and after the copy loop, each an address and a length of `size_t`,
which has `z` bits. -/
def columnSyncs (z : ℕ) (inp : Binding) (stride : U32) (out : Binding) :
    Option (List (BitVec w × BitVec z)) :=
  let n := min32 inp.count out.count
  if n = 0 then some []
  else do
    let inObj ← inp.obj
    let outObj ← out.obj
    if !mapped inObj || !mapped outObj then some []
    else
      let inAddr ← strelaBindingAddr objs inp
      let outAddr ← strelaBindingAddr objs out
      some [(inAddr, ((n - 1).setWidth z * stride.setWidth z + 1) * BitVec.ofNat z wordSize),
        (outAddr, n.setWidth z * BitVec.ofNat z wordSize)]

/-- What the allocator of `GEM_NEW` gives: whole pages inside the address space of the bus. -/
structure GemObject.Paged (o : GemObject w) : Prop where
  page : 4096 ∣ o.dmaAddr.toNat
  bound : o.dmaAddr.toNat + o.size.toNat ≤ 2 ^ w

def copied (src : StridedSource) (dst : Source) : ℕ := min src.count.toNat dst.count.toNat

/-- The bindings that the checks of an input and an output leave. -/
def StridedSource.binding (src : StridedSource) (o : ObjId) : Binding :=
  ⟨some o, src.offset, src.count⟩

variable {objs mapped} {src : StridedSource} {dst : Source} {inObj outObj : ObjId} {z i : ℕ}
  {m : Mem}

/-! ## Bounds -/

theorem read_le_span (hi : i < src.count.toNat) :
    (i * src.stride.toNat + 1) * wordSize ≤ src.span := by
  have hstride : i * src.stride.toNat ≤ i * max src.stride.toNat 1 :=
    Nat.mul_le_mul_left _ (le_max_left _ _)
  have hcount : (i + 1) * max src.stride.toNat 1 ≤ src.count.toNat * max src.stride.toNat 1 :=
    Nat.mul_le_mul_right _ hi
  rw [Nat.add_mul, one_mul] at hcount
  exact Nat.mul_le_mul_right _ (by omega)

theorem span_strided (dst : Source) : dst.strided.span = dst.count.toNat * wordSize := by
  have hone : (1 : U32).toNat = 1 := rfl
  simp only [StridedSource.span, Source.strided, hone, max_self, mul_one]

theorem toNat_length (hz : 32 ≤ z) {x : BitVec z} (hx : x.toNat * wordSize ≤ maxColumnBytes) :
    (x * BitVec.ofNat z wordSize).toNat = x.toNat * wordSize := by
  have hpow : 2 ^ 32 ≤ 2 ^ z := Nat.pow_le_pow_right (by decide) hz
  simp only [wordSize, maxColumnBytes] at hx ⊢
  rw [BitVec.toNat_mul, BitVec.toNat_ofNat, Nat.mod_eq_of_lt (by omega : 4 < 2 ^ z),
    Nat.mod_eq_of_lt (by omega)]

theorem toNat_inWords (hz : 32 ≤ z) {n : U32} (stride : U32) (hn : n ≠ 0)
    (hx : ((n.toNat - 1) * stride.toNat + 1) * wordSize ≤ maxColumnBytes) :
    ((n - 1).setWidth z * stride.setWidth z + 1).toNat = (n.toNat - 1) * stride.toNat + 1 := by
  have hpow : 2 ^ 32 ≤ 2 ^ z := Nat.pow_le_pow_right (by decide) hz
  have hpos : n.toNat ≠ 0 := fun h => hn (BitVec.eq_of_toNat_eq h)
  have hone : (1 : U32).toNat = 1 := rfl
  have honez : (1 : BitVec z).toNat = 1 := Nat.mod_eq_of_lt (show 1 < 2 ^ z by omega)
  have hsub : (n - 1).toNat = n.toNat - 1 := by
    rw [BitVec.toNat_sub_of_le (by rw [BitVec.le_def]; omega), hone]
  have h₁ := n.isLt
  have h₂ := stride.isLt
  simp only [wordSize, maxColumnBytes] at hx
  have hmul : (n.toNat - 1) * stride.toNat % 2 ^ z = (n.toNat - 1) * stride.toNat :=
    Nat.mod_eq_of_lt (by omega)
  rw [BitVec.toNat_add, BitVec.toNat_mul, BitVec.toNat_setWidth, BitVec.toNat_setWidth, hsub,
    Nat.mod_eq_of_lt (by omega : n.toNat - 1 < 2 ^ z),
    Nat.mod_eq_of_lt (by omega : stride.toNat < 2 ^ z), hmul, honez, Nat.mod_eq_of_lt (by omega)]

section Bounds

variable (hc : strelaBindingCheck (objs inObj).size src = .ok ())
  (hd : strelaBindingCheck (objs outObj).size dst.strided = .ok ())

include hc

theorem index_eq (hi : i < src.count.toNat) :
    (BitVec.ofNat 32 i * src.stride).toNat = i * src.stride.toNat := by
  have hspan := (strelaBindingCheck_ok hc).1
  have hread := read_le_span hi
  have hlt := src.count.isLt
  simp only [wordSize, maxColumnBytes] at hspan hread
  rw [BitVec.toNat_mul, BitVec.toNat_ofNat, Nat.mod_eq_of_lt (by omega : i < 2 ^ 32),
    Nat.mod_eq_of_lt (by omega)]

theorem columnGather_spec (outObj : ObjId) (dst : Source) :
    let g := columnGather objs inObj outObj (src.binding inObj) src.stride
      (dst.strided.binding outObj)
    g.size = wordSize ∧ g.count = copied src dst ∧ g.dst = wordAddr objs outObj dst.offset.toNat ∧
      ∀ k < g.count, g.src k = wordAddr objs inObj (src.offset.toNat + k * src.stride.toNat) := by
  have hcount : (min32 src.count dst.count).toNat = copied src dst := toNat_min32 _ _
  refine ⟨rfl, hcount, rfl, fun k hk => ?_⟩
  have hk' : k < copied src dst := hcount ▸ hk
  have hlt : k < src.count.toNat := lt_of_lt_of_le hk' (min_le_left _ _)
  simp only [columnGather, index_eq hc hlt]
  rfl

theorem reads_inside {x : ℕ} (hx : (columnGather objs inObj outObj (src.binding inObj) src.stride
    (dst.strided.binding outObj)).Reads x) : x ∈ (objs inObj).range := by
  obtain ⟨hsize, hcount, -, hsrc⟩ := columnGather_spec hc outObj dst
  obtain ⟨k, hk, j, hj, rfl⟩ := hx
  have hlt : k < src.count.toNat := lt_of_lt_of_le (hcount ▸ hk) (min_le_left _ _)
  have hread := read_le_span hlt
  have hend := (strelaBindingCheck_ok hc).2.2
  rw [hsize] at hj
  rw [hsrc k hk]
  simp only [GemObject.range, Set.mem_Ico, wordAddr, wordSize] at *
  omega

include hd

theorem writes_inside {x : ℕ} (hx : (columnGather objs inObj outObj (src.binding inObj) src.stride
    (dst.strided.binding outObj)).Writes x) : x ∈ (objs outObj).range := by
  obtain ⟨hsize, hcount, hdst, -⟩ := columnGather_spec hc outObj dst
  obtain ⟨hlo, hhi⟩ := hx
  have hend := (strelaBindingCheck_ok hd).2.2
  have hle : copied src dst ≤ dst.count.toNat := min_le_right _ _
  have hoff : dst.strided.offset = dst.offset := rfl
  rw [hdst] at hlo hhi
  rw [hsize, hcount] at hhi
  rw [span_strided, hoff] at hend
  simp only [GemObject.range, Set.mem_Ico, wordAddr, wordSize] at *
  omega

/-- The synchronizations have the lengths of what is read and written, over the natural numbers,
and stay inside the objects. -/
theorem columnSyncs_eq (hw : 32 ≤ w) (hz : 32 ≤ z) (hi : (objs inObj).Paged)
    (ho : (objs outObj).Paged) (hmi : mapped inObj = true) (hmo : mapped outObj = true)
    (hn : copied src dst ≠ 0) :
    ∃ inAddr inLen outAddr outLen,
      columnSyncs objs mapped z (src.binding inObj) src.stride (dst.strided.binding outObj) =
        some [(inAddr, inLen), (outAddr, outLen)] ∧
      inAddr.toNat = wordAddr objs inObj src.offset.toNat ∧
      inLen.toNat = ((copied src dst - 1) * src.stride.toNat + 1) * wordSize ∧
      inAddr.toNat + inLen.toNat ≤ (objs inObj).dmaAddr.toNat + (objs inObj).size.toNat ∧
      outAddr.toNat = wordAddr objs outObj dst.offset.toNat ∧
      outLen.toNat = copied src dst * wordSize ∧
      outAddr.toNat + outLen.toNat ≤ (objs outObj).dmaAddr.toNat + (objs outObj).size.toNat := by
  obtain ⟨hspan, -, hend⟩ := strelaBindingCheck_ok hc
  obtain ⟨hspan', -, hend'⟩ := strelaBindingCheck_ok hd
  have hoff : dst.strided.offset = dst.offset := rfl
  rw [span_strided] at hspan' hend'
  rw [hoff] at hend'
  have hcount : (min32 src.count dst.count).toNat = copied src dst := toNat_min32 _ _
  have hne : min32 src.count dst.count ≠ 0 := fun h => hn (by rw [← hcount, h]; rfl)
  have hle : copied src dst ≤ dst.count.toNat := min_le_right _ _
  have hlast : copied src dst - 1 < src.count.toNat := by
    have : copied src dst ≤ src.count.toNat := min_le_left _ _
    omega
  have hread := read_le_span hlast
  -- The values of the two addresses and the two lengths.
  have hinWords := toNat_inWords hz src.stride hne (by rw [hcount]; omega)
  have hinLen := toNat_length hz (by rw [hinWords, hcount]; omega)
  have houtWords : ((min32 src.count dst.count).setWidth z).toNat = copied src dst := by
    have hpow : 2 ^ 32 ≤ 2 ^ z := Nat.pow_le_pow_right (by decide) hz
    have := (min32 src.count dst.count).isLt
    rw [BitVec.toNat_setWidth, hcount, Nat.mod_eq_of_lt (by omega)]
  have houtLen := toNat_length hz (x := (min32 src.count dst.count).setWidth z)
    (by rw [houtWords]; simp only [wordSize] at hspan' ⊢; omega)
  have hinAddr := toNat_bindingAddr hw (objs inObj) src.offset
    (by have := hi.bound; simp only [wordSize] at hread hend ⊢; omega)
  have houtAddr := toNat_bindingAddr hw (objs outObj) dst.offset
    (by have := ho.bound; simp only [wordSize] at hend' ⊢; omega)
  have hobj : (src.binding inObj).obj = some inObj ∧
      (dst.strided.binding outObj).obj = some outObj := ⟨rfl, rfl⟩
  have hcnt : (src.binding inObj).count = src.count ∧
      (dst.strided.binding outObj).count = dst.count := ⟨rfl, rfl⟩
  simp only [columnSyncs, hcnt, if_neg hne, hobj, hmi, hmo, strelaBindingAddr, Option.bind_eq_bind,
    Option.bind_some, Option.map_some, Bool.not_true, Bool.or_self, Bool.false_eq_true, if_false]
  refine ⟨_, _, _, _, rfl, hinAddr, ?_, ?_, houtAddr, ?_, ?_⟩
  · rw [hinLen, hinWords, hcount]
  · rw [hinLen, hinWords, hcount]
    exact (Nat.add_le_add_right hinAddr.le _).trans (by omega)
  · rw [houtLen, houtWords]
  · rw [houtLen, houtWords]
    refine (Nat.add_le_add_right houtAddr.le _).trans ?_
    simp only [wordSize] at hend' ⊢
    omega

end Bounds

/-! ## What is copied -/

/-- The words outside those first words of the output are left alone. -/
def OutputOnly (objs : ObjId → GemObject w) (outObj : ObjId) (src : StridedSource) (dst : Source)
    (m m' : Mem) : Prop :=
  ∀ x, x < wordAddr objs outObj dst.offset.toNat ∨
    wordAddr objs outObj (dst.offset.toNat + copied src dst) ≤ x → m' x = m x

def Copied (objs : ObjId → GemObject w) (inObj outObj : ObjId) (src : StridedSource) (dst : Source)
    (m m' : Mem) : Prop :=
  ∀ i < copied src dst, ∀ j < wordSize,
    m' (wordAddr objs outObj (dst.offset.toNat + i) + j) =
      m (wordAddr objs inObj (src.offset.toNat + i * src.stride.toNat) + j)

def RangesApart (objs : ObjId → GemObject w) (inObj outObj : ObjId) (src : StridedSource)
    (dst : Source) : Prop :=
  ∀ i < copied src dst, ∀ k < copied src dst,
    wordAddr objs inObj (src.offset.toNat + i * src.stride.toNat) + wordSize ≤
      wordAddr objs outObj (dst.offset.toNat + k) ∨
    wordAddr objs outObj (dst.offset.toNat + k) + wordSize ≤
      wordAddr objs inObj (src.offset.toNat + i * src.stride.toNat)

section Copy

variable (hc : strelaBindingCheck (objs inObj).size src = .ok ())

include hc

theorem settled_of_rangesApart (h : RangesApart objs inObj outObj src dst) :
    (columnGather objs inObj outObj (src.binding inObj) src.stride
      (dst.strided.binding outObj)).Settled := by
  obtain ⟨hsize, hcount, hdst, hsrc⟩ := columnGather_spec hc outObj dst
  apply Gather.settled_of_apart
  rintro y ⟨i, hi, j, hj, rfl⟩ ⟨hlo, hhi⟩
  rw [hsize] at hj hhi
  rw [hdst, hsrc i hi] at hlo hhi
  rw [hcount] at hi hhi
  -- The word of the output that the byte would be in.
  obtain ⟨k, hk⟩ : ∃ k, k = (wordAddr objs inObj (src.offset.toNat + i * src.stride.toNat) + j -
    wordAddr objs outObj dst.offset.toNat) / 4 := ⟨_, rfl⟩
  simp only [wordSize] at hj hhi
  have hapart := h i hi k (by omega)
  have hword : wordAddr objs outObj (dst.offset.toNat + k) =
      wordAddr objs outObj dst.offset.toNat + k * 4 := by
    simp only [wordAddr, wordSize]
    omega
  rw [hword, wordSize] at hapart
  omega

theorem settled_of_stride_zero (hi : (objs inObj).Paged) (ho : (objs outObj).Paged)
    (hz : src.stride = 0) :
    (columnGather objs inObj outObj (src.binding inObj) src.stride
      (dst.strided.binding outObj)).Settled := by
  obtain ⟨hsize, -, hdst, hsrc⟩ := columnGather_spec hc outObj dst
  have hdvd {o : ObjId} (hp : (objs o).Paged) (k : ℕ) : wordSize ∣ wordAddr objs o k :=
    Nat.dvd_add ((by decide : wordSize ∣ 4096).trans hp.page) (Dvd.intro_left k rfl)
  have hzero : src.stride.toNat = 0 := by rw [hz]; rfl
  apply Gather.settled_of_repeat (s := wordAddr objs inObj src.offset.toNat)
  · intro k hk
    rw [hsrc k hk, hzero, Nat.mul_zero, Nat.add_zero]
  · rw [hsize, hdst]
    exact Nat.dvd_sub (hdvd hi _) (hdvd ho _)
  · rw [hsize, hdst]
    exact Nat.dvd_sub (hdvd ho _) (hdvd hi _)

theorem settled_of_starts_before (hz : src.stride ≠ 0)
    (hle : wordAddr objs outObj dst.offset.toNat ≤ wordAddr objs inObj src.offset.toNat) :
    (columnGather objs inObj outObj (src.binding inObj) src.stride
      (dst.strided.binding outObj)).Settled := by
  obtain ⟨hsize, -, hdst, hsrc⟩ := columnGather_spec hc outObj dst
  apply Gather.settled_of_le
  intro k hk
  have hpos : 0 < src.stride.toNat := Nat.pos_of_ne_zero fun h => hz (BitVec.eq_of_toNat_eq h)
  have hmul : k ≤ k * src.stride.toNat := Nat.le_mul_of_pos_right _ hpos
  rw [hsrc k hk, hdst, hsize]
  simp only [wordAddr, wordSize] at hle ⊢
  omega

/-- A settled copy loop gives each output word the value of its input word. -/
theorem copied_of_settled (hs : (columnGather objs inObj outObj (src.binding inObj) src.stride
      (dst.strided.binding outObj)).Settled) (m : Mem) :
    Copied objs inObj outObj src dst m ((columnGather objs inObj outObj (src.binding inObj)
      src.stride (dst.strided.binding outObj)).run m) := by
  obtain ⟨hsize, hcount, hdst, hsrc⟩ := columnGather_spec hc outObj dst
  intro i hi j hj
  rw [← hcount] at hi
  have horigin := Gather.origin_unit hi (hsize ▸ hj)
  rw [hsrc i hi, hdst, hsize] at horigin
  have haddr : wordAddr objs outObj (dst.offset.toNat + i) + j =
      wordAddr objs outObj dst.offset.toNat + i * wordSize + j := by
    simp only [wordAddr, wordSize]
    omega
  rw [haddr, Gather.run_eq hs, horigin, Option.getD_some]

theorem outputOnly_run (m : Mem) :
    OutputOnly objs outObj src dst m ((columnGather objs inObj outObj (src.binding inObj)
      src.stride (dst.strided.binding outObj)).run m) := by
  obtain ⟨hsize, hcount, hdst, -⟩ := columnGather_spec hc outObj dst
  intro x hx
  apply Gather.after_of_not_writes le_rfl
  rintro ⟨hlo, hhi⟩
  rw [hdst] at hlo hhi
  rw [hsize, hcount] at hhi
  simp only [wordAddr, wordSize] at hx hlo hhi
  omega

end Copy

/-- What a call for one column touches: indices of `u32` that do not wrap, words of the two objects,
and two synchronizations, if anything is copied, of ranges inside them. -/
structure ColumnBounds (objs : ObjId → GemObject w) (mapped : ObjId → Bool) (z : ℕ)
    (inObj outObj : ObjId) (src : StridedSource) (dst : Source) : Prop where
  index : ∀ i < copied src dst, (BitVec.ofNat 32 i * src.stride).toNat = i * src.stride.toNat
  reads : ∀ x, (columnGather objs inObj outObj (src.binding inObj) src.stride
    (dst.strided.binding outObj)).Reads x → x ∈ (objs inObj).range
  writes : ∀ x, (columnGather objs inObj outObj (src.binding inObj) src.stride
    (dst.strided.binding outObj)).Writes x → x ∈ (objs outObj).range
  syncs : copied src dst ≠ 0 → ∃ inAddr inLen outAddr outLen,
    columnSyncs objs mapped z (src.binding inObj) src.stride (dst.strided.binding outObj) =
      some [(inAddr, inLen), (outAddr, outLen)] ∧
    inAddr.toNat = wordAddr objs inObj src.offset.toNat ∧
    inLen.toNat = ((copied src dst - 1) * src.stride.toNat + 1) * wordSize ∧
    inAddr.toNat + inLen.toNat ≤ (objs inObj).dmaAddr.toNat + (objs inObj).size.toNat ∧
    outAddr.toNat = wordAddr objs outObj dst.offset.toNat ∧
    outLen.toNat = copied src dst * wordSize ∧
    outAddr.toNat + outLen.toNat ≤ (objs outObj).dmaAddr.toNat + (objs outObj).size.toNat

/-- For every pair of accepted bindings on mapped objects, whatever they share, the call stays
inside the objects, changes the output words only, and copies the words of the input where none is
overwritten before it is read. -/
theorem strelaSimBypassColumn_spec {g g' h h' : Gem} {file file' : FileId} {inp out : Binding}
    (hw : 32 ≤ w) (hz : 32 ≤ z)
    (hin : strelaStridedBindingGet objs g file src = (.ok inp, g'))
    (hout : strelaBindingGet objs h file' dst = (.ok out, h'))
    (hpaged : ∀ o, inp.obj = some o ∨ out.obj = some o → (objs o).Paged)
    (hmapped : ∀ o, inp.obj = some o ∨ out.obj = some o → mapped o = true) (m : Mem) :
    ∃ inObj outObj m', inp = src.binding inObj ∧ out = dst.strided.binding outObj ∧
      strelaSimBypassColumn objs mapped inp src.stride out m =
        some (decide (dst.count ≤ src.count), m') ∧
      ColumnBounds objs mapped z inObj outObj src dst ∧
      OutputOnly objs outObj src dst m m' ∧
      (RangesApart objs inObj outObj src dst ∨
        wordAddr objs outObj dst.offset.toNat ≤ wordAddr objs inObj src.offset.toNat ∨
        src.stride = 0 → Copied objs inObj outObj src dst m m') := by
  obtain ⟨inObj, -, hc, rfl⟩ := strelaStridedBindingGet_ok hin
  obtain ⟨outObj, -, hd, rfl⟩ := strelaStridedBindingGet_ok hout
  have hpi := hpaged inObj (.inl rfl)
  have hpo := hpaged outObj (.inr rfl)
  have hmi := hmapped inObj (.inl rfl)
  have hmo := hmapped outObj (.inr rfl)
  have hrun : strelaSimBypassColumn objs mapped (src.binding inObj) src.stride
      (dst.strided.binding outObj) m = _ := strelaSimBypassColumn_eq rfl rfl src.stride
  rw [mappedGather_eq hmi hmo] at hrun
  refine ⟨inObj, outObj, _, rfl, rfl, hrun, ?_,
    outputOnly_run hc m, fun hcond => copied_of_settled hc ?_ m⟩
  · constructor
    · exact fun i hi => index_eq hc (lt_of_lt_of_le hi (min_le_left _ _))
    · exact fun x => reads_inside hc
    · exact fun x => writes_inside hc hd
    · exact columnSyncs_eq hc hd hw hz hpi hpo hmi hmo
  · by_cases hzero : src.stride = 0
    · exact settled_of_stride_zero hc hpi hpo hzero
    · rcases hcond with hapart | hle | hz'
      · exact settled_of_rangesApart hc hapart
      · exact settled_of_starts_before hc hzero hle
      · exact absurd hz' hzero

/-- Every other word of a buffer is moved to its front, over words that were read before. -/
theorem strelaSimBypassColumn_spec_spaced : ∃ m',
    strelaSimBypassColumn spacedObjs (fun _ => true) ⟨some 0, 0, 4⟩ 2 ⟨some 0, 0, 4⟩
      (fun x => UInt8.ofNat x) = some (true, m') ∧
    Copied spacedObjs 0 0 ⟨1, 0, 4, 2⟩ ⟨1, 0, 4⟩ (fun x => UInt8.ofNat x) m' := by
  have hin : strelaStridedBindingGet spacedObjs ⟨[((0, 1), 0)], [0], fun _ => 1, []⟩ 0
      ⟨1, 0, 4, 2⟩ = (.ok ⟨some 0, 0, 4⟩, _) := Prod.ext rfl rfl
  have hout : strelaBindingGet spacedObjs ⟨[((0, 1), 0)], [0], fun _ => 1, []⟩ 0
      ⟨1, 0, 4⟩ = (.ok ⟨some 0, 0, 4⟩, _) := Prod.ext rfl rfl
  have hpaged : (spacedObjs 0).Paged := ⟨by decide, by decide⟩
  have hmapped : ∀ o, (some 0 = some o ∨ some 0 = some o) → (fun _ : ObjId => true) o = true :=
    fun _ _ => rfl
  obtain ⟨inObj, outObj, m', hi, ho, hrun, -, -, hcopied⟩ :=
    strelaSimBypassColumn_spec (z := 32) le_rfl le_rfl hin hout (fun _ _ => hpaged) hmapped
      (fun x => UInt8.ofNat x)
  obtain rfl : 0 = inObj := Option.some.inj (Binding.mk.inj hi).1
  obtain rfl : 0 = outObj := Option.some.inj (Binding.mk.inj ho).1
  exact ⟨m', hrun, hcopied (.inr (.inl le_rfl))⟩

end Strela.Driver
