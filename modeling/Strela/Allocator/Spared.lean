import Strela.Allocator.Free

/-! # What the allocator reads and stores

Whatever a byte outside of the free blocks holds, an allocation does the same and
leaves that byte as it was; and so does a release, for a byte outside of the free
blocks and of the block that is released. A call that read the byte, or stored
anything there, would not.
-/

namespace Strela.Allocator

open Foundation Foundation.Unsigned

variable {A : Abi} {h : Heap} {x p q : ℕ} {pre post free bs : List Block} {live : List Alloc}
  {a : Alloc} {b : Block} {n size origSize al alignment : ℕ}

def Heap.setByte (h : Heap) (x : ℕ) (v : UInt8) : Heap := { h with mem := h.mem.storeByte x v }

def OffNode (A : Abi) (x p : ℕ) : Prop := x < p ∨ p + A.sizeofNode ≤ x

theorem OffNode.low (hx : OffNode A x p) : x < p ∨ p + A.ptrBytes ≤ x := by
  unfold OffNode Abi.sizeofNode at hx
  omega

theorem OffNode.high (hx : OffNode A x p) :
    x < p + A.ptrBytes ∨ p + A.ptrBytes + A.ptrBytes ≤ x := by
  unfold OffNode Abi.sizeofNode at hx
  omega

theorem OffNode.of_footprint (hr : Roomy A bs) (hx : x ∉ footprint bs) (hb : b ∈ bs) :
    OffNode A x b.start := by
  by_contra hn
  unfold OffNode at hn
  have h₁ := (hr b hb).2
  exact hx ⟨b, hb, by omega, by simp only [Block.stop]; omega⟩

/-! ## One node, one header -/

variable (v : UInt8)

theorem nodeNext_setByte (hx : OffNode A x p) :
    nodeNext A (h.setByte x v).mem p = nodeNext A h.mem p := Mem.load_storeByte hx.low v

theorem nodeBlockSize_setByte (hx : OffNode A x p) :
    nodeBlockSize A (h.setByte x v).mem p = nodeBlockSize A h.mem p :=
  Mem.load_storeByte hx.high v

theorem setNodeNext_setByte (hx : OffNode A x p) (u : ℕ) :
    (h.setByte x v).setNodeNext A p u = (h.setNodeNext A p u).setByte x v :=
  congrArg (Heap.mk · h.fl) (Mem.store_storeByte hx.low v)

theorem setNodeBlockSize_setByte (hx : OffNode A x p) (u : ℕ) :
    (h.setByte x v).setNodeBlockSize A p u = (h.setNodeBlockSize A p u).setByte x v :=
  congrArg (Heap.mk · h.fl) (Mem.store_storeByte hx.high v)

theorem setHeader_setByte (hx : x < p ∨ p + A.sizeofHeader ≤ x) (orig block pad : ℕ) :
    (h.setByte x v).setHeader A p orig block pad =
      (h.setHeader A p orig block pad).setByte x v := by
  have hsize : A.sizeofHeader = 3 * A.ptrBytes := rfl
  simp only [Heap.setHeader, Heap.setByte]
  rw [Mem.store_storeByte (by omega) v, Mem.store_storeByte (by omega) v,
    Mem.store_storeByte (by omega) v]

theorem setLink_setByte (hp : p ≠ 0 → OffNode A x p) (u : ℕ) :
    (h.setByte x v).setLink A p u = (h.setLink A p u).setByte x v := by
  unfold Heap.setLink
  split
  · rfl
  · exact setNodeNext_setByte v (hp ‹_›) u

/-! ## Editing the list -/

theorem freeListNodeInsert_setByte (hp : p ≠ 0 → OffNode A x p) (hq : OffNode A x q) :
    freeListNodeInsert A (h.setByte x v) p q = (freeListNodeInsert A h p q).setByte x v := by
  unfold freeListNodeInsert
  by_cases hz : p = 0
  · rw [if_pos hz, if_pos hz, setNodeNext_setByte v hq]
    rfl
  · simp only [if_neg hz, nodeNext_setByte v (hp hz)]
    split
    · rw [setNodeNext_setByte v (hp hz), setNodeNext_setByte v hq]
    · rw [setNodeNext_setByte v hq, setNodeNext_setByte v (hp hz)]

theorem freeListNodeRemove_setByte (hp : p ≠ 0 → OffNode A x p) (hq : OffNode A x q) :
    freeListNodeRemove A (h.setByte x v) p q = (freeListNodeRemove A h p q).setByte x v := by
  unfold freeListNodeRemove
  rw [nodeNext_setByte v hq]
  exact setLink_setByte v hp _

theorem join_setByte (hp : OffNode A x p) (hq : OffNode A x q) (u : ℕ) :
    freeListNodeRemove A ((h.setByte x v).setNodeBlockSize A p u) p q =
      (freeListNodeRemove A (h.setNodeBlockSize A p u) p q).setByte x v := by
  rw [setNodeBlockSize_setByte v hp, freeListNodeRemove_setByte v (fun _ => hp) hq]

theorem coalesceNext_setByte (hp : OffNode A x p)
    (hn : nodeNext A h.mem p ≠ 0 → OffNode A x (nodeNext A h.mem p)) :
    coalesceNext A (h.setByte x v) p = (coalesceNext A h p).setByte x v := by
  unfold coalesceNext
  simp only [nodeNext_setByte v hp, nodeBlockSize_setByte v hp, nodeNext_setNodeBlockSize]
  split
  · rename_i hc
    rw [nodeBlockSize_setByte v (hn hc.1), join_setByte v hp (hn hc.1)]
  · rfl

theorem coalescePrev_setByte (hp : p ≠ 0 → OffNode A x p) (hq : OffNode A x q) :
    coalescePrev A (h.setByte x v) p q = (coalescePrev A h p q).setByte x v := by
  unfold coalescePrev
  by_cases hz : p = 0
  · rw [if_neg (by simp [hz]), if_neg (by simp [hz])]
  · simp only [nodeBlockSize_setByte v (hp hz), nodeBlockSize_setByte v hq]
    split
    · exact join_setByte v (hp hz) hq _
    · rfl

/-! ## The loops -/

theorem freeListFindFirstLoop_setByte (fuel prev pad : ℕ) (hc : Chain A h.mem p bs 0)
    (hx : ∀ b ∈ bs, OffNode A x b.start) :
    freeListFindFirstLoop A (h.setByte x v).mem size al fuel p prev pad =
      freeListFindFirstLoop A h.mem size al fuel p prev pad := by
  induction bs generalizing p fuel prev pad with
  | nil =>
    obtain rfl : p = 0 := hc
    cases fuel <;> rfl
  | cons b bs ih =>
    obtain ⟨rfl, -, ht⟩ := hc
    cases fuel with
    | zero => rfl
    | succ fuel =>
      have hb := hx b List.mem_cons_self
      simp only [freeListFindFirstLoop, nodeNext_setByte v hb, nodeBlockSize_setByte v hb,
        ih fuel _ _ ht fun c hm => hx c (List.mem_cons_of_mem _ hm)]

theorem freeListFindBestLoop_setByte (fuel prev : ℕ) (best : Best) (hc : Chain A h.mem p bs 0)
    (hx : ∀ b ∈ bs, OffNode A x b.start) :
    freeListFindBestLoop A (h.setByte x v).mem size al fuel p prev best =
      freeListFindBestLoop A h.mem size al fuel p prev best := by
  induction bs generalizing p fuel prev best with
  | nil =>
    obtain rfl : p = 0 := hc
    cases fuel <;> rfl
  | cons b bs ih =>
    obtain ⟨rfl, -, ht⟩ := hc
    cases fuel with
    | zero => rfl
    | succ fuel =>
      have hb := hx b List.mem_cons_self
      simp only [freeListFindBestLoop, nodeNext_setByte v hb, nodeBlockSize_setByte v hb,
        ih fuel _ _ ht fun c hm => hx c (List.mem_cons_of_mem _ hm)]

theorem freeListFind_setByte (hc : Chain A h.mem h.fl.head bs 0)
    (hx : ∀ b ∈ bs, OffNode A x b.start) :
    freeListFind A (h.setByte x v) size al = freeListFind A h size al := by
  unfold freeListFind
  cases hpol : h.fl.policy with
  | findFirst =>
    have hpol' : (h.setByte x v).fl.policy = .findFirst := hpol
    simp only [hpol', freeListFindFirst]
    exact freeListFindFirstLoop_setByte v (h.fl.size + 1) 0 0 hc hx
  | findBest =>
    have hpol' : (h.setByte x v).fl.policy = .findBest := hpol
    simp only [hpol', freeListFindBest]
    exact congrArg (· >>= _) (freeListFindBestLoop_setByte v (h.fl.size + 1) 0 _ hc hx)

theorem freeListFreeLoop_setByte (fuel prev : ℕ) (hc : Chain A h.mem p bs 0)
    (hx : ∀ b ∈ bs, OffNode A x b.start) (hprev : prev ≠ 0 → OffNode A x prev)
    (hq : OffNode A x q) :
    freeListFreeLoop A q fuel (h.setByte x v) p prev =
      (freeListFreeLoop A q fuel h p prev).map fun r => (r.1.setByte x v, r.2) := by
  induction bs generalizing p fuel prev with
  | nil =>
    obtain rfl : p = 0 := hc
    cases fuel <;> rfl
  | cons b bs ih =>
    obtain ⟨rfl, -, ht⟩ := hc
    cases fuel with
    | zero => rfl
    | succ fuel =>
      have hb := hx b List.mem_cons_self
      simp only [freeListFreeLoop, nodeNext_setByte v hb, freeListNodeInsert_setByte v hprev hq,
        ih fuel b.start ht (fun c hm => hx c (List.mem_cons_of_mem _ hm)) fun _ => hb]
      split
      · rfl
      split
      · rfl
      · rfl

/-! ## Allocation -/

theorem carve_setByte (hp : OffNode A x b.start)
    (hn : A.sizeofNode + A.sizeofNode ≤ b.size - n → OffNode A x (b.start + n)) :
    carve A (h.setByte x v) b n = (carve A h b n).setByte x v := by
  unfold carve
  split
  · rename_i hs
    rw [setNodeBlockSize_setByte v (hn hs), freeListNodeInsert_setByte v (fun _ => hp) (hn hs)]
  · rfl

theorem lastStart_off (hx : ∀ c ∈ pre, OffNode A x c.start) (hz : lastStart 0 pre ≠ 0) :
    OffNode A x (lastStart 0 pre) := by
  rcases List.eq_nil_or_concat pre with rfl | ⟨pre, c, rfl⟩
  · exact absurd rfl hz
  · rw [List.concat_eq_append] at hx ⊢
    rw [lastStart_concat]
    exact hx c (by simp)

theorem freeListPlace_setByte (R : Represents A h (pre ++ b :: post) live)
    (q : Rounded A origSize alignment size al) (hfit : Fits A size al b)
    (hx : x ∉ footprint (pre ++ b :: post)) :
    freeListPlace A (h.setByte x v) b.start (padding A al b) (lastStart 0 pre) size origSize =
      ((freeListPlace A h b.start (padding A al b) (lastStart 0 pre) size origSize).1.setByte x v,
        (freeListPlace A h b.start (padding A al b) (lastStart 0 pre) size origSize).2) := by
  have hbm : b ∈ pre ++ b :: post := by simp
  have hoff : ∀ c ∈ pre ++ b :: post, OffNode A x c.start := fun c hc =>
    .of_footprint R.roomy hx hc
  have hb := hoff b hbm
  have hout : x ∉ b := fun hm => hx ⟨b, hbm, hm⟩
  have hsz : nodeBlockSize A h.mem b.start = b.size := by
    obtain ⟨_, -, rfl, hsz, -⟩ := chain_append.mp R.chain
    exact hsz
  have hsz' : nodeBlockSize A (h.setByte x v).mem b.start = b.size := by
    rw [nodeBlockSize_setByte v hb, hsz]
  have hM : b.stop ≤ A.modulus := (R.free_inside hbm).2.trans R.bound
  have hpos := A.sizeofNode_pos
  have hpad : A.sizeofHeader ≤ padding A al b := le_leastPadding ..
  have hnode := q.node
  have hsize : size + padding A al b ≤ b.size := hfit
  have hstart := Nat.pos_of_ne_zero (R.roomy b hbm).1
  simp only [Block.mem_def, Block.stop] at hout
  -- The remainder's node and the header lie in the block.
  have hrest : A.sizeofNode + A.sizeofNode ≤ b.size - (size + padding A al b) →
      OffNode A x (b.start + (size + padding A al b)) := fun _ => by
    unfold OffNode
    omega
  have hheader : x < b.start + (padding A al b - A.sizeofHeader) ∨
      b.start + (padding A al b - A.sizeofHeader) + A.sizeofHeader ≤ x := by omega
  have hlast : lastStart 0 pre ≠ 0 → OffNode A x (lastStart 0 pre) :=
    lastStart_off fun c hc => hoff c (List.mem_append_left _ hc)
  simp only [freeListPlace_eq _ _ hsz' hsize hpad hstart hM (by omega),
    freeListPlace_eq _ _ hsz hsize hpad hstart hM (by omega), carve_setByte v hb hrest,
    nodeNext_setByte v hb, setLink_setByte v hlast, setHeader_setByte v hheader]
  rfl

/-- An allocation reads and stores in free blocks only. -/
theorem freeListAlloc_setByte (R : Represents A h free live) (q : Request A size alignment)
    (hw : NoWrap A (roundedSize A size alignment) (roundedAlignment A alignment) free)
    (hx : x ∉ footprint free) :
    freeListAlloc A (h.setByte x v) size alignment =
      (freeListAlloc A h size alignment).map fun r => (r.1.setByte x v, r.2) := by
  rw [freeListAlloc_eq _ q, freeListAlloc_eq _ q,
    freeListFind_setByte v R.chain fun c hc => .of_footprint R.roomy hx hc]
  obtain ⟨r, hr, hf⟩ := freeListFind_found R q.rounded hw
  rw [hr, Option.bind_some, Option.bind_some]
  rcases hf with ⟨-, hz⟩ | ⟨pre, b, post, rfl, hfit, rfl⟩
  · rw [if_pos hz, if_pos hz]
    rfl
  · have hb := (R.roomy b (by simp)).1
    rw [if_neg hb, if_neg hb, freeListPlace_setByte v R q.rounded hfit hx]
    rfl

/-! ## Release -/

theorem Chain.next_off (hc : Chain A h.mem p (pre ++ b :: post) 0)
    (hx : ∀ c ∈ post, OffNode A x c.start) (hz : nodeNext A h.mem b.start ≠ 0) :
    OffNode A x (nodeNext A h.mem b.start) := by
  obtain ⟨_, -, rfl, -, ht⟩ := chain_append.mp hc
  cases post with
  | nil => exact absurd ht hz
  | cons c post => exact ht.1 ▸ hx c List.mem_cons_self

theorem freedNode_setByte (hb : OffNode A x b.start) :
    freedNode A (h.setByte x v) b = (freedNode A h b).setByte x v := by
  rw [freedNode, setNodeBlockSize_setByte v hb, setNodeNext_setByte v hb]
  rfl

/-- A release reads and stores in free blocks and in the released block only. -/
theorem freeListFree_setByte (R : Represents A h free live) (ha : a ∈ live)
    (hx : x ∉ footprint (a.block A :: free)) :
    freeListFree A (h.setByte x v) a.ptr =
      (freeListFree A h a.ptr).map fun h' => h'.setByte x v := by
  have hw := R.placed a ha
  have hfree : x ∉ footprint free := fun ⟨c, hc, hm⟩ => hx ⟨c, List.mem_cons_of_mem _ hc, hm⟩
  have hout : x ∉ a.block A := fun hm => hx ⟨_, List.mem_cons_self, hm⟩
  have hoff : ∀ c ∈ free, OffNode A x c.start := fun c hc => .of_footprint R.roomy hfree hc
  have hb : OffNode A x (a.block A).start := by
    have hroom : A.sizeofNode ≤ (a.block A).size := hw.room
    simp only [Block.mem_def, Block.stop] at hout
    unfold OffNode
    omega
  have hd : HeaderAt A (h.setByte x v).mem a := by
    refine (R.headers a ha).eqOff (S := {x}) (fun y hy => if_neg hy) fun y hl hu he => ?_
    exact hout (Set.mem_singleton_iff.mp he ▸ hw.header_inside hl hu)
  have hchain := R.chain_freedNode ha
  obtain ⟨pre, post, r, rfl, hpre, hpost, hloop, hprev, hins⟩ := freeListFreeLoop_spec
    (a.block A).start R.roomy (h.fl.size + 1) 0 (by have := R.length_le; omega) hchain
  have hlast : lastStart 0 pre ≠ 0 → OffNode A x (lastStart 0 pre) :=
    lastStart_off fun c hc => hoff c (List.mem_append_left _ hc)
  have hloop' : freeListFreeLoop A (a.block A).start ((h.setByte x v).fl.size + 1)
      (freedNode A (h.setByte x v) (a.block A)) (h.setByte x v).fl.head 0 =
        some (r.1.setByte x v, r.2) := by
    rw [freedNode_setByte v hb]
    exact (freeListFreeLoop_setByte v (h.fl.size + 1) 0 hchain hoff (absurd rfl) hb).trans
      (congrArg (Option.map _) hloop)
  have hins' : (if r.2.1 = 0 then freeListNodeInsert A (r.1.setByte x v) r.2.2 (a.block A).start
      else r.1.setByte x v) =
      (freeListNodeInsert A (freedNode A h (a.block A)) (lastStart 0 pre)
        (a.block A).start).setByte x v := by
    rw [hprev] at hins ⊢
    rw [freeListNodeInsert_setByte v hlast hb, ← hins]
    split <;> rfl
  -- After the insertion the node that follows is off the byte too.
  obtain ⟨-, -, -, -, hH⟩ := inserted_spec R ha (ordered_insert R ha hpre hpost)
  have hnext := hH.chain.next_off fun c hc => hoff c (List.mem_append_right _ hc)
  rw [freeListFree_eq hw hd hloop', freeListFree_eq hw (R.headers a ha) hloop]
  rw [hprev] at hins hins' ⊢
  simp only [hins, hins', nodeBlockSize_setByte v hb, Option.map_some, Option.some.injEq]
  exact (congrArg (coalescePrev A · _ _) (coalesceNext_setByte v hb hnext)).trans
    (coalescePrev_setByte v hlast hb)

theorem freeListFreeAll_setByte (hx : OffNode A x h.fl.data) :
    freeListFreeAll A (h.setByte x v) = (freeListFreeAll A h).setByte x v := by
  have h₁ := setNodeBlockSize_setByte (h := { h with fl := { h.fl with used := 0 } }) v hx h.fl.size
  have h₂ := setNodeNext_setByte (h := ({ h with fl := { h.fl with used := 0 } } :
    Heap).setNodeBlockSize A h.fl.data h.fl.size) v hx 0
  exact congrArg (Heap.setHead · h.fl.data)
    ((congrArg (Heap.setNodeNext A · h.fl.data 0) h₁).trans h₂)

end Strela.Allocator
