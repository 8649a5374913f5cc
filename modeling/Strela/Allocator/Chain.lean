import Strela.Allocator.FreeList
import Strela.Foundation.Blocks

/-! # Lists of nodes in memory

`Chain` reads the list threaded through memory as a list of blocks. Writes away
from its nodes keep it, and changing the link that leads out of its last node
redirects it. The searches are specified by the list they walk.
-/

namespace Strela.Allocator

open Foundation Foundation.Unsigned

variable (A : Abi)

/-- From `p`, memory holds a node for each block in turn, and the last one's link is `q`. -/
def Chain (m : Mem) : ℕ → List Block → ℕ → Prop
  | p, [], q => p = q
  | p, b :: bs, q =>
    p = b.start ∧ nodeBlockSize A m p = b.size ∧ Chain m (nodeNext A m p) bs q

/-- The start of the last block, or `d` if there is none. -/
def lastStart (d : ℕ) : List Block → ℕ
  | [] => d
  | b :: bs => lastStart b.start bs

def chainBlocks (m : Mem) : ℕ → ℕ → List Block
  | 0, _ => []
  | fuel + 1, p =>
    if p = 0 then [] else ⟨p, nodeBlockSize A m p⟩ :: chainBlocks m fuel (nodeNext A m p)

/-- The free blocks, as `fl->head` lists them. -/
def freeBlocks (h : Heap) : List Block := chainBlocks A h.mem (h.fl.size + 1) h.fl.head

/-- Every block has room for a node and none starts at the null address. -/
def Roomy (bs : List Block) : Prop := ∀ b ∈ bs, b.start ≠ 0 ∧ A.sizeofNode ≤ b.size

variable {A} {m m' : Mem} {S : Set ℕ} {p q r d v : ℕ} {bs cs : List Block} {b c : Block} {h : Heap}

theorem Roomy.of_cons (h : Roomy A (b :: bs)) : Roomy A bs :=
  fun c hc => h c (List.mem_cons_of_mem _ hc)

@[simp] theorem lastStart_concat (d : ℕ) (bs : List Block) (b : Block) :
    lastStart d (bs ++ [b]) = b.start := by
  induction bs generalizing d with
  | nil => rfl
  | cons c bs ih => exact ih c.start

theorem chain_append : Chain A m p (bs ++ cs) q ↔ ∃ r, Chain A m p bs r ∧ Chain A m r cs q := by
  induction bs generalizing p with
  | nil => simp [Chain]
  | cons b bs ih =>
    simp only [List.cons_append, Chain, ih]
    constructor
    · rintro ⟨hp, hs, r, h₁, h₂⟩
      exact ⟨r, ⟨hp, hs, h₁⟩, h₂⟩
    · rintro ⟨r, ⟨hp, hs, h₁⟩, h₂⟩
      exact ⟨hp, hs, r, h₁, h₂⟩

theorem Chain.unique (hb : Chain A m p bs 0) (hc : Chain A m p cs 0)
    (hbz : ∀ b ∈ bs, b.start ≠ 0) (hcz : ∀ c ∈ cs, c.start ≠ 0) : bs = cs := by
  induction bs generalizing p cs with
  | nil =>
    cases cs with
    | nil => rfl
    | cons c cs => exact absurd (hc.1.symm.trans hb) (hcz c List.mem_cons_self)
  | cons b bs ih =>
    cases cs with
    | nil => exact absurd (hb.1.symm.trans hc) (hbz b List.mem_cons_self)
    | cons c cs =>
      have hstart : b.start = c.start := hb.1.symm.trans hc.1
      have hsize : b.size = c.size := hb.2.1.symm.trans hc.2.1
      have hrest : bs = cs := ih hb.2.2 hc.2.2 (fun d hd => hbz d (List.mem_cons_of_mem _ hd))
        fun d hd => hcz d (List.mem_cons_of_mem _ hd)
      obtain ⟨start, size⟩ := b
      obtain rfl : start = c.start := hstart
      obtain rfl : size = c.size := hsize
      rw [hrest]

/-- A node of a list to null is its head exactly if no node is before it. -/
theorem Chain.lastStart_eq_zero_iff (hc : Chain A m p (bs ++ b :: cs) 0)
    (hz : ∀ c ∈ bs ++ b :: cs, c.start ≠ 0) : lastStart 0 bs = 0 ↔ b.start = p := by
  constructor
  · intro hl
    rcases List.eq_nil_or_concat bs with rfl | ⟨bs, c, rfl⟩
    · exact hc.1.symm
    · rw [List.concat_eq_append, lastStart_concat] at hl
      exact absurd hl (hz c (by simp))
  · -- From the same address both lists lead to null, so nothing is before the node.
    rintro rfl
    obtain ⟨r, -, hr⟩ := chain_append.mp hc
    obtain rfl := hr.1
    have he := hc.unique hr hz fun c hm => hz c (List.mem_append_right _ hm)
    have hnil : bs = [] := by simpa using he
    rw [hnil]
    rfl

theorem Chain.congr (h : Chain A m p bs q)
    (hn : ∀ b ∈ bs, nodeNext A m' b.start = nodeNext A m b.start)
    (hb : ∀ b ∈ bs, nodeBlockSize A m' b.start = nodeBlockSize A m b.start) :
    Chain A m' p bs q := by
  induction bs generalizing p with
  | nil => exact h
  | cons b bs ih =>
    obtain ⟨rfl, hs, ht⟩ := h
    refine ⟨rfl, (hb b List.mem_cons_self).trans hs, ?_⟩
    rw [hn b List.mem_cons_self]
    exact ih ht (fun c hc => hn c (List.mem_cons_of_mem _ hc))
      (fun c hc => hb c (List.mem_cons_of_mem _ hc))

theorem nodeNext_eqOff (h : m.EqOff S m') (hd : ∀ x ∈ S, x < p ∨ p + A.sizeofNode ≤ x) :
    nodeNext A m' p = nodeNext A m p :=
  h.load_eq fun x hl hu hx => by
    have := hd x hx
    unfold Abi.sizeofNode at this
    omega

theorem nodeBlockSize_eqOff (h : m.EqOff S m') (hd : ∀ x ∈ S, x < p ∨ p + A.sizeofNode ≤ x) :
    nodeBlockSize A m' p = nodeBlockSize A m p :=
  h.load_eq fun x hl hu hx => by
    have := hd x hx
    unfold Abi.sizeofNode at this
    omega

theorem Chain.eqOff (h : Chain A m p bs q) (he : m.EqOff S m')
    (hd : ∀ b ∈ bs, ∀ x ∈ S, x < b.start ∨ b.start + A.sizeofNode ≤ x) : Chain A m' p bs q :=
  h.congr (fun b hb => nodeNext_eqOff he (hd b hb)) (fun b hb => nodeBlockSize_eqOff he (hd b hb))

theorem Chain.eqOff_above (h : Chain A m p bs q) (he : m.EqOff S m') (hr : Roomy A bs)
    (hS : ∀ x ∈ S, d ≤ x) (hb : ∀ b ∈ bs, b.stop ≤ d) : Chain A m' p bs q := by
  apply h.eqOff he
  intro b hm x hx
  have h₁ := hS x hx
  have h₂ := hb b hm
  have h₃ := (hr b hm).2
  simp only [Block.stop] at h₂
  omega

theorem Chain.eqOff_below (h : Chain A m p bs q) (he : m.EqOff S m') (hS : ∀ x ∈ S, x < d)
    (hb : ∀ b ∈ bs, d ≤ b.start) : Chain A m' p bs q :=
  h.eqOff he fun b hm x hx => .inl ((hS x hx).trans_le (hb b hm))

theorem Chain.chainBlocks_eq (h : Chain A m p bs 0) (hr : Roomy A bs) {fuel : ℕ}
    (hf : bs.length < fuel) : chainBlocks A m fuel p = bs := by
  induction bs generalizing p fuel with
  | nil =>
    obtain ⟨fuel, rfl⟩ := Nat.exists_eq_succ_of_ne_zero (by omega : fuel ≠ 0)
    simp [Chain] at h
    simp [chainBlocks, h]
  | cons b bs ih =>
    obtain ⟨fuel, rfl⟩ := Nat.exists_eq_succ_of_ne_zero (by omega : fuel ≠ 0)
    obtain ⟨rfl, hs, ht⟩ := h
    have hne := (hr b List.mem_cons_self).1
    simp only [List.length_cons] at hf
    rw [chainBlocks, if_neg hne, hs, ih ht hr.of_cons (by omega)]

/-! ## Links -/

/-- Redirect the link out of `prevNode`, which is the head when there is no such node. -/
def Heap.setLink (A : Abi) (h : Heap) (prevNode v : ℕ) : Heap :=
  if prevNode = 0 then h.setHead v else h.setNodeNext A prevNode v

def Heap.link (A : Abi) (h : Heap) (prevNode : ℕ) : ℕ :=
  if prevNode = 0 then h.fl.head else nodeNext A h.mem prevNode

/-- Everything of the `Free_List` but the head of its list. -/
def SameRegion (fl fl' : FreeList) : Prop :=
  fl'.data = fl.data ∧ fl'.size = fl.size ∧ fl'.used = fl.used ∧ fl'.policy = fl.policy

theorem sameRegion_setLink (h : Heap) (p v : ℕ) : SameRegion h.fl (h.setLink A p v).fl := by
  unfold Heap.setLink
  split <;> exact ⟨rfl, rfl, rfl, rfl⟩

/-- Inserting is one rule in all three branches: link the node on, then link to it. -/
theorem freeListNodeInsert_eq (hn : p ≠ 0 → p + A.ptrBytes ≤ q ∨ q + A.ptrBytes ≤ p) :
    freeListNodeInsert A h p q = (h.setNodeNext A q (h.link A p)).setLink A p q := by
  unfold freeListNodeInsert Heap.setLink Heap.link
  by_cases hp : p = 0
  · simp [hp]
  · simp only [hp, if_false]
    split
    · rename_i hz
      simp only [Heap.setNodeNext, hz]
      rw [Mem.store_comm (hn hp)]
    · rfl

theorem nodeNext_lt (m : Mem) (p : ℕ) : nodeNext A m p < A.modulus := Mem.load_lt ..

theorem nodeNext_setNodeNext (hv : v < A.modulus) : nodeNext A (h.setNodeNext A p v).mem p = v :=
  Mem.load_store_self hv

theorem nodeBlockSize_setNodeNext : nodeBlockSize A (h.setNodeNext A p v).mem p =
    nodeBlockSize A h.mem p :=
  Mem.load_store_of_disjoint (by omega)

theorem nodeBlockSize_setNodeBlockSize (hv : v < A.modulus) :
    nodeBlockSize A (h.setNodeBlockSize A p v).mem p = v :=
  Mem.load_store_self hv

theorem nodeNext_setNodeBlockSize : nodeNext A (h.setNodeBlockSize A p v).mem p =
    nodeNext A h.mem p :=
  Mem.load_store_of_disjoint (by omega)

theorem eqOff_setNodeNext (hS : ∀ x, p ≤ x → x < p + A.sizeofNode → x ∈ S) :
    h.mem.EqOff S (h.setNodeNext A p v).mem :=
  .store fun x hl hu => hS x hl (by unfold Abi.sizeofNode; omega)

theorem eqOff_setNodeBlockSize (hS : ∀ x, p ≤ x → x < p + A.sizeofNode → x ∈ S) :
    h.mem.EqOff S (h.setNodeBlockSize A p v).mem :=
  .store fun x hl hu => hS x (by omega) (by unfold Abi.sizeofNode; omega)

theorem eqOff_setNode (h : Heap) (p n v : ℕ) : h.mem.EqOff (Set.Ico p (p + A.sizeofNode))
    ((h.setNodeBlockSize A p n).setNodeNext A p v).mem := by
  have hin (x : ℕ) (hl : p ≤ x) (hu : x < p + A.sizeofNode) :
      x ∈ Set.Ico p (p + A.sizeofNode) := ⟨hl, hu⟩
  exact (eqOff_setNodeBlockSize hin).trans (eqOff_setNodeNext hin)

theorem eqOff_setLink (hr : Roomy A bs) :
    h.mem.EqOff (footprint bs) (h.setLink A (lastStart 0 bs) v).mem := by
  rcases List.eq_nil_or_concat bs with rfl | ⟨bs, b, rfl⟩
  · exact .refl _ _
  · rw [List.concat_eq_append] at *
    have hb := hr b (by simp)
    rw [lastStart_concat, Heap.setLink, if_neg hb.1]
    exact eqOff_setNodeNext fun x hl hu =>
      ⟨b, by simp, hl, by simp only [Block.stop]; omega⟩

theorem lastStart_apart (hr : Roomy A bs) (hb : ∀ b ∈ bs, b.stop ≤ q) (hne : lastStart 0 bs ≠ 0) :
    lastStart 0 bs + A.ptrBytes ≤ q ∨ q + A.ptrBytes ≤ lastStart 0 bs := by
  rcases List.eq_nil_or_concat bs with rfl | ⟨bs, b, rfl⟩
  · exact absurd rfl hne
  · rw [List.concat_eq_append] at *
    have h₁ := hb b (by simp)
    have h₂ := (hr b (by simp)).2
    simp only [Block.stop, Abi.sizeofNode] at h₁ h₂
    rw [lastStart_concat]
    omega

theorem Chain.setLink (hc : Chain A h.mem h.fl.head bs q) (hr : Roomy A bs) (ho : Ordered bs)
    (hv : v < A.modulus) :
    Chain A (h.setLink A (lastStart 0 bs) v).mem (h.setLink A (lastStart 0 bs) v).fl.head bs v := by
  rcases List.eq_nil_or_concat bs with rfl | ⟨bs, b, rfl⟩
  · simp [Heap.setLink, lastStart, Chain, Heap.setHead]
  · rw [List.concat_eq_append] at *
    have hb := hr b (by simp)
    obtain ⟨r, h₁, rfl, hsz, -⟩ := chain_append.mp hc
    rw [lastStart_concat, Heap.setLink, if_neg hb.1]
    refine chain_append.mpr ⟨b.start, ?_, rfl, ?_, ?_⟩
    · have hoff : h.mem.EqOff (Set.Ico b.start (b.start + A.sizeofNode))
          (h.setNodeNext A b.start v).mem := eqOff_setNodeNext fun x hl hu => ⟨hl, hu⟩
      exact h₁.eqOff_above hoff (fun c hc => hr c (List.mem_append_left _ hc)) (fun x hx => hx.1)
        fun c hc => (List.pairwise_append.mp ho).2.2 c hc b (by simp)
    · rw [nodeBlockSize_setNodeNext, hsz]
    · exact nodeNext_setNodeNext hv

theorem Chain.link_eq (hc : Chain A h.mem h.fl.head bs q) (hr : Roomy A bs) :
    h.link A (lastStart 0 bs) = q := by
  rcases List.eq_nil_or_concat bs with rfl | ⟨bs, b, rfl⟩
  · simpa [Heap.link, lastStart, Chain] using hc
  · rw [List.concat_eq_append] at *
    obtain ⟨r, -, rfl, -, hq⟩ := chain_append.mp hc
    rw [lastStart_concat, Heap.link, if_neg (hr b (by simp)).1]
    exact hq

end Strela.Allocator
