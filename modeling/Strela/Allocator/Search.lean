import Strela.Allocator.Chain

/-! # The two searches

Walking a list of free blocks, first fit returns the first block with room for
the request and best fit the first one among those that leave the smallest
remainder, each with its padding and its predecessor. Both return the null node
exactly when no block has room.
-/

namespace Strela.Allocator

open Foundation Foundation.Unsigned

variable (A : Abi)

/-- The padding a block needs before a payload of the given alignment. -/
def padding (alignment : ℕ) (b : Block) : ℕ := leastPadding b.start alignment A.sizeofHeader

/-- The block has room for the padding and the size. -/
def Fits (size alignment : ℕ) (b : Block) : Prop := size + padding A alignment b ≤ b.size

def remainder (size alignment : ℕ) (b : Block) : ℕ := b.size - (size + padding A alignment b)

/-- Adding the padding of any block to the size does not wrap. -/
def NoWrap (size alignment : ℕ) (bs : List Block) : Prop :=
  ∀ b ∈ bs, size + padding A alignment b < A.modulus

variable {A} {m : Mem} {size a : ℕ} {bs : List Block}

instance (b : Block) : Decidable (Fits A size a b) := inferInstanceAs (Decidable (_ ≤ _))

instance : Decidable (NoWrap A size a bs) := inferInstanceAs (Decidable (∀ b ∈ bs, _))

theorem NoWrap.of_cons {b : Block} (h : NoWrap A size a (b :: bs)) : NoWrap A size a bs :=
  fun c hc => h c (List.mem_cons_of_mem _ hc)

theorem calcPadding_block (ha : IsPow2 a) (hlt : a < A.modulus) {b : Block}
    (h : size + padding A a b < A.modulus) :
    calcPaddingWithHeader A b.start a A.sizeofHeader = some (padding A a b) :=
  calcPaddingWithHeader_eq ha hlt Abi.sizeofHeader_lt_modulus (by unfold padding at h; omega)

/-- What first fit finds in a list whose blocks it visits after `prev`. -/
def FirstFit (A : Abi) (size a prev : ℕ) (bs : List Block) (r : ℕ × ℕ × ℕ) : Prop :=
  ((∀ b ∈ bs, ¬ Fits A size a b) ∧ r.1 = 0) ∨
  ∃ pre b post, bs = pre ++ b :: post ∧ (∀ c ∈ pre, ¬ Fits A size a c) ∧ Fits A size a b ∧
    r = (b.start, padding A a b, lastStart prev pre)

theorem FirstFit.cons {prev : ℕ} {b : Block} {r : ℕ × ℕ × ℕ} (hb : ¬ Fits A size a b)
    (h : FirstFit A size a b.start bs r) : FirstFit A size a prev (b :: bs) r := by
  rcases h with ⟨hn, hz⟩ | ⟨pre, c, post, rfl, hn, hc, hr⟩
  · exact .inl ⟨by simpa using ⟨hb, hn⟩, hz⟩
  · exact .inr ⟨b :: pre, c, post, rfl, by simpa using ⟨hb, hn⟩, hc, hr⟩

/-- The candidate of best fit after a block whose node comes after `prev`. -/
def considered (A : Abi) (size a : ℕ) (b : Block) (prev : ℕ) (best : Best) : Best :=
  if Fits A size a b ∧ remainder A size a b < best.smallestDiff then
    ⟨remainder A size a b, b.start, padding A a b, prev⟩
  else best

section Round

variable {b : Block} (ha : IsPow2 a) (hlt : a < A.modulus) (hz : b.start ≠ 0)
  (hw : size + padding A a b < A.modulus) (hsz : nodeBlockSize A m b.start = b.size)

include ha hlt hz hw hsz

theorem freeListFindFirstLoop_node (fuel prev pad : ℕ) :
    freeListFindFirstLoop A m size a (fuel + 1) b.start prev pad =
      if Fits A size a b then some (b.start, padding A a b, prev)
      else freeListFindFirstLoop A m size a fuel (nodeNext A m b.start) b.start
        (padding A a b) := by
  rw [freeListFindFirstLoop, if_neg hz, calcPadding_block ha hlt hw]
  simp only [Option.bind_eq_bind, Option.bind_some, Abi.add_of_lt hw, hsz]
  rfl

theorem freeListFindBestLoop_node (fuel prev : ℕ) (best : Best) :
    freeListFindBestLoop A m size a (fuel + 1) b.start prev best =
      freeListFindBestLoop A m size a fuel (nodeNext A m b.start) b.start
        (considered A size a b prev best) := by
  rw [freeListFindBestLoop, if_neg hz, calcPadding_block ha hlt hw]
  simp only [Option.bind_eq_bind, Option.bind_some, Abi.add_of_lt hw, hsz]
  by_cases hfit : Fits A size a b
  · have hsub : A.sub b.size (size + padding A a b) = remainder A size a b :=
      Abi.sub_of_le hfit (hsz ▸ Mem.load_lt ..)
    rw [hsub]
    rfl
  · rw [considered, if_neg fun h => hfit h.1, if_neg fun h => hfit h.1]

end Round

theorem freeListFindFirstLoop_spec (ha : IsPow2 a) (hlt : a < A.modulus)
    (hz : ∀ b ∈ bs, b.start ≠ 0) (hw : NoWrap A size a bs) (prev pad : ℕ) {node : ℕ}
    (hc : Chain A m node bs 0) :
    ∃ r, FirstFit A size a prev bs r ∧ ∀ fuel, bs.length < fuel →
      freeListFindFirstLoop A m size a fuel node prev pad = some r := by
  induction bs generalizing node prev pad with
  | nil =>
    simp only [Chain] at hc
    subst hc
    refine ⟨(0, pad, prev), .inl ⟨by simp, rfl⟩, fun fuel hf => ?_⟩
    obtain ⟨fuel, rfl⟩ := Nat.exists_eq_succ_of_ne_zero hf.ne'
    simp [freeListFindFirstLoop]
  | cons b bs ih =>
    obtain ⟨rfl, hsz, ht⟩ := hc
    have hround := freeListFindFirstLoop_node ha hlt (hz b List.mem_cons_self)
      (hw b List.mem_cons_self) hsz
    by_cases hfit : Fits A size a b
    · refine ⟨_, .inr ⟨[], b, bs, rfl, by simp, hfit, rfl⟩, fun fuel hf => ?_⟩
      obtain ⟨fuel, rfl⟩ := Nat.exists_eq_succ_of_ne_zero (by omega : fuel ≠ 0)
      rw [hround, if_pos hfit]
      rfl
    · obtain ⟨r, hs, he⟩ := ih (fun c hc => hz c (List.mem_cons_of_mem _ hc)) hw.of_cons
        b.start (padding A a b) ht
      refine ⟨r, hs.cons hfit, fun fuel hf => ?_⟩
      obtain ⟨fuel, rfl⟩ := Nat.exists_eq_succ_of_ne_zero (by omega : fuel ≠ 0)
      rw [hround, if_neg hfit]
      exact he fuel (by simpa using hf)

/-- How best fit changes its candidate over a list whose blocks it visits after `prev`. -/
def BestFit (A : Abi) (size a prev : ℕ) (bs : List Block) (old new : Best) : Prop :=
  ((∀ b ∈ bs, Fits A size a b → old.smallestDiff ≤ remainder A size a b) ∧ new = old) ∨
  ∃ pre b post, bs = pre ++ b :: post ∧ Fits A size a b ∧
    remainder A size a b < old.smallestDiff ∧
    (∀ c ∈ pre, Fits A size a c → remainder A size a b < remainder A size a c) ∧
    (∀ c ∈ post, Fits A size a c → remainder A size a b ≤ remainder A size a c) ∧
    new = ⟨remainder A size a b, b.start, padding A a b, lastStart prev pre⟩

theorem BestFit.cons {prev : ℕ} {b : Block} {best r : Best}
    (h : BestFit A size a b.start bs (considered A size a b prev best) r) :
    BestFit A size a prev (b :: bs) best r := by
  by_cases hfit : Fits A size a b ∧ remainder A size a b < best.smallestDiff
  · rw [considered, if_pos hfit] at h
    right
    rcases h with ⟨hn, rfl⟩ | ⟨pre, c, post, rfl, hc, hlt, hpre, hpost, rfl⟩
    · exact ⟨[], b, bs, rfl, hfit.1, hfit.2, by simp, hn, rfl⟩
    · refine ⟨b :: pre, c, post, rfl, hc, hlt.trans hfit.2, ?_, hpost, rfl⟩
      intro d hd hdf
      rcases List.mem_cons.mp hd with rfl | hd
      · exact hlt
      · exact hpre d hd hdf
  · rw [considered, if_neg hfit] at h
    have hge (hb : Fits A size a b) : best.smallestDiff ≤ remainder A size a b :=
      not_lt.mp fun hlt => hfit ⟨hb, hlt⟩
    rcases h with ⟨hn, rfl⟩ | ⟨pre, c, post, rfl, hc, hlt, hpre, hpost, rfl⟩
    · exact .inl ⟨by simpa using ⟨hge, hn⟩, rfl⟩
    · refine .inr ⟨b :: pre, c, post, rfl, hc, hlt, ?_, hpost, rfl⟩
      intro d hd hdf
      rcases List.mem_cons.mp hd with rfl | hd
      · exact lt_of_lt_of_le hlt (hge hdf)
      · exact hpre d hd hdf

theorem freeListFindBestLoop_spec (ha : IsPow2 a) (hlt : a < A.modulus)
    (hz : ∀ b ∈ bs, b.start ≠ 0) (hw : NoWrap A size a bs) (prev : ℕ) (best : Best) {node : ℕ}
    (hc : Chain A m node bs 0) :
    ∃ r, BestFit A size a prev bs best r ∧ ∀ fuel, bs.length < fuel →
      freeListFindBestLoop A m size a fuel node prev best = some r := by
  induction bs generalizing node prev best with
  | nil =>
    simp only [Chain] at hc
    subst hc
    refine ⟨best, .inl ⟨by simp, rfl⟩, fun fuel hf => ?_⟩
    obtain ⟨fuel, rfl⟩ := Nat.exists_eq_succ_of_ne_zero hf.ne'
    simp [freeListFindBestLoop]
  | cons b bs ih =>
    obtain ⟨rfl, hsz, ht⟩ := hc
    obtain ⟨r, hs, he⟩ := ih (fun c hc => hz c (List.mem_cons_of_mem _ hc)) hw.of_cons b.start
      (considered A size a b prev best) ht
    refine ⟨r, hs.cons, fun fuel hf => ?_⟩
    obtain ⟨fuel, rfl⟩ := Nat.exists_eq_succ_of_ne_zero (by omega : fuel ≠ 0)
    rw [freeListFindBestLoop_node ha hlt (hz b List.mem_cons_self) (hw b List.mem_cons_self) hsz]
    exact he fuel (by simpa using hf)

/-- What either search guarantees of its result. -/
def Found (A : Abi) (size a : ℕ) (bs : List Block) (r : ℕ × ℕ × ℕ) : Prop :=
  ((∀ b ∈ bs, ¬ Fits A size a b) ∧ r.1 = 0) ∨
  ∃ pre b post, bs = pre ++ b :: post ∧ Fits A size a b ∧
    r = (b.start, padding A a b, lastStart 0 pre)

section Heap

variable {h : Heap}

theorem freeListFindFirst_spec (ha : IsPow2 a) (hlt : a < A.modulus) (hr : Roomy A bs)
    (hw : NoWrap A size a bs) (hf : bs.length ≤ h.fl.size) (hc : Chain A h.mem h.fl.head bs 0) :
    ∃ r, freeListFindFirst A h size a = some r ∧ FirstFit A size a 0 bs r := by
  obtain ⟨r, hs, he⟩ := freeListFindFirstLoop_spec ha hlt (fun b hb => (hr b hb).1) hw 0 0 hc
  exact ⟨r, he _ (by omega), hs⟩

/-- Before the search every remainder is below the candidate's, the largest `size_t`. -/
theorem remainder_lt_max (hc : Chain A h.mem h.fl.head bs 0) {b : Block} (hb : b ∈ bs)
    (hfit : Fits A size a b) : remainder A size a b < A.modulus - 1 := by
  have hlen : b.size < A.modulus := by
    obtain ⟨pre, post, rfl⟩ := List.append_of_mem hb
    obtain ⟨r, -, -, hsz, -⟩ := chain_append.mp hc
    exact hsz ▸ Mem.load_lt ..
  -- The padding holds a header, so something is taken even for an empty request.
  have hpad : A.sizeofHeader ≤ padding A a b := le_leastPadding ..
  have hpos := A.ptrBytes_pos
  unfold Abi.sizeofHeader at hpad
  unfold Fits at hfit
  unfold remainder
  omega

theorem freeListFindBest_spec (ha : IsPow2 a) (hlt : a < A.modulus) (hr : Roomy A bs)
    (hw : NoWrap A size a bs) (hf : bs.length ≤ h.fl.size) (hc : Chain A h.mem h.fl.head bs 0) :
    ∃ best, freeListFindBest A h size a = some (best.node, best.padding, best.prevNode) ∧
      BestFit A size a 0 bs ⟨A.modulus - 1, 0, 0, 0⟩ best := by
  obtain ⟨r, hs, he⟩ := freeListFindBestLoop_spec ha hlt (fun b hb => (hr b hb).1) hw 0
    ⟨A.modulus - 1, 0, 0, 0⟩ hc
  exact ⟨r, by simp [freeListFindBest, he (h.fl.size + 1) (by omega)], hs⟩

theorem freeListFindFirst_found (ha : IsPow2 a) (hlt : a < A.modulus) (hr : Roomy A bs)
    (hw : NoWrap A size a bs) (hf : bs.length ≤ h.fl.size) (hc : Chain A h.mem h.fl.head bs 0) :
    ∃ r, freeListFindFirst A h size a = some r ∧ Found A size a bs r := by
  obtain ⟨r, he, hs⟩ := freeListFindFirst_spec ha hlt hr hw hf hc
  refine ⟨r, he, ?_⟩
  rcases hs with hn | ⟨pre, b, post, rfl, -, hfit, rfl⟩
  · exact .inl hn
  · exact .inr ⟨pre, b, post, rfl, hfit, rfl⟩

theorem freeListFindBest_found (ha : IsPow2 a) (hlt : a < A.modulus) (hr : Roomy A bs)
    (hw : NoWrap A size a bs) (hf : bs.length ≤ h.fl.size) (hc : Chain A h.mem h.fl.head bs 0) :
    ∃ r, freeListFindBest A h size a = some r ∧ Found A size a bs r := by
  obtain ⟨best, he, hb⟩ := freeListFindBest_spec ha hlt hr hw hf hc
  refine ⟨_, he, ?_⟩
  rcases hb with ⟨hn, rfl⟩ | ⟨pre, b, post, rfl, hfit, -, -, -, rfl⟩
  · refine .inl ⟨fun b hb hfit => ?_, rfl⟩
    exact absurd (hn b hb hfit) (not_le.mpr (remainder_lt_max hc hb hfit))
  · exact .inr ⟨pre, b, post, rfl, hfit, rfl⟩

/-! ## The two searches side by side

A search of a list takes as many rounds as the list has nodes, and one more to see its end. -/

variable (A) in
def findFirstWithin (h : Heap) (size alignment rounds : ℕ) : Option (ℕ × ℕ × ℕ) :=
  freeListFindFirstLoop A h.mem size alignment rounds h.fl.head 0 0

variable (A) in
def findBestWithin (h : Heap) (size alignment rounds : ℕ) : Option (ℕ × ℕ × ℕ) :=
  (freeListFindBestLoop A h.mem size alignment rounds h.fl.head 0 ⟨A.modulus - 1, 0, 0, 0⟩).map
    fun best => (best.node, best.padding, best.prevNode)

theorem freeListFindFirst_eq_within : freeListFindFirst A h size a =
    findFirstWithin A h size a (h.fl.size + 1) := rfl

theorem freeListFindBest_eq_within : freeListFindBest A h size a =
    findBestWithin A h size a (h.fl.size + 1) := by
  simp only [freeListFindBest, findBestWithin, Option.map_eq_bind]
  rfl

/-- The triple has the node of the block after `pre`, its padding, and the node before it, which is
null exactly if the node is the head. -/
structure Names (A : Abi) (alignment head : ℕ) (pre : List Block) (b : Block)
    (r : ℕ × ℕ × ℕ) : Prop where
  node : r.1 = b.start
  padding : calcPaddingWithHeader A b.start alignment A.sizeofHeader = some r.2.1
  prev : r.2.2 = lastStart 0 pre
  head : r.2.2 = 0 ↔ r.1 = head

theorem names_of_chain (ha : IsPow2 a) (hlt : a < A.modulus) {pre post : List Block} {b : Block}
    (hz : ∀ c ∈ pre ++ b :: post, c.start ≠ 0) (hw : NoWrap A size a (pre ++ b :: post))
    (hc : Chain A h.mem h.fl.head (pre ++ b :: post) 0) :
    Names A a h.fl.head pre b (b.start, padding A a b, lastStart 0 pre) where
  node := rfl
  padding := calcPadding_block ha hlt (hw b (by simp))
  prev := rfl
  head := hc.lastStart_eq_zero_iff hz

theorem FirstFit.null_iff {prev : ℕ} {r : ℕ × ℕ × ℕ} (hr : FirstFit A size a prev bs r)
    (hz : ∀ b ∈ bs, b.start ≠ 0) : r.1 = 0 ↔ ∀ b ∈ bs, ¬ Fits A size a b := by
  rcases hr with ⟨hn, he⟩ | ⟨pre, b, post, rfl, -, hfit, rfl⟩
  · exact iff_of_true he hn
  · exact iff_of_false (hz b (by simp)) fun hn => hn b (by simp) hfit

theorem BestFit.null_iff {prev : ℕ} {r : Best}
    (hr : BestFit A size a prev bs ⟨A.modulus - 1, 0, 0, 0⟩ r) (hz : ∀ b ∈ bs, b.start ≠ 0)
    (hc : Chain A h.mem h.fl.head bs 0) : r.node = 0 ↔ ∀ b ∈ bs, ¬ Fits A size a b := by
  rcases hr with ⟨hn, rfl⟩ | ⟨pre, b, post, rfl, hfit, -, -, -, rfl⟩
  · exact iff_of_true rfl fun b hm hfit =>
      absurd (hn b hm hfit) (not_le.mpr (remainder_lt_max hc hm hfit))
  · exact iff_of_false (hz b (by simp)) fun hn => hn b (by simp) hfit

/-- First fit returns the first node with room and best fit the first of those that leave the least
behind, each with its own padding and predecessor; one returns null exactly if the other does. -/
theorem freeListFind_consistent (ha : IsPow2 a) (hlt : a < A.modulus)
    (hz : ∀ b ∈ bs, b.start ≠ 0) (hw : NoWrap A size a bs)
    (hc : Chain A h.mem h.fl.head bs 0) :
    ∃ first best : ℕ × ℕ × ℕ,
      (∀ rounds, bs.length < rounds → findFirstWithin A h size a rounds = some first ∧
        findBestWithin A h size a rounds = some best) ∧
      (bs.length ≤ h.fl.size → freeListFindFirst A h size a = some first ∧
        freeListFindBest A h size a = some best) ∧
      (first.1 ≠ 0 → ∃ pre b post, bs = pre ++ b :: post ∧ Names A a h.fl.head pre b first ∧
        Fits A size a b ∧ ∀ c ∈ pre, ¬ Fits A size a c) ∧
      (best.1 ≠ 0 → ∃ pre b post, bs = pre ++ b :: post ∧ Names A a h.fl.head pre b best ∧
        Fits A size a b ∧
        (∀ c ∈ pre, Fits A size a c → remainder A size a b < remainder A size a c) ∧
        ∀ c ∈ post, Fits A size a c → remainder A size a b ≤ remainder A size a c) ∧
      (first.1 = 0 ↔ best.1 = 0) ∧ (first.1 = 0 ↔ ∀ b ∈ bs, ¬ Fits A size a b) := by
  obtain ⟨first, hfirst, hf⟩ := freeListFindFirstLoop_spec ha hlt hz hw 0 0 hc
  obtain ⟨best, hbest, hb⟩ := freeListFindBestLoop_spec ha hlt hz hw 0
    ⟨A.modulus - 1, 0, 0, 0⟩ hc
  have hfirst_null := hfirst.null_iff hz
  have hbest_null := hbest.null_iff hz hc
  have hwithin (rounds : ℕ) (hr : bs.length < rounds) :
      findFirstWithin A h size a rounds = some first ∧
      findBestWithin A h size a rounds = some (best.node, best.padding, best.prevNode) := by
    refine ⟨hf rounds hr, ?_⟩
    rw [findBestWithin, hb rounds hr]
    rfl
  refine ⟨first, (best.node, best.padding, best.prevNode), hwithin, fun hle => ?_,
    fun hne => ?_, fun hne => ?_, hfirst_null.trans hbest_null.symm, hfirst_null⟩
  · rw [freeListFindFirst_eq_within, freeListFindBest_eq_within]
    exact hwithin _ (by omega)
  · rcases hfirst with ⟨-, he⟩ | ⟨pre, b, post, rfl, hpre, hfit, rfl⟩
    · exact absurd he hne
    · exact ⟨pre, b, post, rfl, names_of_chain ha hlt hz hw hc, hfit, hpre⟩
  · rcases hbest with ⟨-, rfl⟩ | ⟨pre, b, post, rfl, hfit, -, hpre, hpost, rfl⟩
    · exact absurd rfl hne
    · exact ⟨pre, b, post, rfl, names_of_chain ha hlt hz hw hc, hfit, hpre, hpost⟩

end Heap

/-- Four free blocks. All but the first have room for 16 bytes aligned to 16, and the third has the
least left over. -/
def fourBlocks : List Block := [⟨16, 24⟩, ⟨56, 64⟩, ⟨128, 40⟩, ⟨192, 48⟩]

def fourBlocksHeap : Heap where
  mem := [(16, 56), (20, 24), (56, 128), (60, 64), (128, 192), (132, 40), (196, 48)].foldl
    (fun m w => Mem.store m w.1 4 w.2) fun _ => 0
  fl := ⟨16, 256, 0, 16, .findFirst⟩

theorem freeListFind_consistent_fourBlocks :
    freeListFindFirst Abi.arm32 fourBlocksHeap 16 16 = some (56, 24, 16) ∧
    freeListFindBest Abi.arm32 fourBlocksHeap 16 16 = some (128, 16, 56) ∧
    ∀ rounds, 4 < rounds →
      findFirstWithin Abi.arm32 fourBlocksHeap 16 16 rounds = some (56, 24, 16) ∧
      findBestWithin Abi.arm32 fourBlocksHeap 16 16 rounds = some (128, 16, 56) := by
  have hfirst : freeListFindFirst Abi.arm32 fourBlocksHeap 16 16 = some (56, 24, 16) := by
    decide +kernel
  have hbest : freeListFindBest Abi.arm32 fourBlocksHeap 16 16 = some (128, 16, 56) := by
    decide +kernel
  have hchain : Chain Abi.arm32 fourBlocksHeap.mem fourBlocksHeap.fl.head fourBlocks 0 := by
    simp only [fourBlocks, Chain]
    decide +kernel
  have hwrap : NoWrap Abi.arm32 16 16 fourBlocks := by decide
  obtain ⟨first, best, hrounds, hsize, -⟩ :=
    freeListFind_consistent ⟨4, rfl⟩ (by decide) (by decide) hwrap hchain
  obtain ⟨hf, hb⟩ := hsize (by decide)
  obtain rfl := Option.some.inj (hfirst.symm.trans hf)
  obtain rfl := Option.some.inj (hbest.symm.trans hb)
  exact ⟨hfirst, hbest, fun rounds hr => hrounds rounds hr⟩

end Strela.Allocator
