import Strela.Allocator.Alloc

/-! # Release

`free_list_free` makes a node of the freed block, inserts it at its place in the
address order, and joins it with the free blocks it touches on either side. It
writes inside the freed block and free blocks only.
-/

namespace Strela.Allocator

open Foundation Foundation.Unsigned
open scoped List

variable {A : Abi} {h : Heap} {pre post free : List Block} {live : List Alloc} {a : Alloc}
  {b c : Block} {n : ℕ}

/-! ## Joining adjacent free blocks -/

theorem ordered_join (ho : Ordered (pre ++ b :: c :: post)) (ht : b.stop = c.start) :
    Ordered (pre ++ ⟨b.start, b.size + c.size⟩ :: post) := by
  obtain ⟨hpre, hbc, hcross⟩ := List.pairwise_append.mp ho
  obtain ⟨hb, hcp⟩ := List.pairwise_cons.mp hbc
  obtain ⟨hc, hpost⟩ := List.pairwise_cons.mp hcp
  simp only [Block.stop] at ht
  refine List.pairwise_append.mpr ⟨hpre, List.pairwise_cons.mpr ⟨fun d hd => ?_, hpost⟩, ?_⟩
  · have := hc d hd
    simp only [Block.stop] at this ⊢
    omega
  · intro d hd e he
    rcases List.mem_cons.mp he with rfl | he
    · exact hcross d hd b List.mem_cons_self
    · exact hcross d hd e (List.mem_cons_of_mem _ (List.mem_cons_of_mem _ he))

theorem tiles_join {lo hi : ℕ} {bs : List Block} (ht : b.stop = c.start)
    (h : Tiles lo hi ((pre ++ b :: c :: post) ++ bs)) :
    Tiles lo hi ((pre ++ ⟨b.start, b.size + c.size⟩ :: post) ++ bs) := by
  have hp : Tiles lo hi (b :: c :: (pre ++ post ++ bs)) := h.perm (by
    rw [List.append_assoc, List.append_assoc]
    exact List.perm_middle.trans (List.Perm.cons _ List.perm_middle))
  have hc : c = ⟨b.start + b.size, c.size⟩ := by
    rw [← Block.stop, ht]
  rw [hc] at hp
  apply hp.join.perm
  rw [List.append_assoc, List.append_assoc]
  exact List.perm_middle.symm

theorem forall_inserted {P : Block → Prop} (h : ∀ d ∈ pre ++ post, P d) (hb : P b) :
    ∀ d ∈ pre ++ b :: post, P d := by
  intro d hd
  rcases List.mem_append.mp hd with hd | hd
  · exact h d (List.mem_append_left _ hd)
  rcases List.mem_cons.mp hd with rfl | hd
  · exact hb
  · exact h d (List.mem_append_right _ hd)

theorem join_spec (H : Holds A h (pre ++ b :: c :: post) live) (ht : b.stop = c.start) :
    let h' := freeListNodeRemove A (h.setNodeBlockSize A b.start (b.size + c.size)) b.start c.start
    h'.fl = h.fl ∧ h.mem.EqOff (Set.Ico b.start (b.start + A.sizeofNode)) h'.mem ∧
      Holds A h' (pre ++ ⟨b.start, b.size + c.size⟩ :: post) live := by
  have hbm : b ∈ pre ++ b :: c :: post := by simp
  have hcm : c ∈ pre ++ b :: c :: post := by simp
  have hb := H.roomy b hbm
  have hcr := H.roomy c hcm
  have hbin := H.free_inside hbm
  have hcin := H.free_inside hcm
  have hsz : b.size + c.size < A.modulus := by
    have := H.size_lt
    simp only [Block.stop] at hcin ht
    omega
  obtain ⟨hopre, hobc, hcross⟩ := List.pairwise_append.mp H.ordered
  obtain ⟨hob, hocp⟩ := List.pairwise_cons.mp hobc
  obtain ⟨hoc, -⟩ := List.pairwise_cons.mp hocp
  obtain ⟨_, hcpre, rfl, -, hcb, hcsz, hcpost⟩ := chain_append.mp H.chain
  have hnext : nodeNext A (h.setNodeBlockSize A b.start (b.size + c.size)).mem c.start =
      nodeNext A h.mem c.start := by
    apply Mem.load_store_of_disjoint
    have : A.sizeofNode = 2 * A.ptrBytes := rfl
    simp only [Block.stop] at ht
    omega
  simp only [freeListNodeRemove, if_neg hb.1, hnext]
  -- Both writes are in the node of `b`.
  have hframe := eqOff_setNode (A := A) h b.start (b.size + c.size) (nodeNext A h.mem c.start)
  refine ⟨rfl, hframe, ?_⟩
  have hrest {d : Block} (hd : d ∈ pre ++ post) : d ∈ pre ++ b :: c :: post := by
    simp only [List.mem_append, List.mem_cons] at hd ⊢
    tauto
  have hchain : Chain A ((h.setNodeBlockSize A b.start (b.size + c.size)).setNodeNext A b.start
        (nodeNext A h.mem c.start)).mem h.fl.head
      (pre ++ ⟨b.start, b.size + c.size⟩ :: post) 0 := by
    refine chain_append.mpr ⟨b.start, ?_, rfl, ?_, ?_⟩
    · exact hcpre.eqOff_above hframe (fun d hd => H.roomy d (List.mem_append_left _ hd))
        (fun x hx => hx.1) fun d hd => hcross d hd b List.mem_cons_self
    · rw [nodeBlockSize_setNodeNext, nodeBlockSize_setNodeBlockSize hsz]
    · rw [nodeNext_setNodeNext (nodeNext_lt ..)]
      rw [hcb] at hcpost
      apply hcpost.eqOff_below hframe fun x hx => hx.2
      intro d hd
      have := hoc d hd
      simp only [Block.stop] at this ht
      omega
  exact {
    data_pos := H.data_pos
    bound := H.bound
    tiles := tiles_join ht H.tiles
    ordered := ordered_join H.ordered ht
    aligned := forall_inserted (fun d hd => H.aligned d (hrest hd)) (H.aligned b hbm)
    room := forall_inserted (fun d hd => H.room d (hrest hd)) (hb.2.trans (Nat.le_add_right _ _))
    chain := hchain
    used := H.used
    placed := H.placed
    headers := H.headers_eqOff (hframe.mono fun x hx => ⟨b, hbm, by
      simp only [Set.mem_Ico] at hx
      simp only [Block.mem_def, Block.stop]
      omega⟩) }

/-! ## Coalescence -/

theorem separated_cons_of_lt (hp : Separated post) (hb : ∀ c ∈ post, b.stop ≤ c.start)
    (hc : ∀ c ∈ post.head?, b.stop ≠ c.start) : Separated (b :: post) := by
  refine List.pairwise_cons.mpr ⟨fun c hcm => ?_, hp⟩
  cases post with
  | nil => simp at hcm
  | cons d post =>
    have hd := lt_of_le_of_ne (hb d List.mem_cons_self) (hc d (by simp))
    rcases List.mem_cons.mp hcm with rfl | hcm
    · exact hd
    · have := (List.pairwise_cons.mp hp).1 c hcm
      simp only [Block.stop] at hd this ⊢
      omega

/-- The first half of `free_list_coalescence`: join the freed block with the one after it. -/
def coalesceNext (A : Abi) (h : Heap) (freeNode : ℕ) : Heap :=
  let next := nodeNext A h.mem freeNode
  if next ≠ 0 ∧ A.add freeNode (nodeBlockSize A h.mem freeNode) = next then
    let h := h.setNodeBlockSize A freeNode
      (A.add (nodeBlockSize A h.mem freeNode) (nodeBlockSize A h.mem next))
    freeListNodeRemove A h freeNode (nodeNext A h.mem freeNode)
  else h

/-- The second half of `free_list_coalescence`: join the block before the freed one with it. -/
def coalescePrev (A : Abi) (h : Heap) (prevNode freeNode : ℕ) : Heap :=
  if prevNode ≠ 0 ∧ A.add prevNode (nodeBlockSize A h.mem prevNode) = freeNode then
    let h := h.setNodeBlockSize A prevNode
      (A.add (nodeBlockSize A h.mem prevNode) (nodeBlockSize A h.mem freeNode))
    freeListNodeRemove A h prevNode freeNode
  else h

/-- The end of a block followed by another is an address, not a wrapped one. -/
theorem Holds.add_size (H : Holds A h (pre ++ b :: c :: post) live) :
    A.add b.start b.size = b.stop := by
  have h₁ := (H.free_inside (b := c) (by simp)).2
  have h₂ := H.tiles.pos c (by simp)
  have h₃ := H.bound
  have h₄ := (List.pairwise_cons.mp (List.pairwise_append.mp H.ordered).2.1).1 c List.mem_cons_self
  simp only [Block.stop] at h₁ h₄
  exact Abi.add_of_lt (by omega)

theorem Holds.sizes (H : Holds A h (pre ++ b :: c :: post) live) :
    nodeBlockSize A h.mem b.start = b.size ∧ nodeNext A h.mem b.start = c.start ∧
      nodeBlockSize A h.mem c.start = c.size ∧ A.add b.size c.size = b.size + c.size := by
  obtain ⟨_, -, rfl, hb, hn, hc, -⟩ := chain_append.mp H.chain
  have h₁ := (H.free_inside (b := b) (by simp)).1
  have h₂ := (H.free_inside (b := c) (by simp)).2
  have h₃ := H.size_lt
  have h₄ := (List.pairwise_cons.mp (List.pairwise_append.mp H.ordered).2.1).1 c List.mem_cons_self
  simp only [Block.stop] at h₂ h₄
  exact ⟨hb, hn, hn ▸ hc, Abi.add_of_lt (by omega)⟩

theorem coalesceNext_spec (H : Holds A h (pre ++ b :: post) live) (hp : Separated post) :
    ∃ b' post', (coalesceNext A h b.start).fl = h.fl ∧ b'.start = b.start ∧
      h.mem.EqOff (Set.Ico b.start (b.start + A.sizeofNode)) (coalesceNext A h b.start).mem ∧
      Holds A (coalesceNext A h b.start) (pre ++ b' :: post') live ∧ Separated (b' :: post') := by
  have hb := (List.pairwise_cons.mp (List.pairwise_append.mp H.ordered).2.1).1
  cases post with
  | nil =>
    have hnext : nodeNext A h.mem b.start = 0 := by
      obtain ⟨_, -, rfl, -, hn⟩ := chain_append.mp H.chain
      exact hn
    have he : coalesceNext A h b.start = h := if_neg (by simp [hnext])
    rw [he]
    exact ⟨b, [], rfl, rfl, .refl _ _, H, separated_cons_of_lt hp hb (by simp)⟩
  | cons c post =>
    obtain ⟨hbs, hn, hcs, hsum⟩ := H.sizes
    have hc := H.roomy c (by simp)
    by_cases ht : b.stop = c.start
    · have he : coalesceNext A h b.start =
          freeListNodeRemove A (h.setNodeBlockSize A b.start (b.size + c.size)) b.start
            c.start := by
        simp only [coalesceNext, hn, hbs, hcs, hsum, H.add_size, nodeNext_setNodeBlockSize]
        exact if_pos ⟨hc.1, ht⟩
      obtain ⟨hfl, hoff, hH⟩ := join_spec H ht
      rw [he]
      refine ⟨⟨b.start, b.size + c.size⟩, post, hfl, rfl, hoff, hH, ?_⟩
      obtain ⟨hcp, hpost⟩ := List.pairwise_cons.mp hp
      refine List.pairwise_cons.mpr ⟨fun d hd => ?_, hpost⟩
      have := hcp d hd
      simp only [Block.stop] at ht this ⊢
      omega
    · have he : coalesceNext A h b.start = h := by
        simp only [coalesceNext, hn, hbs, H.add_size]
        exact if_neg fun hc => ht hc.2
      rw [he]
      refine ⟨b, c :: post, rfl, rfl, .refl _ _, H, separated_cons_of_lt hp hb ?_⟩
      intro d hd
      simp only [List.head?_cons, Option.mem_def, Option.some.injEq] at hd
      exact hd ▸ ht

theorem separated_append (hpre : Separated (pre ++ [b])) (hpost : Separated (c :: post))
    (ht : b.stop < c.start) : Separated ((pre ++ [b]) ++ c :: post) := by
  refine List.pairwise_append.mpr ⟨hpre, hpost, fun d hd e he => ?_⟩
  have hdb : d.stop ≤ b.stop := by
    rcases List.mem_append.mp hd with hd | hd
    · have := (List.pairwise_append.mp hpre).2.2 d hd b (by simp)
      simp only [Block.stop] at this ⊢
      omega
    · rw [List.mem_singleton.mp hd]
  have hce : c.start ≤ e.start := by
    rcases List.mem_cons.mp he with rfl | he
    · exact le_rfl
    · have := (List.pairwise_cons.mp hpost).1 e he
      simp only [Block.stop] at this
      omega
  omega

theorem separated_join (hpre : Separated (pre ++ [b])) (hpost : Separated (c :: post))
    (ht : b.stop = c.start) : Separated (pre ++ ⟨b.start, b.size + c.size⟩ :: post) := by
  obtain ⟨hp, -, hcross⟩ := List.pairwise_append.mp hpre
  obtain ⟨hc, hq⟩ := List.pairwise_cons.mp hpost
  have hstop : Block.stop ⟨b.start, b.size + c.size⟩ = c.stop := by
    simp only [Block.stop] at ht ⊢
    omega
  refine List.pairwise_append.mpr ⟨hp, List.pairwise_cons.mpr ⟨fun d hd => hstop ▸ hc d hd, hq⟩, ?_⟩
  intro d hd e he
  have hdb := hcross d hd b (by simp)
  rcases List.mem_cons.mp he with rfl | he
  · exact hdb
  · have := hc e he
    simp only [Block.stop] at this ht hdb ⊢
    omega

theorem coalescePrev_spec (H : Holds A h (pre ++ b :: post) live) (hpre : Separated pre)
    (hb : Separated (b :: post)) :
    ∃ free', (coalescePrev A h (lastStart 0 pre) b.start).fl = h.fl ∧
      h.mem.EqOff (footprint pre) (coalescePrev A h (lastStart 0 pre) b.start).mem ∧
      Represents A (coalescePrev A h (lastStart 0 pre) b.start) free' live := by
  rcases List.eq_nil_or_concat pre with rfl | ⟨pre, p, rfl⟩
  · have he : coalescePrev A h (lastStart 0 []) b.start = h := if_neg (by simp [lastStart])
    rw [he]
    exact ⟨_, rfl, .refl _ _, { H with separated := hb }⟩
  · rw [List.concat_eq_append] at *
    rw [lastStart_concat]
    have H' : Holds A h (pre ++ p :: b :: post) live := by simpa using H
    have hp := H'.roomy p (by simp)
    obtain ⟨hps, hn, hbs, hsum⟩ := H'.sizes
    by_cases ht : p.stop = b.start
    · have he : coalescePrev A h p.start b.start =
          freeListNodeRemove A (h.setNodeBlockSize A p.start (p.size + b.size)) p.start
            b.start := by
        simp only [coalescePrev, hps, hbs, hsum, H'.add_size]
        exact if_pos ⟨hp.1, ht⟩
      obtain ⟨hfl, hoff, hH⟩ := join_spec H' ht
      rw [he]
      refine ⟨_, hfl, hoff.mono fun x hx => ⟨p, by simp, ?_⟩,
        { hH with separated := separated_join hpre hb ht }⟩
      simp only [Set.mem_Ico] at hx
      simp only [Block.mem_def, Block.stop]
      omega
    · have he : coalescePrev A h p.start b.start = h := by
        simp only [coalescePrev, hps, H'.add_size]
        exact if_neg fun hc => ht hc.2
      have hlt : p.stop < b.start := lt_of_le_of_ne
        ((List.pairwise_append.mp H.ordered).2.2 p (by simp) b List.mem_cons_self) ht
      rw [he]
      exact ⟨_, rfl, .refl _ _, { H with separated := separated_append hpre hb hlt }⟩

/-! ## Insertion -/

/-- The loop stops at the first node past the freed one; either way the freed node ends up inserted
after the nodes passed. -/
theorem freeListFreeLoop_spec {bs : List Block} (freeNode : ℕ) (hr : Roomy A bs)
    (fuel prev : ℕ) (hf : bs.length < fuel) {node : ℕ} (hc : Chain A h.mem node bs 0) :
    ∃ pre post r, bs = pre ++ post ∧ (∀ c ∈ pre, c.start ≤ freeNode) ∧
      (∀ c ∈ post.head?, freeNode < c.start) ∧
      freeListFreeLoop A freeNode fuel h node prev = some r ∧ r.2.2 = lastStart prev pre ∧
      (if r.2.1 = 0 then freeListNodeInsert A r.1 r.2.2 freeNode else r.1) =
        freeListNodeInsert A h (lastStart prev pre) freeNode := by
  induction bs generalizing fuel node prev with
  | nil =>
    obtain ⟨fuel, rfl⟩ := Nat.exists_eq_succ_of_ne_zero (by omega : fuel ≠ 0)
    simp only [Chain] at hc
    subst hc
    exact ⟨[], [], (h, 0, prev), rfl, by simp, by simp, by simp [freeListFreeLoop], rfl, if_pos rfl⟩
  | cons b bs ih =>
    obtain ⟨fuel, rfl⟩ := Nat.exists_eq_succ_of_ne_zero (by omega : fuel ≠ 0)
    obtain ⟨rfl, -, ht⟩ := hc
    have hne := (hr b List.mem_cons_self).1
    rw [freeListFreeLoop, if_neg hne]
    by_cases hlt : freeNode < b.start
    · rw [if_pos hlt]
      exact ⟨[], b :: bs, _, rfl, by simp, by simpa using hlt, rfl, rfl, if_neg hne⟩
    · rw [if_neg hlt]
      simp only [List.length_cons] at hf
      obtain ⟨pre, post, r, rfl, hpre, hpost, he, hprev, hins⟩ :=
        ih hr.of_cons fuel b.start (by omega) ht
      exact ⟨b :: pre, post, r, rfl, by simpa using ⟨not_lt.mp hlt, hpre⟩, hpost, he, hprev, hins⟩

def freedNode (A : Abi) (h : Heap) (b : Block) : Heap :=
  (h.setNodeBlockSize A b.start b.size).setNodeNext A b.start 0

theorem freedNode_spec (hb : A.sizeofNode ≤ b.size) (hM : b.size < A.modulus) :
    (freedNode A h b).fl = h.fl ∧ h.mem.EqOff {x | x ∈ b} (freedNode A h b).mem ∧
      nodeBlockSize A (freedNode A h b).mem b.start = b.size := by
  refine ⟨rfl, (eqOff_setNode h b.start b.size 0).mono ?_, ?_⟩
  · rintro x ⟨hl, hu⟩
    exact ⟨hl, by simp only [Block.stop]; omega⟩
  · rw [freedNode, nodeBlockSize_setNodeNext, nodeBlockSize_setNodeBlockSize hM]

theorem Represents.chain_freedNode (R : Represents A h free live) (ha : a ∈ live) :
    Chain A (freedNode A h (a.block A)).mem h.fl.head free 0 := by
  have hin := R.live_inside ha
  have hM := R.size_lt
  have hbound := R.bound
  simp only [Block.stop] at hin
  obtain ⟨-, hoff, -⟩ := freedNode_spec (A := A) (h := h) (b := a.block A) (R.placed a ha).room
    (by have := R.data_pos; omega)
  apply R.chain.eqOff hoff
  intro c hc x hx
  have h₁ := R.free_apart_live hc ha
  have h₂ := R.room c hc
  have h₃ : x ∈ a.block A := hx
  simp only [Block.Apart, Block.stop, Block.mem_def] at h₁ h₃
  omega

theorem insert_spec (hr : Roomy A (pre ++ b :: post)) (ho : Ordered (pre ++ b :: post))
    (hs : nodeBlockSize A h.mem b.start = b.size) (hM : ∀ c ∈ b :: post, c.start < A.modulus)
    (hc : Chain A h.mem h.fl.head (pre ++ post) 0) :
    let h' := freeListNodeInsert A h (lastStart 0 pre) b.start
    SameRegion h.fl h'.fl ∧ h.mem.EqOff (footprint (pre ++ [b])) h'.mem ∧
      nodeBlockSize A h'.mem b.start = b.size ∧
      Chain A h'.mem h'.fl.head (pre ++ b :: post) 0 := by
  intro h'
  have hrb := hr b (by simp)
  have hbM := hM b List.mem_cons_self
  have hrpre : Roomy A pre := fun c hc => hr c (List.mem_append_left _ hc)
  obtain ⟨hopre, hobp, hcross⟩ := List.pairwise_append.mp ho
  have hopost := (List.pairwise_cons.mp hobp).1
  obtain ⟨q, hcpre, hcpost⟩ := chain_append.mp hc
  have hq : q < A.modulus := by
    cases post with
    | nil => exact lt_of_eq_of_lt hcpost (by omega)
    | cons c post => exact hcpost.1 ▸ hM c (by simp)
  have he : h' = (h.setNodeNext A b.start q).setLink A (lastStart 0 pre) b.start := by
    rw [← hcpre.link_eq hrpre]
    exact freeListNodeInsert_eq
      (lastStart_apart hrpre fun c hc => hcross c hc b List.mem_cons_self)
  -- First the new node is linked on, then the list before it is linked to it.
  have hoff : h.mem.EqOff (Set.Ico b.start (b.start + A.sizeofNode))
      (h.setNodeNext A b.start q).mem := eqOff_setNodeNext fun x hl hu => ⟨hl, hu⟩
  have hcpre' : Chain A (h.setNodeNext A b.start q).mem h.fl.head pre q := by
    exact hcpre.eqOff_above hoff hrpre (fun x hx => hx.1)
      fun c hc => hcross c hc b List.mem_cons_self
  have hcpost' : Chain A (h.setNodeNext A b.start q).mem q post 0 := by
    apply hcpost.eqOff_below hoff fun x hx => hx.2
    intro c hc
    have := hopost c hc
    simp only [Block.stop] at this
    omega
  have hlink := Chain.setLink (h := h.setNodeNext A b.start q) hcpre' hrpre hopre hbM
  have hlinkoff := eqOff_setLink (h := h.setNodeNext A b.start q) (v := b.start) hrpre
  have hbefore : ∀ x ∈ footprint pre, x < b.start := by
    rintro x ⟨c, hc, hx⟩
    exact lt_of_lt_of_le hx.2 (hcross c hc b List.mem_cons_self)
  have hsize : nodeBlockSize A h'.mem b.start = b.size := by
    rw [he, nodeBlockSize_eqOff hlinkoff fun x hx => .inl (hbefore x hx),
      nodeBlockSize_setNodeNext, hs]
  rw [he] at hsize ⊢
  refine ⟨sameRegion_setLink .., ?_, hsize, chain_append.mpr ⟨b.start, hlink, rfl, hsize, ?_⟩⟩
  · refine (hoff.mono ?_).trans (hlinkoff.mono ?_)
    · intro x hx
      simp only [Set.mem_Ico] at hx
      exact ⟨b, by simp, hx.1, by simp only [Block.stop]; omega⟩
    · rintro x ⟨c, hc, hx⟩
      exact ⟨c, List.mem_append_left _ hc, hx⟩
  · rw [nodeNext_eqOff hlinkoff fun x hx => .inl (hbefore x hx), nodeNext_setNodeNext hq]
    apply hcpost'.eqOff_below hlinkoff hbefore
    intro c hc
    have := hopost c hc
    simp only [Block.stop] at this
    omega

theorem ordered_insert (R : Represents A h (pre ++ post) live) (ha : a ∈ live)
    (hpre : ∀ c ∈ pre, c.start ≤ (a.block A).start)
    (hpost : ∀ c ∈ post.head?, (a.block A).start < c.start) :
    Ordered (pre ++ a.block A :: post) := by
  obtain ⟨hop, hoq, hcross⟩ := List.pairwise_append.mp R.ordered
  have hpos : 0 < (a.block A).size := R.tiles.pos _
    (List.mem_append_right _ (List.mem_map_of_mem ha))
  have hlast : ∀ c ∈ post, (a.block A).start < c.start := by
    intro c hc
    cases post with
    | nil => simp at hc
    | cons d post =>
      have hd := hpost d (by simp)
      rcases List.mem_cons.mp hc with rfl | hc
      · exact hd
      · have := (List.pairwise_cons.mp hoq).1 c hc
        simp only [Block.stop] at this
        omega
  have hbefore : ∀ c ∈ pre, c.stop ≤ (a.block A).start := by
    intro c hc
    have h₁ := R.free_apart_live (List.mem_append_left _ hc) ha
    have h₂ := hpre c hc
    simp only [Block.Apart, Block.stop] at h₁ ⊢
    omega
  have hafter : ∀ c ∈ post, (a.block A).stop ≤ c.start := by
    intro c hc
    have h₁ := R.free_apart_live (List.mem_append_right _ hc) ha
    have h₂ := hlast c hc
    simp only [Block.Apart, Block.stop] at h₁ ⊢
    omega
  refine List.pairwise_append.mpr ⟨hop, List.pairwise_cons.mpr ⟨hafter, hoq⟩, fun c hc d hd => ?_⟩
  rcases List.mem_cons.mp hd with rfl | hd
  · exact hbefore c hc
  · exact hcross c hc d hd

def inserted (A : Abi) (h : Heap) (prevNode : ℕ) (b : Block) : Heap :=
  let h := freeListNodeInsert A (freedNode A h b) prevNode b.start
  { h with fl := { h.fl with used := A.sub h.fl.used (nodeBlockSize A h.mem b.start) } }

theorem inserted_spec (R : Represents A h (pre ++ post) live) (ha : a ∈ live)
    (ho : Ordered (pre ++ a.block A :: post)) :
    let h' := inserted A h (lastStart 0 pre) (a.block A)
    h'.fl.data = h.fl.data ∧ h'.fl.size = h.fl.size ∧ h'.fl.policy = h.fl.policy ∧
      h.mem.EqOff (footprint (a.block A :: (pre ++ post))) h'.mem ∧
      Holds A h' (pre ++ a.block A :: post) (live.erase a) := by
  intro h'
  have hw := R.placed a ha
  have hin := R.live_inside ha
  have hM := R.size_lt
  have hbound := R.bound
  have hpos := A.sizeofNode_pos
  have hsize : (a.block A).size = a.blockSize := rfl
  have hroom := hw.room
  simp only [Block.stop] at hin
  obtain ⟨hfl, hoff, hbs⟩ := freedNode_spec (A := A) (h := h) (b := a.block A) hroom (by omega)
  have hroomy : Roomy A (pre ++ a.block A :: post) := by
    have hdata := R.data_pos
    exact forall_inserted R.roomy ⟨by omega, hroom⟩
  have hlt : ∀ c ∈ a.block A :: post, c.start < A.modulus := by
    intro c hc
    rcases List.mem_cons.mp hc with rfl | hc
    · omega
    · have h₁ := R.free_inside (List.mem_append_right _ hc)
      have h₂ := (hroomy c (by simp [hc])).2
      simp only [Block.stop] at h₁
      omega
  obtain ⟨hreg, hioff, hibs, hichain⟩ := insert_spec hroomy ho hbs hlt (R.chain_freedNode ha)
  rw [hfl] at hreg
  have hframe : h.mem.EqOff (footprint (a.block A :: (pre ++ post))) h'.mem := by
    have hsub : {x | x ∈ a.block A} ⊆ footprint (a.block A :: (pre ++ post)) := fun x hx =>
      ⟨_, List.mem_cons_self, hx⟩
    refine (hoff.mono hsub).trans (hioff.mono ?_)
    rintro x ⟨c, hc, hx⟩
    refine ⟨c, ?_, hx⟩
    simp only [List.mem_append, List.mem_cons] at hc ⊢
    tauto
  have hperm := List.perm_cons_erase ha
  have hsum : a.blockSize + ((live.erase a).map Alloc.blockSize).sum = h.fl.used := by
    rw [R.used, (hperm.map Alloc.blockSize).sum_nat, List.map_cons, List.sum_cons]
  refine ⟨hreg.1, hreg.2.1, hreg.2.2.2, hframe, ?_⟩
  exact {
    data_pos := by simpa only [h', inserted, hreg.1] using R.data_pos
    bound := by simpa only [h', inserted, hreg.1, hreg.2.1] using R.bound
    tiles := by
      simp only [h', inserted, hreg.1, hreg.2.1]
      apply R.tiles.perm
      calc (pre ++ post) ++ live.map (Alloc.block A)
        _ ~ (pre ++ post) ++ (a.block A :: (live.erase a).map (Alloc.block A)) :=
            (hperm.map (Alloc.block A)).append_left _
        _ ~ a.block A :: ((pre ++ post) ++ (live.erase a).map (Alloc.block A)) := List.perm_middle
        _ ~ (pre ++ a.block A :: post) ++ (live.erase a).map (Alloc.block A) :=
            List.perm_middle.symm.append_right _
    ordered := ho
    aligned := forall_inserted R.aligned hw.start_aligned
    room := fun c hc => (hroomy c hc).2
    chain := hichain
    used := by
      have hle : a.blockSize ≤ h.fl.used := by omega
      have hused : h.fl.used < A.modulus := by
        have h₁ := R.sum_le
        have h₂ := R.used
        omega
      simp only [h', inserted, hibs, hreg.2.2.1, hsize, Abi.sub_of_le hle hused]
      omega
    placed := fun c hc => R.placed c (List.mem_of_mem_erase hc)
    headers := R.headers_eqOff_erase ha hframe }

theorem freeListFree_eq {r : Heap × ℕ × ℕ} (hw : WellPlaced A a) (hd : HeaderAt A h.mem a)
    (hloop : freeListFreeLoop A (a.block A).start (h.fl.size + 1) (freedNode A h (a.block A))
      h.fl.head 0 = some r) :
    freeListFree A h a.ptr =
      let h' := if r.2.1 = 0 then freeListNodeInsert A r.1 r.2.2 (a.block A).start else r.1
      let h' := { h' with
        fl := { h'.fl with used := A.sub h'.fl.used (nodeBlockSize A h'.mem (a.block A).start) } }
      some (coalescePrev A (coalesceNext A h' (a.block A).start) r.2.2 (a.block A).start) := by
  have hge := hw.ptr_ge
  have hlt := hw.ptr_lt
  have hheader : A.sub a.ptr A.sizeofHeader = a.header A := Abi.sub_of_le (by omega) hlt
  have hstart : A.sub (a.header A) a.padding = (a.block A).start :=
    Abi.sub_of_le (by unfold Alloc.header; omega) (by unfold Alloc.header; omega)
  have hloop' : freeListFreeLoop A (a.block A).start (h.fl.size + 1)
      ((h.setNodeBlockSize A (a.block A).start a.blockSize).setNodeNext A (a.block A).start 0)
      h.fl.head 0 = some r := hloop
  simp only [freeListFree, if_neg hw.ptr_ne_zero, hheader, hd.padding, hd.blockSize, hstart,
    Heap.setNodeNext_fl, Heap.setNodeBlockSize_fl, hloop', Option.bind_eq_bind, Option.bind_some]
  rfl

/-- `free_list_free` of a live pointer turns its block into free space and changes no byte outside
that block and the free blocks. -/
theorem freeListFree_spec (R : Represents A h free live) (ha : a ∈ live) :
    ∃ h' free', freeListFree A h a.ptr = some h' ∧ h'.fl.data = h.fl.data ∧
      h'.fl.size = h.fl.size ∧ h'.fl.policy = h.fl.policy ∧
      h.mem.EqOff (footprint (a.block A :: free)) h'.mem ∧
      Represents A h' free' (live.erase a) := by
  have hw := R.placed a ha
  obtain ⟨pre, post, r, rfl, hpre, hpost, hloop, hprev, hins⟩ := freeListFreeLoop_spec
    (a.block A).start R.roomy (h.fl.size + 1) 0 (by have := R.length_le; omega)
    (R.chain_freedNode ha)
  rw [hprev] at hins
  obtain ⟨hd', hs', hp', hframe, hH⟩ := inserted_spec R ha (ordered_insert R ha hpre hpost)
  -- The two joins that follow keep the region and what the list represents.
  obtain ⟨hopre, hopost, -⟩ := List.pairwise_append.mp R.separated
  obtain ⟨b', post', hfl₁, hb', hoff₁, hH₁, hsep⟩ := coalesceNext_spec hH hopost
  obtain ⟨free', hfl₂, hoff₂, hR⟩ := coalescePrev_spec hH₁ hopre hsep
  rw [hb'] at hfl₂ hoff₂ hR
  refine ⟨_, free', ?_, ?_, ?_, ?_, ?_, hR⟩
  · rw [freeListFree_eq hw (R.headers a ha) hloop, hprev, hins]
    rfl
  · rw [hfl₂, hfl₁, hd']
  · rw [hfl₂, hfl₁, hs']
  · rw [hfl₂, hfl₁, hp']
  · refine (hframe.trans (hoff₁.mono fun x hx => ⟨a.block A, List.mem_cons_self, ?_⟩)).trans
      (hoff₂.mono fun x ⟨c, hc, hx⟩ => ⟨c, by simp [hc], hx⟩)
    have h₁ := hw.room
    simp only [Set.mem_Ico] at hx
    simp only [Block.mem_def, Block.stop]
    exact ⟨hx.1, lt_of_lt_of_le hx.2 (Nat.add_le_add_left h₁ _)⟩

end Strela.Allocator
