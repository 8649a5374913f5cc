import Mathlib

/-! # Blocks of a linear address space

Half-open blocks, lists of blocks that tile a region exactly, and lists of
blocks that are in order and do not touch. A separated list that tiles a region
together with other blocks is the list of the maximal gaps the others leave.
-/

namespace Foundation

/-- The addresses from `start` to just below `start + size`. -/
structure Block where
  start : ℕ
  size : ℕ
  deriving DecidableEq, Repr

namespace Block

def stop (b : Block) : ℕ := b.start + b.size

instance : Membership ℕ Block := ⟨fun b x => b.start ≤ x ∧ x < b.stop⟩

theorem mem_def {b : Block} {x : ℕ} : x ∈ b ↔ b.start ≤ x ∧ x < b.stop := Iff.rfl

instance (x : ℕ) (b : Block) : Decidable (x ∈ b) := inferInstanceAs (Decidable (_ ∧ _))

/-- The blocks share no address, one lying wholly before the other. -/
def Apart (b c : Block) : Prop := b.stop ≤ c.start ∨ c.stop ≤ b.start

theorem Apart.symm {b c : Block} (h : b.Apart c) : c.Apart b := Or.symm h

theorem Apart.notMem {b c : Block} {x : ℕ} (h : b.Apart c) (hx : x ∈ b) : x ∉ c := by
  simp only [Apart, stop, mem_def] at h hx ⊢
  omega

instance (b c : Block) : Decidable (b.Apart c) := inferInstanceAs (Decidable (_ ∨ _))

end Block

def footprint (bs : List Block) : Set ℕ := {x | ∃ b ∈ bs, x ∈ b}

/-- Nonempty blocks that cover `[lo, hi)` with no gap, no overlap and nothing outside. -/
structure Tiles (lo hi : ℕ) (bs : List Block) : Prop where
  pos : ∀ b ∈ bs, 0 < b.size
  inside : ∀ b ∈ bs, lo ≤ b.start ∧ b.stop ≤ hi
  apart : bs.Pairwise Block.Apart
  cover : ∀ x, lo ≤ x → x < hi → ∃ b ∈ bs, x ∈ b

/-- The blocks are in address order and do not overlap. -/
def Ordered (bs : List Block) : Prop := bs.Pairwise fun b c => b.stop ≤ c.start

/-- The blocks are in address order and no two touch. -/
def Separated (bs : List Block) : Prop := bs.Pairwise fun b c => b.stop < c.start

/-- A nonempty block of `[lo, hi)` free of `occupied` blocks that cannot be extended either way. -/
structure IsGap (lo hi : ℕ) (occupied : List Block) (g : Block) : Prop where
  pos : 0 < g.size
  inside : lo ≤ g.start ∧ g.stop ≤ hi
  free : ∀ b ∈ occupied, ∀ x ∈ g, x ∉ b
  left : g.start = lo ∨ ∃ b ∈ occupied, g.start - 1 ∈ b
  right : g.stop = hi ∨ ∃ b ∈ occupied, g.stop ∈ b

namespace Tiles

variable {lo hi s n k : ℕ} {bs cs free occupied : List Block} {b c : Block}

theorem perm (h : Tiles lo hi bs) (hp : bs.Perm cs) : Tiles lo hi cs where
  pos b hb := h.pos b (hp.mem_iff.mpr hb)
  inside b hb := h.inside b (hp.mem_iff.mpr hb)
  apart := (hp.pairwise_iff Block.Apart.symm).mp h.apart
  cover x hl hh := by
    obtain ⟨b, hb, hx⟩ := h.cover x hl hh
    exact ⟨b, hp.mem_iff.mp hb, hx⟩

theorem singleton (h : 0 < n) : Tiles lo (lo + n) [⟨lo, n⟩] where
  pos b hb := by
    obtain rfl := List.mem_singleton.mp hb
    exact h
  inside b hb := by
    obtain rfl := List.mem_singleton.mp hb
    exact ⟨le_rfl, le_rfl⟩
  apart := List.pairwise_singleton _ _
  cover x hl hh := ⟨_, List.mem_singleton_self _, hl, hh⟩

theorem split (h : Tiles lo hi (⟨s, n + k⟩ :: bs)) (hn : 0 < n) (hk : 0 < k) :
    Tiles lo hi (⟨s, n⟩ :: ⟨s + n, k⟩ :: bs) where
  pos b hb := by
    rcases List.mem_cons.mp hb with rfl | hb
    · exact hn
    rcases List.mem_cons.mp hb with rfl | hb
    · exact hk
    · exact h.pos b (List.mem_cons_of_mem _ hb)
  inside b hb := by
    have hi := h.inside ⟨s, n + k⟩ List.mem_cons_self
    simp only [Block.stop] at hi
    rcases List.mem_cons.mp hb with rfl | hb
    · simp only [Block.stop]; omega
    rcases List.mem_cons.mp hb with rfl | hb
    · simp only [Block.stop]; omega
    · exact h.inside b (List.mem_cons_of_mem _ hb)
  apart := by
    obtain ⟨ha, hr⟩ := List.pairwise_cons.mp h.apart
    refine List.pairwise_cons.mpr ⟨fun c hc => ?_, List.pairwise_cons.mpr ⟨fun c hc => ?_, hr⟩⟩
    · rcases List.mem_cons.mp hc with rfl | hc
      · exact Or.inl le_rfl
      · have := ha c hc
        simp only [Block.Apart, Block.stop] at this ⊢
        omega
    · have := ha c hc
      simp only [Block.Apart, Block.stop] at this ⊢
      omega
  cover x hl hh := by
    obtain ⟨b, hb, hx⟩ := h.cover x hl hh
    rcases List.mem_cons.mp hb with rfl | hb
    · simp only [Block.mem_def, Block.stop] at hx
      by_cases hlt : x < s + n
      · exact ⟨_, List.mem_cons_self, hx.1, hlt⟩
      · refine ⟨_, List.mem_cons_of_mem _ List.mem_cons_self, ?_⟩
        simp only [Block.mem_def, Block.stop]
        omega
    · exact ⟨b, List.mem_cons_of_mem _ (List.mem_cons_of_mem _ hb), hx⟩

theorem join (h : Tiles lo hi (⟨s, n⟩ :: ⟨s + n, k⟩ :: bs)) : Tiles lo hi (⟨s, n + k⟩ :: bs) where
  pos b hb := by
    rcases List.mem_cons.mp hb with rfl | hb
    · exact Nat.add_pos_left (h.pos ⟨s, n⟩ List.mem_cons_self) k
    · exact h.pos b (List.mem_cons_of_mem _ (List.mem_cons_of_mem _ hb))
  inside b hb := by
    have h₁ := h.inside ⟨s, n⟩ List.mem_cons_self
    have h₂ := h.inside ⟨s + n, k⟩ (List.mem_cons_of_mem _ List.mem_cons_self)
    simp only [Block.stop] at h₁ h₂
    rcases List.mem_cons.mp hb with rfl | hb
    · simp only [Block.stop]; omega
    · exact h.inside b (List.mem_cons_of_mem _ (List.mem_cons_of_mem _ hb))
  apart := by
    obtain ⟨h₁, hr⟩ := List.pairwise_cons.mp h.apart
    obtain ⟨h₂, hr⟩ := List.pairwise_cons.mp hr
    refine List.pairwise_cons.mpr ⟨fun c hc => ?_, hr⟩
    have hc₁ := h₁ c (List.mem_cons_of_mem _ hc)
    have hc₂ := h₂ c hc
    have hpos := h.pos c (List.mem_cons_of_mem _ (List.mem_cons_of_mem _ hc))
    simp only [Block.Apart, Block.stop] at hc₁ hc₂ ⊢
    omega
  cover x hl hh := by
    obtain ⟨b, hb, hx⟩ := h.cover x hl hh
    rcases List.mem_cons.mp hb with rfl | hb
    · refine ⟨_, List.mem_cons_self, ?_⟩
      simp only [Block.mem_def, Block.stop] at hx ⊢
      omega
    rcases List.mem_cons.mp hb with rfl | hb
    · refine ⟨_, List.mem_cons_self, ?_⟩
      simp only [Block.mem_def, Block.stop] at hx ⊢
      omega
    · exact ⟨b, List.mem_cons_of_mem _ hb, hx⟩

theorem nodup (h : Tiles lo hi bs) : bs.Nodup :=
  h.apart.imp_of_mem fun {b c} hb _ ha he => by
    subst he
    have := h.pos b hb
    simp only [Block.Apart, Block.stop] at ha
    omega

def addresses (bs : List Block) : Finset ℕ := bs.foldr (fun b s => Finset.Ico b.start b.stop ∪ s) ∅

theorem mem_addresses {x : ℕ} : x ∈ addresses bs ↔ ∃ b ∈ bs, x ∈ b := by
  induction bs with
  | nil => simp [addresses]
  | cons b bs ih =>
    rw [addresses, List.foldr_cons, Finset.mem_union, Finset.mem_Ico, ← addresses, ih]
    simp [Block.mem_def]

theorem card_addresses (h : bs.Pairwise Block.Apart) :
    (addresses bs).card = (bs.map Block.size).sum := by
  induction bs with
  | nil => rfl
  | cons b bs ih =>
    obtain ⟨hb, hbs⟩ := List.pairwise_cons.mp h
    have hd : Disjoint (Finset.Ico b.start b.stop) (addresses bs) := by
      rw [Finset.disjoint_left]
      intro x hx hm
      obtain ⟨c, hc, hxc⟩ := mem_addresses.mp hm
      exact (hb c hc).notMem (Finset.mem_Ico.mp hx) hxc
    rw [addresses, List.foldr_cons, ← addresses, Finset.card_union_of_disjoint hd, ih hbs,
      Nat.card_Ico]
    simp [Block.stop]

theorem sum_size (h : Tiles lo hi bs) : (bs.map Block.size).sum = hi - lo := by
  have he : addresses bs = Finset.Ico lo hi := by
    ext x
    rw [mem_addresses, Finset.mem_Ico]
    constructor
    · rintro ⟨b, hb, hx⟩
      have := h.inside b hb
      simp only [Block.mem_def] at hx
      omega
    · rintro ⟨hl, hh⟩
      exact h.cover x hl hh
  rw [← card_addresses h.apart, he, Nat.card_Ico]

end Tiles

theorem size_le_sum_size {bs : List Block} {b : Block} (hb : b ∈ bs) :
    b.size ≤ (bs.map Block.size).sum :=
  List.le_sum_of_mem (List.mem_map_of_mem hb)

theorem length_le_sum_size (bs : List Block) (h : ∀ b ∈ bs, 0 < b.size) :
    bs.length ≤ (bs.map Block.size).sum := by
  induction bs with
  | nil => simp
  | cons b bs ih =>
    have hb := h b List.mem_cons_self
    have := ih fun c hc => h c (List.mem_cons_of_mem _ hc)
    simp only [List.length_cons, List.map_cons, List.sum_cons]
    omega

namespace Separated

variable {bs cs : List Block} {b c : Block}

theorem lt_or_lt (h : Separated bs) (hb : b ∈ bs) (hc : c ∈ bs) (hne : b ≠ c) :
    b.stop < c.start ∨ c.stop < b.start :=
  have : Std.Symm fun b c : Block => b.stop < c.start ∨ c.stop < b.start := ⟨fun _ _ => Or.symm⟩
  (h.imp Or.inl : bs.Pairwise fun b c => b.stop < c.start ∨ c.stop < b.start).forall hb hc hne

theorem ordered (h : Separated bs) : Ordered bs := h.imp le_of_lt

theorem pairwise_start_lt (h : Separated bs) : bs.Pairwise fun b c => b.start < c.start :=
  h.imp fun h => lt_of_le_of_lt (Nat.le_add_right _ _) h

/-- Separated lists with the same blocks are the same list. -/
theorem eq_of_mem_iff (hb : Separated bs) (hc : Separated cs) (h : ∀ b, b ∈ bs ↔ b ∈ cs) :
    bs = cs := by
  have hnb : bs.Nodup := hb.pairwise_start_lt.imp fun hlt he => by simp [he] at hlt
  have hnc : cs.Nodup := hc.pairwise_start_lt.imp fun hlt he => by simp [he] at hlt
  apply ((List.perm_ext_iff_of_nodup hnb hnc).mpr h).eq_of_pairwise _ hb.pairwise_start_lt
    hc.pairwise_start_lt
  intro b c _ _ hlt hgt
  omega

end Separated

section Gaps

variable {lo hi : ℕ} {free occupied : List Block} {b c : Block} {x : ℕ}

theorem IsGap.congr {lo hi : ℕ} {occ occ' : List Block} {g : Block}
    (h : ∀ b, b ∈ occ ↔ b ∈ occ') (hg : IsGap lo hi occ g) : IsGap lo hi occ' g where
  pos := hg.pos
  inside := hg.inside
  free b hb := hg.free b ((h b).mpr hb)
  left := hg.left.imp_right fun ⟨b, hb, hx⟩ => ⟨b, (h b).mp hb, hx⟩
  right := hg.right.imp_right fun ⟨b, hb, hx⟩ => ⟨b, (h b).mp hb, hx⟩

/-- A gap starts at the end of the region or where an occupied block stops. -/
theorem IsGap.start_eq {lo hi : ℕ} {occ : List Block} {g : Block} (hg : IsGap lo hi occ g) :
    g.start = lo ∨ ∃ b ∈ occ, g.start = b.stop := by
  have hpos := hg.pos
  rcases hg.left with h | ⟨b, hb, hx⟩
  · exact .inl h
  · right
    refine ⟨b, hb, ?_⟩
    have hfree := hg.free b hb g.start ⟨le_rfl, by simp only [Block.stop]; omega⟩
    simp only [Block.mem_def] at hx hfree
    omega

theorem IsGap.stop_eq {lo hi : ℕ} {occ : List Block} {g : Block} (hg : IsGap lo hi occ g) :
    g.stop = hi ∨ ∃ b ∈ occ, g.stop = b.start := by
  have hpos := hg.pos
  rcases hg.right with h | ⟨b, hb, hx⟩
  · exact .inl h
  · right
    refine ⟨b, hb, ?_⟩
    have hfree := hg.free b hb (g.stop - 1) (by simp only [Block.mem_def, Block.stop]; omega)
    simp only [Block.mem_def, Block.stop] at hx hfree ⊢
    omega

theorem not_mem_free_of_next (h : Tiles lo hi (free ++ occupied)) (hs : Separated free)
    (hb : b ∈ free) (hx : x + 1 = b.start ∨ x = b.stop) (hc : c ∈ free) : x ∉ c := by
  intro hxc
  have hpos := h.pos b (List.mem_append_left _ hb)
  rcases eq_or_ne b c with rfl | hne
  · simp only [Block.mem_def, Block.stop] at hx hxc
    omega
  · have := hs.lt_or_lt hb hc hne
    simp only [Block.mem_def, Block.stop] at hx hxc this
    omega

theorem isGap_of_mem (h : Tiles lo hi (free ++ occupied)) (hs : Separated free) (hb : b ∈ free) :
    IsGap lo hi occupied b := by
  have hm := List.mem_append_left occupied hb
  obtain ⟨hlo, hhi⟩ := h.inside b hm
  have next {x : ℕ} (hl : lo ≤ x) (hh : x < hi) (hx : x + 1 = b.start ∨ x = b.stop) :
      ∃ c ∈ occupied, x ∈ c := by
    obtain ⟨c, hc, hxc⟩ := h.cover x hl hh
    rcases List.mem_append.mp hc with hc | hc
    · exact absurd hxc (not_mem_free_of_next h hs hb hx hc)
    · exact ⟨c, hc, hxc⟩
  refine ⟨h.pos b hm, ⟨hlo, hhi⟩, fun c hc x hx => ?_, ?_, ?_⟩
  · exact ((List.pairwise_append.mp h.apart).2.2 b hb c hc).notMem hx
  · rcases Nat.eq_or_lt_of_le hlo with he | hlt
    · exact .inl he.symm
    · exact .inr (next (by omega) (by simp only [Block.stop] at hhi; omega) (.inl (by omega)))
  · rcases Nat.eq_or_lt_of_le hhi with he | hlt
    · exact .inl he
    · exact .inr (next (by simp only [Block.stop]; omega) hlt (.inr rfl))

theorem mem_of_isGap (h : Tiles lo hi (free ++ occupied)) (hs : Separated free)
    (hg : IsGap lo hi occupied b) : b ∈ free := by
  have hpos := hg.pos
  obtain ⟨hlo, hhi⟩ := hg.inside
  have hstart : b.start ∈ b := ⟨le_rfl, by simp only [Block.stop]; omega⟩
  obtain ⟨c, hc, hbc⟩ := h.cover b.start hlo (by simp only [Block.stop] at hhi; omega)
  rcases List.mem_append.mp hc with hc | hc
  · -- The free block at the gap's start is neither longer nor shorter at either end.
    obtain ⟨hclo, hchi⟩ := h.inside c (List.mem_append_left _ hc)
    have apart : ∀ d ∈ occupied, ∀ x ∈ c, x ∉ d := fun d hd x hx =>
      ((List.pairwise_append.mp h.apart).2.2 c hc d hd).notMem hx
    have he : c.start = b.start := by
      rcases hg.left with he | ⟨d, hd, hxd⟩
      · have := hbc.1
        omega
      · by_contra hne
        have hmem := hbc
        simp only [Block.mem_def] at hmem
        refine apart d hd _ ⟨?_, ?_⟩ hxd <;> omega
    have hcb : c.stop ≤ b.stop := by
      rcases hg.right with he | ⟨d, hd, hxd⟩
      · omega
      · by_contra hlt
        refine apart d hd _ ⟨?_, by omega⟩ hxd
        simp only [Block.stop]
        omega
    have hbc' : b.stop ≤ c.stop := by
      by_contra hlt
      -- The address after `c` is in the gap, so it is free, yet no free block can hold it.
      have hm : c.stop ∈ b := ⟨by simp only [Block.stop]; omega, by omega⟩
      obtain ⟨d, hd, hxd⟩ := h.cover c.stop (by simp only [Block.stop]; omega) (by omega)
      rcases List.mem_append.mp hd with hd | hd
      · exact not_mem_free_of_next h hs hc (.inr rfl) hd hxd
      · exact hg.free d hd _ hm hxd
    have : c = b := by
      cases b; cases c
      simp only [Block.stop, Block.mk.injEq] at *
      omega
    exact this ▸ hc
  · exact absurd hbc (hg.free c hc _ hstart)

end Gaps

end Foundation
