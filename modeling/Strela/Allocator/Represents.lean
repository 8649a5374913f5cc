import Strela.Allocator.Search

/-! # What the memory of a heap represents

Abstractly a heap is its region cut into free blocks and live allocations.
`Represents` relates memory and the `Free_List` to that partition: the blocks
tile the region, the list from the head is the free blocks in address order, and
each live allocation still has the header it was given.
-/

namespace Strela.Allocator

open Foundation Foundation.Unsigned

/-- A live allocation: the request, and what `free_list_alloc` wrote in its header. -/
structure Alloc where
  ptr : ℕ
  origSize : ℕ
  alignment : ℕ
  blockSize : ℕ
  padding : ℕ
  deriving DecidableEq, Repr

namespace Alloc

variable (A : Abi)

def header (a : Alloc) : ℕ := a.ptr - A.sizeofHeader

/-- The whole block: padding, header, payload and what was rounded up. -/
def block (a : Alloc) : Block := ⟨a.header A - a.padding, a.blockSize⟩

def payload (a : Alloc) : Block := ⟨a.ptr, a.origSize⟩

end Alloc

variable (A : Abi)

structure HeaderAt (m : Mem) (a : Alloc) : Prop where
  origSize : headerOrigSize A m (a.header A) = a.origSize
  blockSize : headerBlockSize A m (a.header A) = a.blockSize
  padding : headerPadding A m (a.header A) = a.padding

/-- The shape of a live block: padding, then header, then an aligned payload inside it. -/
structure WellPlaced (a : Alloc) : Prop where
  ptr_lt : a.ptr < A.modulus
  ptr_ge : A.sizeofHeader + a.padding ≤ a.ptr
  aligned : a.ptr % a.alignment = 0
  start_aligned : (a.block A).start % A.maxAlign = 0
  room : A.sizeofNode ≤ a.blockSize
  payload : a.padding + A.sizeofHeader + a.origSize ≤ a.blockSize

/-- The region is tiled by the free blocks, which the list holds in order, and the live ones. -/
structure Holds (h : Heap) (free : List Block) (live : List Alloc) : Prop where
  data_pos : 0 < h.fl.data
  bound : h.fl.data + h.fl.size ≤ A.modulus
  tiles : Tiles h.fl.data (h.fl.data + h.fl.size) (free ++ live.map (Alloc.block A))
  ordered : Ordered free
  aligned : ∀ b ∈ free, b.start % A.maxAlign = 0
  room : ∀ b ∈ free, A.sizeofNode ≤ b.size
  chain : Chain A h.mem h.fl.head free 0
  used : h.fl.used = (live.map Alloc.blockSize).sum
  placed : ∀ a ∈ live, WellPlaced A a
  headers : ∀ a ∈ live, HeaderAt A h.mem a

/-- Between calls no two free blocks touch. -/
structure Represents (h : Heap) (free : List Block) (live : List Alloc) : Prop
    extends Holds A h free live where
  separated : Separated free

variable {A} {m m' : Mem} {S : Set ℕ} {h h' : Heap} {free : List Block} {live : List Alloc}
  {a c : Alloc} {b : Block}

theorem WellPlaced.ptr_ne_zero (w : WellPlaced A a) : a.ptr ≠ 0 := by
  have h₁ := w.ptr_ge
  have h₂ := A.ptrBytes_pos
  unfold Abi.sizeofHeader at h₁
  omega

theorem WellPlaced.header_add (w : WellPlaced A a) : a.header A + A.sizeofHeader = a.ptr := by
  have := w.ptr_ge
  unfold Alloc.header
  omega

theorem WellPlaced.start_add (w : WellPlaced A a) :
    (a.block A).start + (a.padding + A.sizeofHeader) = a.ptr := by
  have := w.ptr_ge
  simp only [Alloc.block, Alloc.header]
  omega

theorem WellPlaced.header_inside (w : WellPlaced A a) {x : ℕ} (hl : a.header A ≤ x)
    (hu : x < a.header A + A.sizeofHeader) : x ∈ a.block A := by
  have h₁ := w.start_add
  have h₂ := w.header_add
  have h₃ := w.payload
  simp only [Block.mem_def, Block.stop, Alloc.block] at h₁ ⊢
  omega

theorem WellPlaced.payload_inside (w : WellPlaced A a) {x : ℕ} (hx : x ∈ a.payload) :
    x ∈ a.block A ∧ a.header A + A.sizeofHeader ≤ x := by
  have h₁ := w.start_add
  have h₂ := w.header_add
  have h₃ := w.payload
  simp only [Block.mem_def, Block.stop, Alloc.block, Alloc.payload] at h₁ hx ⊢
  omega

theorem HeaderAt.eqOff (hd : HeaderAt A m a) (he : m.EqOff S m')
    (hS : ∀ x, a.header A ≤ x → x < a.header A + A.sizeofHeader → x ∉ S) : HeaderAt A m' a := by
  have load {k : ℕ} (hk : k + A.ptrBytes ≤ A.sizeofHeader) :
      m'.load (a.header A + k) A.ptrBytes = m.load (a.header A + k) A.ptrBytes :=
    he.load_eq fun x hl hu => hS x (by omega) (by omega)
  have h₀ := load (k := 0) (by unfold Abi.sizeofHeader; omega)
  have h₁ := load (k := A.ptrBytes) (by unfold Abi.sizeofHeader; omega)
  have h₂ := load (k := 2 * A.ptrBytes) (by unfold Abi.sizeofHeader; omega)
  exact ⟨h₀.trans hd.origSize, h₁.trans hd.blockSize, h₂.trans hd.padding⟩

namespace Holds

variable (R : Holds A h free live)

include R

theorem free_inside (hb : b ∈ free) :
    h.fl.data ≤ b.start ∧ b.stop ≤ h.fl.data + h.fl.size :=
  R.tiles.inside b (List.mem_append_left _ hb)

theorem live_inside (ha : a ∈ live) :
    h.fl.data ≤ (a.block A).start ∧ (a.block A).stop ≤ h.fl.data + h.fl.size :=
  R.tiles.inside _ (List.mem_append_right _ (List.mem_map_of_mem ha))

theorem roomy : Roomy A free := fun b hb => by
  have h₁ := R.data_pos
  have h₂ := (R.free_inside hb).1
  exact ⟨by omega, R.room b hb⟩

theorem size_lt : h.fl.size < A.modulus := by
  have h₁ := R.data_pos
  have h₂ := R.bound
  omega

theorem free_apart_live (hb : b ∈ free) (ha : a ∈ live) : b.Apart (a.block A) :=
  (List.pairwise_append.mp R.tiles.apart).2.2 b hb _ (List.mem_map_of_mem ha)

theorem sum_le : (live.map Alloc.blockSize).sum + (free.map Block.size).sum = h.fl.size := by
  have hs := R.tiles.sum_size
  have hl : (live.map (Alloc.block A)).map Block.size = live.map Alloc.blockSize := by
    simp [Alloc.block, Function.comp_def]
  rw [List.map_append, List.sum_append, hl] at hs
  omega

theorem length_le : free.length ≤ h.fl.size := by
  have h₁ := length_le_sum_size free fun b hb => R.tiles.pos b (List.mem_append_left _ hb)
  have h₂ := R.sum_le
  omega

theorem freeBlocks_eq : freeBlocks A h = free :=
  R.chain.chainBlocks_eq R.roomy (by have := R.length_le; omega)

theorem headers_eqOff (he : h.mem.EqOff (footprint free) m') : ∀ a ∈ live, HeaderAt A m' a := by
  intro a ha
  apply (R.headers a ha).eqOff he
  rintro x hl hu ⟨b, hb, hx⟩
  have h₁ := (R.placed a ha).header_inside hl hu
  have h₂ := R.free_apart_live hb ha
  simp only [Block.Apart, Block.mem_def] at h₁ h₂ hx
  omega

theorem live_apart (ha : a ∈ live) (hc : c ∈ live) (hne : a ≠ c) :
    (a.block A).Apart (c.block A) := by
  have hp := (List.pairwise_append.mp R.tiles.apart).2.1
  have : Std.Symm fun a c : Alloc => (a.block A).Apart (c.block A) :=
    ⟨fun _ _ => Block.Apart.symm⟩
  exact (List.pairwise_map.mp hp).forall ha hc hne

theorem live_nodup : live.Nodup :=
  (R.tiles.nodup.sublist (List.sublist_append_right _ _)).of_map _

theorem headers_eqOff_erase (ha : a ∈ live)
    (he : h.mem.EqOff (footprint (a.block A :: free)) m') :
    ∀ c ∈ live.erase a, HeaderAt A m' c := by
  intro c hc
  obtain ⟨hne, hc⟩ := R.live_nodup.mem_erase_iff.mp hc
  apply (R.headers c hc).eqOff he
  rintro x hl hu ⟨b, hb, hx⟩
  have h₁ := (R.placed c hc).header_inside hl hu
  have h₂ : b.Apart (c.block A) := by
    rcases List.mem_cons.mp hb with rfl | hb
    · exact R.live_apart ha hc hne.symm
    · exact R.free_apart_live hb hc
  simp only [Block.Apart, Block.mem_def] at h₁ h₂ hx
  omega

end Holds

/-- Writes outside the nodes and the headers keep what the heap represents. -/
theorem Represents.eqOff (R : Represents A h free live) (he : h.mem.EqOff S m')
    (hn : ∀ b ∈ free, ∀ x ∈ S, x < b.start ∨ b.start + A.sizeofNode ≤ x)
    (hh : ∀ a ∈ live, ∀ x, a.header A ≤ x → x < a.header A + A.sizeofHeader → x ∉ S) :
    Represents A { h with mem := m' } free live where
  data_pos := R.data_pos
  bound := R.bound
  tiles := R.tiles
  ordered := R.ordered
  aligned := R.aligned
  room := R.room
  chain := R.chain.eqOff he hn
  used := R.used
  placed := R.placed
  headers a ha := (R.headers a ha).eqOff he (hh a ha)
  separated := R.separated

theorem Represents.eqOff_region (R : Represents A h free live) (he : h.mem.EqOff S m')
    (hS : ∀ x ∈ S, x < h.fl.data ∨ h.fl.data + h.fl.size ≤ x) :
    Represents A { h with mem := m' } free live := by
  apply R.eqOff he
  · intro b hb x hx
    have h₁ := R.free_inside hb
    have h₂ := R.room b hb
    have h₃ := hS x hx
    simp only [Block.stop] at h₁
    omega
  · intro a ha x hl hu hx
    have h₁ := R.live_inside ha
    have h₂ := (R.placed a ha).header_inside hl hu
    have h₃ := hS x hx
    simp only [Block.mem_def] at h₂
    omega

end Strela.Allocator
