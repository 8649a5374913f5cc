import Strela.Allocator.Runs

/-! # What every run of the allocator guarantees

In every reachable state the list and the headers in memory cut the region into
free and live blocks. Live allocations are left alone by every call for another
one. The list and `used` depend on the live blocks only, not on how the run came
to them. A request fails only when no gap between the live blocks has room for it,
whatever the policy.
-/

namespace Strela.Allocator

open Foundation Foundation.Unsigned
open scoped List

variable (A : Abi)

/-- The block of the allocation at `ptr`, as its header in memory gives it. -/
def headerBlock (m : Mem) (ptr : ℕ) : Block :=
  let header := ptr - A.sizeofHeader
  ⟨header - headerPadding A m header, headerBlockSize A m header⟩

def liveBlocks (s : State) : List Block := s.live.map fun a => headerBlock A s.heap.mem a.ptr

variable {A} {B : Backing A} {s t u : State} {a : Alloc} {as bs : List Alloc} {m : Mem}

theorem HeaderAt.headerBlock_eq (hd : HeaderAt A m a) : headerBlock A m a.ptr = a.block A := by
  have h₁ := hd.blockSize
  have h₂ := hd.padding
  unfold Alloc.header at h₁ h₂
  simp [headerBlock, Alloc.block, Alloc.header, h₁, h₂]

theorem Valid.liveBlocks_eq (V : Valid B s) : liveBlocks A s = s.live.map (Alloc.block A) :=
  List.map_congr_left fun a ha => (V.represents.headers a ha).headerBlock_eq

theorem Valid.tiles (V : Valid B s) :
    Tiles B.start (B.start + B.length) (freeBlocks A s.heap ++ liveBlocks A s) := by
  rw [V.liveBlocks_eq, ← V.data, ← V.size]
  exact V.represents.tiles

theorem Valid.used_eq (V : Valid B s) :
    s.heap.fl.used = ((liveBlocks A s).map Block.size).sum := by
  rw [V.liveBlocks_eq, V.represents.used, List.map_map]
  rfl

/-! ## The heap invariant -/

/-- The list, the headers and the counters of a state fit together. -/
structure HeapInvariant (B : Backing A) (s : State) : Prop where
  region : s.heap.fl.data = B.start ∧ s.heap.fl.size = B.length
  list : Chain A s.heap.mem s.heap.fl.head (freeBlocks A s.heap) 0
  increasing : (freeBlocks A s.heap).Pairwise fun b c => b.start < c.start
  node_aligned : ∀ b ∈ freeBlocks A s.heap, b.start % A.maxAlign = 0
  node_room : ∀ b ∈ freeBlocks A s.heap, A.sizeofNode ≤ b.size
  tiles : Tiles s.heap.fl.data (s.heap.fl.data + s.heap.fl.size)
    (freeBlocks A s.heap ++ liveBlocks A s)
  apart : ∀ b ∈ freeBlocks A s.heap, ∀ c ∈ freeBlocks A s.heap, b.stop ≠ c.start
  used : s.heap.fl.used = ((liveBlocks A s).map Block.size).sum
  aligned : ∀ a ∈ s.live, a.ptr % a.alignment = 0
  header : ∀ a ∈ s.live, (headerBlock A s.heap.mem a.ptr).start + A.sizeofHeader ≤ a.ptr
  payload : ∀ a ∈ s.live, a.payload.stop ≤ (headerBlock A s.heap.mem a.ptr).stop

theorem Valid.heapInvariant (V : Valid B s) : HeapInvariant B s where
  region := ⟨V.data, V.size⟩
  list := V.represents.chain
  increasing := V.represents.separated.pairwise_start_lt
  node_aligned := V.represents.aligned
  node_room := V.represents.room
  tiles := by
    rw [V.data, V.size]
    exact V.tiles
  apart b hb c hc := by
    rcases eq_or_ne b c with rfl | hne
    · have h₁ := V.represents.room b hb
      have h₂ := A.sizeofNode_pos
      simp only [Block.stop]
      omega
    · have h₁ := V.represents.separated.lt_or_lt hb hc hne
      have h₂ := V.represents.room b hb
      simp only [Block.stop] at h₁ ⊢
      omega
  used := V.used_eq
  aligned a ha := (V.represents.placed a ha).aligned
  header a ha := by
    have h := (V.represents.placed a ha).start_add
    rw [(V.represents.headers a ha).headerBlock_eq]
    omega
  payload a ha := by
    have h₁ := (V.represents.placed a ha).start_add
    have h₂ := (V.represents.placed a ha).payload
    rw [(V.represents.headers a ha).headerBlock_eq]
    simp only [Block.stop, Alloc.payload, Alloc.block] at h₁ ⊢
    omega

/-! A short run on the board: two requests are placed, then the second is released. -/

def smallBacking : Backing Abi.arm32 where
  data := 20
  size := 256
  data_pos := by decide
  bound := by decide
  room := by decide

def smallStart (policy : PlacementPolicy) : State :=
  ⟨(freeListInit Abi.arm32 ⟨fun _ => 0, ⟨0, 0, 0, 0, policy⟩⟩ 20 256).getD
    ⟨fun _ => 0, ⟨0, 0, 0, 0, policy⟩⟩, []⟩

def after (s : State) (op : Op) : State := (exec Abi.arm32 s op).getD s

def smallOne (policy : PlacementPolicy) : State := after (smallStart policy) (.alloc 8 4)

def smallTwo (policy : PlacementPolicy) : State := after (smallOne policy) (.alloc 20 64)

def smallRelease (policy : PlacementPolicy) : State :=
  after (smallTwo policy) (.free ⟨128, 20, 64, 128, 52⟩)

theorem reach_after {B : Backing Abi.arm32} (hr : (heapLts Abi.arm32 B).Reach s) {op : Op}
    (ha : Allowed Abi.arm32 s op) : (heapLts Abi.arm32 B).Reach (after s op) := by
  obtain ⟨s', he, -⟩ := exec_spec (valid_of_reach hr) ha
  refine hr.step ⟨ha, ?_⟩
  rw [after, he, Option.getD_some]

theorem reach_smallOne (policy : PlacementPolicy) :
    (heapLts Abi.arm32 smallBacking).Reach (smallOne policy) := by
  refine reach_after (.start ⟨⟨⟨fun _ => 0, ⟨0, 0, 0, 0, policy⟩⟩, rfl⟩, rfl⟩)
    ⟨⟨⟨2, rfl⟩, by decide, by decide⟩, ?_⟩
  cases policy <;> decide +kernel

theorem reach_smallTwo (policy : PlacementPolicy) :
    (heapLts Abi.arm32 smallBacking).Reach (smallTwo policy) := by
  refine reach_after (reach_smallOne policy) ⟨⟨⟨6, rfl⟩, by decide, by decide⟩, ?_⟩
  cases policy <;> decide +kernel

theorem reach_smallRelease (policy : PlacementPolicy) :
    (heapLts Abi.arm32 smallBacking).Reach (smallRelease policy) := by
  refine reach_after (reach_smallTwo policy) (?_ : _ ∈ (smallTwo policy).live)
  cases policy <;> decide +kernel

/-- In every state of every run the heap invariant holds, and every allowed call returns. -/
theorem reach_heapInvariant (hr : (heapLts A B).Reach s) :
    HeapInvariant B s ∧ ∀ op, Allowed A s op → ∃ s', (heapLts A B).step s op s' := by
  have V := valid_of_reach hr
  refine ⟨V.heapInvariant, fun op ha => ?_⟩
  obtain ⟨s', he, -⟩ := exec_spec V ha
  exact ⟨s', ha, he⟩

theorem reach_heapInvariant_smallTwo : (smallTwo .findBest).live.length = 2 ∧
    HeapInvariant smallBacking (smallTwo .findBest) :=
  ⟨by decide +kernel, (reach_heapInvariant (reach_smallTwo .findBest)).1⟩

/-! ## Live allocations are left alone -/

theorem eq_of_exec {op : Op} (he : exec A s op = some t) :
    (∀ a ∈ t.live, a ∈ s.live → op ≠ .freeAll) ∧
    (s.live.Nodup → ∀ c, op = .free c → c ∉ t.live) := by
  cases op with
  | freeAll =>
    obtain rfl := Option.some.inj he
    simp
  | free c =>
    simp only [exec, Option.bind_eq_bind, Option.bind_eq_some_iff] at he
    obtain ⟨h', -, he⟩ := he
    obtain rfl := Option.some.inj he
    refine ⟨by simp, fun hn d hd hm => ?_⟩
    obtain rfl := Op.free.inj hd
    exact (hn.mem_erase_iff.mp hm).1 rfl
  | alloc | write => simp

/-- An operation writes nothing in the block of an allocation live before and after it, except a
client in a payload. -/
theorem Valid.untouched (V : Valid B s) {op : Op} (hst : (heapLts A B).step s op t)
    (ha : a ∈ s.live) (hat : a ∈ t.live) {x : ℕ} (hx : x ∈ a.block A)
    (hop : op.IsCall ∨ x < a.header A + A.sizeofHeader) : x ∉ touched A s op := by
  obtain ⟨hall, hfree⟩ := eq_of_exec hst.2
  have R := V.represents
  have apart {b : Block} (hb : b ∈ freeBlocks A s.heap) : x ∉ b := fun hxb => by
    have h₁ := R.free_apart_live hb ha
    simp only [Block.Apart, Block.mem_def] at h₁ hx hxb
    omega
  have other {c : Alloc} (hc : c ∈ s.live) (hne : c ≠ a) : x ∉ c.block A := fun hxc => by
    have h₁ := R.live_apart hc ha hne
    simp only [Block.Apart, Block.mem_def] at h₁ hx hxc
    omega
  cases op with
  | alloc size alignment =>
    rintro ⟨b, hb, hxb⟩
    exact apart hb hxb
  | free c =>
    rintro ⟨b, hb, hxb⟩
    rcases List.mem_cons.mp hb with rfl | hb
    · refine other hst.1 ?_ hxb
      rintro rfl
      exact hfree R.live_nodup c rfl hat
    · exact apart hb hxb
  | freeAll => exact absurd rfl (hall a hat ha)
  | write y v =>
    intro hy
    obtain rfl := Set.mem_singleton_iff.mp hy
    obtain ⟨c, hc, hyc⟩ := hst.1
    obtain ⟨hin, hpast⟩ := (R.placed c hc).payload_inside hyc
    rcases hop with hop | hop
    · exact hop
    · by_cases hne : c = a
      · subst hne
        omega
      · exact other hc hne hin

theorem Valid.frame (V : Valid B s) {op : Op} (hst : (heapLts A B).step s op t) :
    s.heap.mem.EqOff (touched A s op) t.heap.mem := by
  obtain ⟨t', ht, -, hoff⟩ := exec_spec V hst.1
  obtain rfl := Option.some.inj (ht.symm.trans hst.2)
  exact hoff

/-- Along every run each live header reads back as it was written, no operation changes a byte of
the header of an allocation that stays live, and no call changes a byte of its payload. -/
theorem reach_live_undisturbed (hr : (heapLts A B).Reach s) :
    (∀ a ∈ s.live, HeaderAt A s.heap.mem a) ∧
    ∀ op t, (heapLts A B).step s op t → ∀ a ∈ s.live, a ∈ t.live →
      (∀ x, a.header A ≤ x → x < a.header A + A.sizeofHeader → t.heap.mem x = s.heap.mem x) ∧
      (op.IsCall → ∀ x ∈ a.payload, t.heap.mem x = s.heap.mem x) := by
  have V := valid_of_reach hr
  refine ⟨V.represents.headers, fun op t hst a ha hat => ⟨fun x hl hu => ?_, fun hop x hx => ?_⟩⟩
  · have hin := (V.represents.placed a ha).header_inside hl hu
    exact V.frame hst x (V.untouched hst ha hat hin (.inr hu))
  · have hin := ((V.represents.placed a ha).payload_inside hx).1
    exact V.frame hst x (V.untouched hst ha hat hin (.inl hop))

theorem reach_live_undisturbed_smallTwo : (smallTwo .findFirst).live ≠ [] ∧
    ∀ a ∈ (smallTwo .findFirst).live, HeaderAt Abi.arm32 (smallTwo .findFirst).heap.mem a :=
  ⟨by decide +kernel, (reach_live_undisturbed (reach_smallTwo .findFirst)).1⟩

/-! ## The list is canonical -/

/-- What the allocator keeps: the head, the list from it, and `used`. -/
def bookkeeping (A : Abi) (h : Heap) : ℕ × List Block × ℕ := (h.fl.head, freeBlocks A h, h.fl.used)

def freeEach (A : Abi) (s : State) : List Alloc → Option State
  | [] => some s
  | a :: as => do
    let s ← exec A s (.free a)
    freeEach A s as

theorem Chain.head_eq {p q : ℕ} {bs : List Block} (hc : Chain A m p bs q) :
    p = (bs.head?.map Block.start).getD q := by
  cases bs with
  | nil => exact hc
  | cons b bs => exact hc.1

/-- The free blocks are the maximal gaps between the live ones. -/
theorem Valid.mem_freeBlocks_iff (V : Valid B s) (b : Block) :
    b ∈ freeBlocks A s.heap ↔ IsGap B.start (B.start + B.length) (liveBlocks A s) b :=
  ⟨isGap_of_mem V.tiles V.represents.separated, mem_of_isGap V.tiles V.represents.separated⟩

theorem Valid.bookkeeping_eq (V : Valid B s) (W : Valid B t)
    (h : ∀ b, b ∈ liveBlocks A s ↔ b ∈ liveBlocks A t) :
    bookkeeping A s.heap = bookkeeping A t.heap := by
  have hfree : freeBlocks A s.heap = freeBlocks A t.heap := by
    apply V.represents.separated.eq_of_mem_iff W.represents.separated
    intro b
    rw [V.mem_freeBlocks_iff, W.mem_freeBlocks_iff]
    exact ⟨IsGap.congr h, IsGap.congr fun b => (h b).symm⟩
  have hhead : s.heap.fl.head = t.heap.fl.head := by
    rw [V.represents.chain.head_eq, W.represents.chain.head_eq, hfree]
  have hused : s.heap.fl.used = t.heap.fl.used := by
    have hs := V.tiles.nodup.sublist (List.sublist_append_right _ _)
    have ht := W.tiles.nodup.sublist (List.sublist_append_right _ _)
    rw [V.used_eq, W.used_eq]
    exact (((List.perm_ext_iff_of_nodup hs ht).mpr h).map Block.size).sum_nat
  rw [bookkeeping, bookkeeping, hfree, hhead, hused]

theorem Valid.bookkeeping_eq_of_live (V : Valid B s) (W : Valid B t) (h : s.live = t.live) :
    bookkeeping A s.heap = bookkeeping A t.heap :=
  V.bookkeeping_eq W fun b => by rw [V.liveBlocks_eq, W.liveBlocks_eq, h]

theorem Valid.bookkeeping_of_nil (V : Valid B s) (h : s.live = []) :
    bookkeeping A s.heap = (B.start, [⟨B.start, B.length⟩], 0) := by
  have hrep : Represents A (freeListFreeAll A s.heap) [⟨s.heap.fl.data, s.heap.fl.size⟩] [] := by
    refine freeListFreeAll_spec V.represents.data_pos V.represents.bound ?_ ?_
    · rw [V.data]
      exact roundUp_mod _ A.maxAlign_pos
    · rw [V.size]
      exact B.node_le_length
  have W : Valid B ⟨freeListFreeAll A s.heap, []⟩ := .of_represents V.data V.size hrep
  rw [V.bookkeeping_eq_of_live W h, bookkeeping, hrep.freeBlocks_eq, V.data, V.size]
  simp [freeListFreeAll, Heap.setHead, V.data]

theorem freeEach_spec (V : Valid B s) (hn : as.Nodup) (ha : ∀ a ∈ as, a ∈ s.live) :
    ∃ t, freeEach A s as = some t ∧ Valid B t ∧ t.live = s.live.diff as := by
  induction as generalizing s with
  | nil => exact ⟨s, rfl, V, rfl⟩
  | cons a as ih =>
    obtain ⟨hna, hn⟩ := List.nodup_cons.mp hn
    have hal : Allowed A s (.free a) := ha a List.mem_cons_self
    obtain ⟨s', he, V', -⟩ := exec_spec V hal
    have hlive : s'.live = s.live.erase a := by
      obtain ⟨h', -, he⟩ := Option.bind_eq_some_iff.mp he
      obtain rfl := Option.some.inj he
      rfl
    obtain ⟨t, ht, Vt, htl⟩ := ih V' hn fun c hc => by
      rw [hlive]
      refine (List.mem_erase_of_ne ?_).mpr (ha c (List.mem_cons_of_mem _ hc))
      rintro rfl
      exact hna hc
    refine ⟨t, ?_, Vt, by rw [htl, hlive, List.diff_cons]⟩
    simp [freeEach, he, ht]

/-- On one buffer the list and `used` are a function of the set of live blocks: the list holds the
maximal gaps they leave, in address order. Releases commute, and releasing everything gives back
what `free_list_init` made. -/
theorem reach_canonical (hs : (heapLts A B).Reach s) (ht : (heapLts A B).Reach t) :
    ((∀ b, b ∈ liveBlocks A s ↔ b ∈ liveBlocks A t) →
      bookkeeping A s.heap = bookkeeping A t.heap) ∧
    ((∀ b, b ∈ freeBlocks A s.heap ↔
        IsGap s.heap.fl.data (s.heap.fl.data + s.heap.fl.size) (liveBlocks A s) b) ∧
      (freeBlocks A s.heap).Pairwise fun b c => b.start < c.start) ∧
    (∀ as bs, as.Nodup → (∀ a ∈ as, a ∈ s.live) → as ~ bs →
      ∃ u v, freeEach A s as = some u ∧ freeEach A s bs = some v ∧ u.live = v.live ∧
        bookkeeping A u.heap = bookkeeping A v.heap) ∧
    (∀ as, as ~ s.live → ∃ u, freeEach A s as = some u ∧ u.live = [] ∧
      bookkeeping A u.heap =
        (s.heap.fl.data, [⟨s.heap.fl.data, s.heap.fl.size⟩], 0) ∧
      ∀ h i, freeListInit A h B.data B.size = some i →
        bookkeeping A u.heap = bookkeeping A i) := by
  have V := valid_of_reach hs
  refine ⟨V.bookkeeping_eq (valid_of_reach ht), ⟨fun b => ?_, ?_⟩, fun as bs hn ha hp => ?_,
    fun as hp => ?_⟩
  · rw [V.data, V.size]
    exact V.mem_freeBlocks_iff b
  · exact V.represents.separated.pairwise_start_lt
  · obtain ⟨u, hu, Vu, hul⟩ := freeEach_spec V hn ha
    obtain ⟨v, hv, Vv, hvl⟩ := freeEach_spec V (hp.nodup_iff.mp hn)
      fun a hm => ha a (hp.mem_iff.mpr hm)
    have hlive : u.live = v.live := by rw [hul, hvl, hp.diff_left]
    exact ⟨u, v, hu, hv, hlive, Vu.bookkeeping_eq_of_live Vv hlive⟩
  · have hn := hp.nodup_iff.mpr V.represents.live_nodup
    obtain ⟨u, hu, Vu, hul⟩ := freeEach_spec V hn fun a hm => hp.mem_iff.mp hm
    have hnil : u.live = [] := by
      rw [hul, List.eq_nil_iff_forall_not_mem]
      intro a ha
      obtain ⟨hm, hnm⟩ := V.represents.live_nodup.mem_sdiff_iff.mp ha
      exact hnm (hp.mem_iff.mpr hm)
    refine ⟨u, hu, hnil, ?_, fun h i hi => ?_⟩
    · rw [Vu.bookkeeping_of_nil hnil, V.data, V.size]
    · have W := valid_of_reach (.start (s := ⟨i, []⟩) ⟨⟨h, hi⟩, rfl⟩ : (heapLts A B).Reach _)
      exact Vu.bookkeeping_eq_of_live W hnil

theorem reach_canonical_smallRelease : (smallRelease .findBest).live ≠ [] ∧
    bookkeeping Abi.arm32 (smallRelease .findBest).heap =
      bookkeeping Abi.arm32 (smallOne .findFirst).heap := by
  refine ⟨by decide +kernel,
    (reach_canonical (reach_smallRelease .findBest) (reach_smallOne .findFirst)).1 fun b => ?_⟩
  have h : liveBlocks Abi.arm32 (smallRelease .findBest) =
      liveBlocks Abi.arm32 (smallOne .findFirst) := by decide +kernel
  rw [h]

/-! ## When a request fails -/

def Heap.withPolicy (h : Heap) (policy : PlacementPolicy) : Heap :=
  { h with fl := { h.fl with policy } }

/-- Some maximal gap between the live blocks has room for the request, with the size, the alignment
and the padding as `free_list_alloc` computes them. -/
def GapFits (A : Abi) (s : State) (size alignment : ℕ) : Prop :=
  ∃ g n pad, IsGap s.heap.fl.data (s.heap.fl.data + s.heap.fl.size) (liveBlocks A s) g ∧
    alignForwardSize A (max size A.sizeofNode) (max alignment A.maxAlign) = some n ∧
    calcPaddingWithHeader A g.start (max alignment A.maxAlign) A.sizeofHeader = some pad ∧
    n + pad ≤ g.size

theorem Represents.withPolicy {free : List Block} {live : List Alloc} {h : Heap}
    (R : Represents A h free live) (policy : PlacementPolicy) :
    Represents A (h.withPolicy policy) free live :=
  ⟨⟨R.data_pos, R.bound, R.tiles, R.ordered, R.aligned, R.room, R.chain, R.used, R.placed,
    R.headers⟩, R.separated⟩

theorem Valid.gapFits_iff (V : Valid B s) {size alignment : ℕ}
    (ha : Allowed A s (.alloc size alignment)) : GapFits A s size alignment ↔
      ∃ b ∈ freeBlocks A s.heap,
        Fits A (roundedSize A size alignment) (roundedAlignment A alignment) b := by
  obtain ⟨q, hw⟩ := ha
  have hround : alignForwardSize A (max size A.sizeofNode) (max alignment A.maxAlign) =
      some (roundedSize A size alignment) :=
    alignForward_eq q.rounded.pow2 q.rounded.lt q.round_lt
  have hpad {b : Block} (hb : b ∈ freeBlocks A s.heap) :
      calcPaddingWithHeader A b.start (max alignment A.maxAlign) A.sizeofHeader =
        some (padding A (roundedAlignment A alignment) b) :=
    calcPadding_block q.rounded.pow2 q.rounded.lt (hw b hb)
  have hgap (b : Block) : b ∈ freeBlocks A s.heap ↔
      IsGap s.heap.fl.data (s.heap.fl.data + s.heap.fl.size) (liveBlocks A s) b := by
    rw [V.data, V.size]
    exact V.mem_freeBlocks_iff b
  constructor
  · rintro ⟨g, n, pad, hg, hn, hp, hle⟩
    have hb := (hgap g).mpr hg
    obtain rfl := Option.some.inj (hround.symm.trans hn)
    obtain rfl := Option.some.inj ((hpad hb).symm.trans hp)
    exact ⟨g, hb, hle⟩
  · rintro ⟨b, hb, hfit⟩
    exact ⟨b, _, _, (hgap b).mp hb, hround, hpad hb, hfit⟩

/-- In the same state a request has one outcome under both policies: it gets a pointer if some gap
has room for it, and otherwise null, with the heap as it was. -/
theorem alloc_null_iff (hr : (heapLts A B).Reach s) {size alignment : ℕ}
    (ha : Allowed A s (.alloc size alignment)) :
    ∃ r : PlacementPolicy → Heap × ℕ,
      (∀ p, freeListAlloc A (s.heap.withPolicy p) size alignment = some (r p)) ∧
      (∀ p, (r p).2 = 0 ↔ ¬ GapFits A s size alignment) ∧
      (∀ p q, (r p).2 = 0 ↔ (r q).2 = 0) ∧
      ∀ p, (r p).2 = 0 → (r p).1 = s.heap.withPolicy p := by
  have V := valid_of_reach hr
  have outcome (p : PlacementPolicy) : ∃ r : Heap × ℕ,
      freeListAlloc A (s.heap.withPolicy p) size alignment = some r ∧
      (r.2 = 0 ↔ ¬ GapFits A s size alignment) ∧ (r.2 = 0 → r.1 = s.heap.withPolicy p) := by
    rw [V.gapFits_iff ha]
    rcases freeListAlloc_placed (V.represents.withPolicy p) ha.1 ha.2 with
      ⟨he, hn⟩ | ⟨h', free', b, hb, hfit, he, -, -, -, -, R⟩
    · refine ⟨_, he, ?_, fun _ => rfl⟩
      simpa using hn
    · have hne := (R.placed _ List.mem_cons_self).ptr_ne_zero
      refine ⟨_, he, ?_, fun hz => absurd hz hne⟩
      exact iff_of_false hne fun hno => hno ⟨b, hb, hfit⟩
  choose r he hz hu using outcome
  exact ⟨r, he, hz, fun p q => (hz p).trans (hz q).symm, hu⟩

/-- A request for more than the small buffer has is refused under both policies. -/
theorem alloc_null_iff_smallOne : ∃ r : PlacementPolicy → Heap × ℕ,
    (∀ p, freeListAlloc Abi.arm32 ((smallOne .findFirst).heap.withPolicy p) 200 64 = some (r p)) ∧
    (∀ p, (r p).2 = 0) ∧ ∀ p, (r p).1 = (smallOne .findFirst).heap.withPolicy p := by
  have hallowed : Allowed Abi.arm32 (smallOne .findFirst) (.alloc 200 64) :=
    ⟨⟨⟨6, rfl⟩, by decide, by decide⟩, by decide +kernel⟩
  obtain ⟨r, he, -, hsame, hunchanged⟩ := alloc_null_iff (reach_smallOne .findFirst) hallowed
  have hnull : (freeListAlloc Abi.arm32 ((smallOne .findFirst).heap.withPolicy .findFirst) 200
      64).map Prod.snd = some 0 := by decide +kernel
  rw [he .findFirst] at hnull
  have hall (p : PlacementPolicy) : (r p).2 = 0 :=
    (hsame .findFirst p).mp (Option.some.inj hnull)
  exact ⟨r, he, hall, fun p => hunchanged p (hall p)⟩

end Strela.Allocator
