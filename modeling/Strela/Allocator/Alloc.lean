import Strela.Allocator.Represents

/-! # Allocation

`free_list_alloc` cuts the block a search returned in two, or takes it whole when
the remainder is too small for a node, unlinks it, and writes the header. It
writes inside free blocks only.
-/

namespace Strela.Allocator

open Foundation Foundation.Unsigned
open scoped List

variable {A : Abi} {h : Heap} {pre post : List Block} {live : List Alloc} {b : Block}
  {n k size origSize a alignment : ℕ}

/-- The free blocks left of `b` once `k` of its bytes are taken. -/
def leftover (b : Block) (k : ℕ) : List Block :=
  if k = b.size then [] else [⟨b.start + k, b.size - k⟩]

/-- What `free_list_alloc` takes of a block of which `n` bytes are required. -/
def taken (A : Abi) (b : Block) (n : ℕ) : ℕ :=
  if A.sizeofNode + A.sizeofNode ≤ b.size - n then n else b.size

theorem le_taken (h : n ≤ b.size) : n ≤ taken A b n := by
  unfold taken
  split <;> omega

theorem taken_le (h : n ≤ b.size) : taken A b n ≤ b.size := by
  unfold taken
  split <;> omega

theorem leftover_room : ∀ c ∈ leftover b (taken A b n), A.sizeofNode ≤ c.size := by
  intro c hc
  unfold leftover taken at hc
  split_ifs at hc with h₁ h₂ h₃
  · simp at hc
  · obtain rfl := List.mem_singleton.mp hc
    simp only
    omega
  · simp at hc
  · simp at h₃

theorem forall_leftover {P : Block → Prop} (hf : ∀ c ∈ pre ++ b :: post, P c)
    (hl : ∀ c ∈ leftover b k, P c) : ∀ c ∈ pre ++ (leftover b k ++ post), P c := by
  intro c hc
  rcases List.mem_append.mp hc with hc | hc
  · exact hf c (List.mem_append_left _ hc)
  rcases List.mem_append.mp hc with hc | hc
  · exact hl c hc
  · exact hf c (List.mem_append_right _ (List.mem_cons_of_mem _ hc))

theorem split_node (hn : A.sizeofNode ≤ n) (hs : n + A.sizeofNode ≤ b.size) (hb : b.start ≠ 0)
    (hM : b.stop ≤ A.modulus) :
    let h' := freeListNodeInsert A (h.setNodeBlockSize A (b.start + n) (b.size - n)) b.start
      (b.start + n)
    h'.fl = h.fl ∧ h.mem.EqOff {x | x ∈ b} h'.mem ∧ nodeNext A h'.mem b.start = b.start + n ∧
      nodeNext A h'.mem (b.start + n) = nodeNext A h.mem b.start ∧
      nodeBlockSize A h'.mem (b.start + n) = b.size - n := by
  have hpos := A.ptrBytes_pos
  simp only [Block.stop] at hM
  have hptr : 2 * A.ptrBytes = A.sizeofNode := rfl
  have hne : b.start + n ≠ 0 := by omega
  simp only [freeListNodeInsert_eq (A := A) (p := b.start) (q := b.start + n) fun _ => by omega,
    Heap.setLink, if_neg hb, Heap.link]
  -- The remainder's node lies past the node of the block itself.
  have hnext : nodeNext A (h.setNodeBlockSize A (b.start + n) (b.size - n)).mem b.start =
      nodeNext A h.mem b.start := Mem.load_store_of_disjoint (by omega)
  rw [hnext]
  have hlt : nodeNext A h.mem b.start < A.modulus := Mem.load_lt ..
  have hin : ∀ x, b.start ≤ x → x < b.start + A.sizeofNode → x ∈ b := fun x hl hu =>
    ⟨hl, by simp only [Block.stop]; omega⟩
  have hin' : ∀ x, b.start + n ≤ x → x < b.start + n + A.sizeofNode → x ∈ b := fun x hl hu =>
    ⟨by omega, by simp only [Block.stop]; omega⟩
  refine ⟨rfl, ?_, nodeNext_setNodeNext (by omega), ?_, ?_⟩
  · exact ((eqOff_setNodeBlockSize hin').trans (eqOff_setNodeNext hin')).trans
      (eqOff_setNodeNext hin)
  · calc nodeNext A _ (b.start + n)
      _ = nodeNext A ((h.setNodeBlockSize A (b.start + n) (b.size - n)).setNodeNext A
            (b.start + n) (nodeNext A h.mem b.start)).mem (b.start + n) :=
          Mem.load_store_of_disjoint (by omega)
      _ = nodeNext A h.mem b.start := nodeNext_setNodeNext hlt
  · calc nodeBlockSize A _ (b.start + n)
      _ = nodeBlockSize A ((h.setNodeBlockSize A (b.start + n) (b.size - n)).setNodeNext A
            (b.start + n) (nodeNext A h.mem b.start)).mem (b.start + n) :=
          Mem.load_store_of_disjoint (by omega)
      _ = nodeBlockSize A (h.setNodeBlockSize A (b.start + n) (b.size - n)).mem (b.start + n) :=
          nodeBlockSize_setNodeNext
      _ = b.size - n := nodeBlockSize_setNodeBlockSize (by omega)

def carve (A : Abi) (h : Heap) (b : Block) (n : ℕ) : Heap :=
  if A.sizeofNode + A.sizeofNode ≤ b.size - n then
    freeListNodeInsert A (h.setNodeBlockSize A (b.start + n) (b.size - n)) b.start (b.start + n)
  else h

theorem carve_spec (hn : A.sizeofNode ≤ n) (hle : n ≤ b.size) (hb : b.start ≠ 0)
    (hM : b.stop ≤ A.modulus) (hc : Chain A h.mem (nodeNext A h.mem b.start) post 0)
    (hpost : ∀ c ∈ post, b.stop ≤ c.start) :
    (carve A h b n).fl = h.fl ∧ h.mem.EqOff {x | x ∈ b} (carve A h b n).mem ∧
      Chain A (carve A h b n).mem (nodeNext A (carve A h b n).mem b.start)
        (leftover b (taken A b n) ++ post) 0 := by
  unfold carve taken leftover
  by_cases hs : A.sizeofNode + A.sizeofNode ≤ b.size - n
  · have hpos := A.sizeofNode_pos
    simp only [if_pos hs, if_neg (show n ≠ b.size by omega)]
    obtain ⟨hfl, hoff, hnext, hnext', hsz⟩ := split_node (h := h) hn (by omega) hb hM
    refine ⟨hfl, hoff, ?_⟩
    rw [hnext]
    refine ⟨rfl, hsz, ?_⟩
    rw [hnext']
    exact hc.eqOff_below hoff (fun x hx => hx.2) hpost
  · simp only [if_neg hs, if_true, List.nil_append]
    exact ⟨trivial, .refl _ _, hc⟩

theorem setHeader_spec (h : Heap) (header : ℕ) {orig block pad : ℕ} (ho : orig < A.modulus)
    (hb : block < A.modulus)
    (hp : pad < A.modulus) :
    let m := (h.setHeader A header orig block pad).mem
    h.mem.EqOff (Set.Ico header (header + A.sizeofHeader)) m ∧ headerOrigSize A m header = orig ∧
      headerBlockSize A m header = block ∧ headerPadding A m header = pad := by
  have hsize : A.sizeofHeader = 3 * A.ptrBytes := rfl
  refine ⟨?_, ?_, ?_, ?_⟩
  · have store {m : Mem} {d v : ℕ} (hd : d ≤ 2 * A.ptrBytes) : m.EqOff
        (Set.Ico header (header + A.sizeofHeader)) (m.store (header + d) A.ptrBytes v) :=
      .store fun x hl hu => ⟨by omega, by omega⟩
    exact ((store (d := 0) (by omega)).trans (store (d := A.ptrBytes) (by omega))).trans
      (store (d := 2 * A.ptrBytes) le_rfl)
  · calc _ = _ := Mem.load_store_of_disjoint (by omega)
      _ = _ := Mem.load_store_of_disjoint (by omega)
      _ = orig := Mem.load_store_self ho
  · calc _ = _ := Mem.load_store_of_disjoint (by omega)
      _ = block := Mem.load_store_self hb
  · exact Mem.load_store_self hp

/-- The allocation made in block `b` with `n` bytes required, `pad` of them before the payload. -/
def placed (A : Abi) (b : Block) (n pad origSize alignment : ℕ) : Alloc :=
  ⟨b.start + pad, origSize, alignment, taken A b n, pad - A.sizeofHeader⟩

theorem placed_header {pad : ℕ} (b : Block) (n origSize alignment : ℕ) (h : A.sizeofHeader ≤ pad) :
    (placed A b n pad origSize alignment).header A = b.start + (pad - A.sizeofHeader) := by
  simp only [placed, Alloc.header]
  omega

theorem placed_block {pad : ℕ} (b : Block) (n origSize alignment : ℕ) (h : A.sizeofHeader ≤ pad) :
    (placed A b n pad origSize alignment).block A = ⟨b.start, taken A b n⟩ := by
  simp only [placed, Alloc.block, Alloc.header]
  congr 1
  omega

theorem freeListPlace_eq {pad : ℕ} (prev origSize : ℕ)
    (hsz : nodeBlockSize A h.mem b.start = b.size)
    (hfit : size + pad ≤ b.size) (hpad : A.sizeofHeader ≤ pad) (hstart : 0 < b.start)
    (hM : b.stop ≤ A.modulus) (hsize : 0 < size) :
    let h' := carve A h b (size + pad)
    let h' := h'.setLink A prev (nodeNext A h'.mem b.start)
    let h' := h'.setHeader A (b.start + (pad - A.sizeofHeader)) origSize (taken A b (size + pad))
      (pad - A.sizeofHeader)
    freeListPlace A h b.start pad prev size origSize =
      ({ h' with fl := { h'.fl with used := A.add h'.fl.used (taken A b (size + pad)) } },
        b.start + pad) := by
  simp only [Block.stop] at hM
  have hpos := A.sizeofNode_pos
  have hreq : A.add size pad = size + pad := Abi.add_of_lt (by omega)
  have hsub : A.sub pad A.sizeofHeader = pad - A.sizeofHeader := Abi.sub_of_le hpad (by omega)
  have hrem : A.sub b.size (size + pad) = b.size - (size + pad) := Abi.sub_of_le hfit (by omega)
  have hhdr : A.add b.start (pad - A.sizeofHeader) = b.start + (pad - A.sizeofHeader) :=
    Abi.add_of_lt (by omega)
  have hptr : A.add (b.start + (pad - A.sizeofHeader)) A.sizeofHeader = b.start + pad := by
    rw [Abi.add_of_lt (by omega)]
    omega
  simp only [freeListPlace, hreq, hsub, hsz, hrem, hhdr, hptr, freeListNodeRemove, Heap.setLink,
    carve, taken, ge_iff_le]
  by_cases hs : A.sizeofNode + A.sizeofNode ≤ b.size - (size + pad)
  · have hnew : A.add b.start (size + pad) = b.start + (size + pad) := Abi.add_of_lt (by omega)
    simp only [if_pos hs, hnew]
  · simp only [if_neg hs]

theorem tiles_leftover {lo hi : ℕ} {bs : List Block} (hk : 0 < k) (hle : k ≤ b.size)
    (ht : Tiles lo hi ((pre ++ b :: post) ++ bs)) :
    Tiles lo hi ((pre ++ (leftover b k ++ post)) ++ ⟨b.start, k⟩ :: bs) := by
  have ht' : Tiles lo hi (b :: (pre ++ post ++ bs)) := ht.perm (by
    rw [List.append_assoc, List.cons_append, List.append_assoc]
    exact List.perm_middle)
  unfold leftover
  split_ifs with he
  · subst he
    exact ht'.perm List.perm_middle.symm
  · have hb : b = ⟨b.start, k + (b.size - k)⟩ := by
      rw [Nat.add_sub_cancel' hle]
    rw [hb] at ht'
    apply (ht'.split hk (by omega)).perm
    calc _ ~ ⟨b.start, k⟩ :: (pre ++ ([⟨b.start + k, b.size - k⟩] ++ post) ++ bs) := by
          refine List.Perm.cons _ ?_
          rw [List.append_assoc, List.append_assoc, List.append_assoc]
          exact List.perm_middle.symm
      _ ~ _ := List.perm_middle.symm

theorem leftover_mem {c : Block} (hc : c ∈ leftover b k) (hle : k ≤ b.size) :
    c.start = b.start + k ∧ c.stop = b.stop := by
  unfold leftover at hc
  split_ifs at hc
  · simp at hc
  · obtain rfl := List.mem_singleton.mp hc
    simp only [Block.stop, true_and]
    omega

theorem separated_leftover (hk : 0 < k) (hle : k ≤ b.size) (hs : Separated (pre ++ b :: post)) :
    Separated (pre ++ (leftover b k ++ post)) := by
  obtain ⟨hpre, hbp, hcross⟩ := List.pairwise_append.mp hs
  obtain ⟨hb, hpost⟩ := List.pairwise_cons.mp hbp
  refine List.pairwise_append.mpr ⟨hpre, List.pairwise_append.mpr ⟨?_, hpost, ?_⟩, ?_⟩
  · unfold leftover
    split_ifs <;> simp
  · intro c hc d hd
    rw [(leftover_mem hc hle).2]
    exact hb d hd
  · intro c hc d hd
    rcases List.mem_append.mp hd with hd | hd
    · have := hcross c hc b List.mem_cons_self
      rw [(leftover_mem hd hle).1]
      omega
    · exact hcross c hc d (List.mem_cons_of_mem _ hd)

/-- The rounded request: what the searches look for. -/
structure Rounded (A : Abi) (origSize alignment size a : ℕ) : Prop where
  pow2 : IsPow2 a
  lt : a < A.modulus
  maxAlign : A.maxAlign ∣ a
  alignment : alignment ∣ a
  size_mod : size % a = 0
  node : A.sizeofNode ≤ size
  orig : origSize ≤ size

theorem leftover_aligned (q : Rounded A origSize alignment size a) {c : Block}
    (hc : c ∈ leftover b (taken A b (size + padding A a b))) : c.start % A.maxAlign = 0 := by
  have hmod : (b.start + (size + padding A a b)) % a = 0 := by
    have := add_leastPadding_mod b.start A.sizeofHeader q.pow2.pos
    rw [show b.start + (size + padding A a b) = (b.start + padding A a b) + size by omega,
      Nat.add_mod, q.size_mod, padding, this]
    simp
  unfold leftover taken at hc
  split_ifs at hc with h₁ h₂ h₃
  · simp at hc
  · obtain rfl := List.mem_singleton.mp hc
    exact Nat.mod_eq_zero_of_dvd (q.maxAlign.trans (Nat.dvd_of_mod_eq_zero hmod))
  · simp at hc
  · simp at h₃

theorem wellPlaced_placed (q : Rounded A origSize alignment size a) (hfit : Fits A size a b)
    (hM : b.stop ≤ A.modulus) (hb : b.start % A.maxAlign = 0) :
    WellPlaced A (placed A b (size + padding A a b) (padding A a b) origSize alignment) := by
  have hpad : A.sizeofHeader ≤ padding A a b := le_leastPadding ..
  have htake := le_taken (A := A) hfit
  have hnode := q.node
  have horig := q.orig
  have hpos := A.sizeofNode_pos
  unfold Fits at hfit
  simp only [Block.stop] at hM
  have hstart : (Alloc.block A (placed A b (size + padding A a b) (padding A a b) origSize
      alignment)).start = b.start := by
    rw [placed_block b _ _ _ hpad]
  refine ⟨?_, ?_, ?_, hstart ▸ hb, ?_, ?_⟩ <;> simp only [placed]
  · omega
  · omega
  · have hmod := add_leastPadding_mod b.start A.sizeofHeader q.pow2.pos
    exact Nat.mod_eq_zero_of_dvd (q.alignment.trans (Nat.dvd_of_mod_eq_zero hmod))
  · omega
  · omega

/-- Unlinking a carved block: the list leads past what was taken of it. -/
theorem unlink_spec (R : Represents A h (pre ++ b :: post) live) (hn : A.sizeofNode ≤ n)
    (hle : n ≤ b.size) :
    let h' := (carve A h b n).setLink A (lastStart 0 pre) (nodeNext A (carve A h b n).mem b.start)
    SameRegion h.fl h'.fl ∧ h.mem.EqOff (footprint (pre ++ b :: post)) h'.mem ∧
      Chain A h'.mem h'.fl.head (pre ++ (leftover b (taken A b n) ++ post)) 0 := by
  intro h'
  have hbm : b ∈ pre ++ b :: post := by simp
  have hpre : Roomy A pre := fun d hd => R.roomy d (List.mem_append_left _ hd)
  obtain ⟨hopre, hobp, hcross⟩ := List.pairwise_append.mp R.ordered
  have hopost := (List.pairwise_cons.mp hobp).1
  -- The list before the edit, cut at the block.
  obtain ⟨c, hcpre, rfl, -, hcpost⟩ := chain_append.mp R.chain
  obtain ⟨hfl, hoff, hchain⟩ := carve_spec hn hle (R.roomy b hbm).1
    ((R.free_inside hbm).2.trans R.bound) hcpost hopost
  have hcpre' : Chain A (carve A h b n).mem (carve A h b n).fl.head pre b.start := by
    rw [hfl]
    exact hcpre.eqOff_above hoff hpre (fun x hx => hx.1) fun d hd =>
      hcross d hd b List.mem_cons_self
  have hlink := hcpre'.setLink hpre hopre (Mem.load_lt (carve A h b n).mem b.start A.ptrBytes)
  have hlinkoff := eqOff_setLink (h := carve A h b n)
    (v := nodeNext A (carve A h b n).mem b.start) hpre
  refine ⟨hfl ▸ sameRegion_setLink .., ?_, chain_append.mpr ⟨_, hlink, ?_⟩⟩
  · refine (hoff.mono ?_).trans (hlinkoff.mono ?_)
    · exact fun x hx => ⟨b, hbm, hx⟩
    · rintro x ⟨d, hd, hx⟩
      exact ⟨d, List.mem_append_left _ hd, hx⟩
  -- Redirecting the link writes before the block, so what follows it is untouched.
  · apply hchain.eqOff_below hlinkoff (d := b.start)
    · rintro x ⟨e, he, hx⟩
      exact hx.2.trans_le (hcross e he b List.mem_cons_self)
    · intro d hd
      rcases List.mem_append.mp hd with hd | hd
      · have := (leftover_mem hd (taken_le hle)).1
        omega
      · have := hopost d hd
        simp only [Block.stop] at this
        omega

theorem node_off_taken (R : Represents A h (pre ++ b :: post) live) (hle : n ≤ b.size) {c : Block}
    (hc : c ∈ pre ++ (leftover b (taken A b n) ++ post)) :
    c.start + A.sizeofNode ≤ b.start ∨ b.start + taken A b n ≤ c.start := by
  have htake : taken A b n ≤ b.size := taken_le hle
  obtain ⟨-, hobp, hcross⟩ := List.pairwise_append.mp R.ordered
  rcases List.mem_append.mp hc with hc | hc
  · have h₁ := hcross c hc b List.mem_cons_self
    have h₂ := R.room c (List.mem_append_left _ hc)
    simp only [Block.stop] at h₁
    omega
  rcases List.mem_append.mp hc with hc | hc
  · have h₁ := (leftover_mem hc htake).1
    omega
  · have h₁ := (List.pairwise_cons.mp hobp).1 c hc
    simp only [Block.stop] at h₁
    omega

/-- Writing the header of a block that was unlinked makes it a live allocation. -/
theorem header_spec {hL : Heap} {pad : ℕ} (R : Represents A h (pre ++ b :: post) live)
    (hreg : SameRegion h.fl hL.fl) (hoff : h.mem.EqOff (footprint (pre ++ b :: post)) hL.mem)
    (hchain : Chain A hL.mem hL.fl.head (pre ++ (leftover b (taken A b n) ++ post)) 0)
    (hpad : A.sizeofHeader ≤ pad) (hn : pad + origSize ≤ n) (hlt : pad < n) (hle : n ≤ b.size)
    (hw : WellPlaced A (placed A b n pad origSize alignment))
    (hal : ∀ c ∈ leftover b (taken A b n), c.start % A.maxAlign = 0) :
    let hH := hL.setHeader A (b.start + (pad - A.sizeofHeader)) origSize (taken A b n)
      (pad - A.sizeofHeader)
    h.mem.EqOff (footprint (pre ++ b :: post)) hH.mem ∧
      Represents A { hH with fl := { hH.fl with used := A.add hH.fl.used (taken A b n) } }
        (pre ++ (leftover b (taken A b n) ++ post))
        (placed A b n pad origSize alignment :: live) := by
  intro hH
  have hbm : b ∈ pre ++ b :: post := by simp
  have hin := R.free_inside hbm
  have hM := R.size_lt
  have htake : n ≤ taken A b n := le_taken hle
  have htake' : taken A b n ≤ b.size := taken_le hle
  simp only [Block.stop] at hin
  obtain ⟨hhoff, ho, hbs, hp⟩ := setHeader_spec hL (b.start + (pad - A.sizeofHeader))
    (show origSize < A.modulus by omega) (show taken A b n < A.modulus by omega)
    (show pad - A.sizeofHeader < A.modulus by omega)
  have hframe : h.mem.EqOff (footprint (pre ++ b :: post)) hH.mem :=
    hoff.trans (hhoff.mono fun x hx => ⟨b, hbm, by
      simp only [Set.mem_Ico] at hx
      simp only [Block.mem_def, Block.stop]
      omega⟩)
  have hblock := placed_block b n origSize alignment hpad
  have hused : h.fl.used + taken A b n < A.modulus := by
    have h₁ := R.used
    have h₂ := R.sum_le
    have h₃ := size_le_sum_size hbm
    omega
  refine ⟨hframe, ?_⟩
  exact {
    data_pos := by simpa only [hH, Heap.setHeader_fl, hreg.1] using R.data_pos
    bound := by simpa only [hH, Heap.setHeader_fl, hreg.1, hreg.2.1] using R.bound
    tiles := by
      simp only [hH, Heap.setHeader_fl, List.map_cons, hblock, hreg.1, hreg.2.1]
      exact tiles_leftover (by omega) htake' R.tiles
    ordered := (separated_leftover (by omega) htake' R.separated).ordered
    separated := separated_leftover (by omega) htake' R.separated
    aligned := forall_leftover R.aligned hal
    room := forall_leftover R.room leftover_room
    chain := by
      apply hchain.eqOff hhoff
      intro c hc x hx
      have hoff := node_off_taken R hle hc
      simp only [Set.mem_Ico] at hx
      omega
    used := by
      simp only [hH, Heap.setHeader_fl, hreg.2.2.1, List.map_cons, List.sum_cons,
        Abi.add_of_lt hused]
      rw [R.used]
      exact Nat.add_comm _ _
    placed := by
      intro c hc
      rcases List.mem_cons.mp hc with rfl | hc
      · exact hw
      · exact R.placed c hc
    headers := by
      intro c hc
      rcases List.mem_cons.mp hc with rfl | hc
      · have hh := placed_header b n origSize alignment hpad
        exact ⟨hh ▸ ho, hh ▸ hbs, hh ▸ hp⟩
      · exact R.headers_eqOff hframe c hc }

/-- Placing a request in a free block that fits it turns the front of the block into a live
allocation, writing inside free blocks only. -/
theorem freeListPlace_spec (R : Represents A h (pre ++ b :: post) live)
    (q : Rounded A origSize alignment size a) (hfit : Fits A size a b) :
    let n := size + padding A a b
    let new := placed A b n (padding A a b) origSize alignment
    let r := freeListPlace A h b.start (padding A a b) (lastStart 0 pre) size origSize
    r.2 = new.ptr ∧ r.1.fl.data = h.fl.data ∧ r.1.fl.size = h.fl.size ∧
      r.1.fl.policy = h.fl.policy ∧ h.mem.EqOff (footprint (pre ++ b :: post)) r.1.mem ∧
      Represents A r.1 (pre ++ (leftover b (taken A b n) ++ post)) (new :: live) := by
  have hbm : b ∈ pre ++ b :: post := by simp
  have hsz : nodeBlockSize A h.mem b.start = b.size := by
    obtain ⟨_, -, rfl, hsz, -⟩ := chain_append.mp R.chain
    exact hsz
  have hM : b.stop ≤ A.modulus := (R.free_inside hbm).2.trans R.bound
  have hpos := A.sizeofNode_pos
  have hpad : A.sizeofHeader ≤ padding A a b := le_leastPadding ..
  have hnode := q.node
  have horig := q.orig
  obtain ⟨hreg, hoff, hchain⟩ := unlink_spec R (n := size + padding A a b) (by omega) hfit
  obtain ⟨hframe, hrep⟩ := header_spec R hreg hoff hchain hpad (by omega) (by omega) hfit
    (wellPlaced_placed q hfit hM (R.aligned b hbm)) fun c hc => leftover_aligned q hc
  simp only [freeListPlace_eq (lastStart 0 pre) origSize hsz hfit hpad
    (Nat.pos_of_ne_zero (R.roomy b hbm).1) hM (by omega)]
  exact ⟨rfl, hreg.1, hreg.2.1, hreg.2.2.2, hframe, hrep⟩

def roundedAlignment (A : Abi) (alignment : ℕ) : ℕ := max alignment A.maxAlign

def roundedSize (A : Abi) (size alignment : ℕ) : ℕ :=
  roundUp (max size A.sizeofNode) (roundedAlignment A alignment)

/-- A request with a power-of-two alignment whose rounding up does not wrap. -/
structure Request (A : Abi) (size alignment : ℕ) : Prop where
  pow2 : IsPow2 alignment
  lt : alignment < A.modulus
  round_lt : roundedSize A size alignment < A.modulus

theorem Request.rounded (q : Request A size alignment) :
    Rounded A size alignment (roundedSize A size alignment) (roundedAlignment A alignment) where
  pow2 := q.pow2.max A.maxAlign_pow2
  lt := max_lt q.lt A.maxAlign_lt
  maxAlign := A.maxAlign_pow2.dvd (q.pow2.max A.maxAlign_pow2) (le_max_right _ _)
  alignment := q.pow2.dvd (q.pow2.max A.maxAlign_pow2) (le_max_left _ _)
  size_mod := roundUp_mod _ (q.pow2.max A.maxAlign_pow2).pos
  node := (le_max_right _ _).trans (le_roundUp _ _)
  orig := (le_max_left _ _).trans (le_roundUp _ _)

def freeListFind (A : Abi) (h : Heap) (size alignment : ℕ) : Option (ℕ × ℕ × ℕ) :=
  match h.fl.policy with
  | .findBest => freeListFindBest A h size alignment
  | .findFirst => freeListFindFirst A h size alignment

theorem freeListFind_found {free : List Block} (R : Represents A h free live)
    (q : Rounded A origSize alignment size a) (hw : NoWrap A size a free) :
    ∃ r, freeListFind A h size a = some r ∧ Found A size a free r := by
  unfold freeListFind
  cases h.fl.policy with
  | findFirst => exact freeListFindFirst_found q.pow2 q.lt R.roomy hw R.length_le R.chain
  | findBest => exact freeListFindBest_found q.pow2 q.lt R.roomy hw R.length_le R.chain

theorem freeListAlloc_eq (h : Heap) (q : Request A size alignment) :
    freeListAlloc A h size alignment =
      (freeListFind A h (roundedSize A size alignment) (roundedAlignment A alignment)).bind
        fun r => if r.1 = 0 then some (h, 0)
          else some (freeListPlace A h r.1 r.2.1 r.2.2 (roundedSize A size alignment) size) := by
  have hs : (if size < A.sizeofNode then A.sizeofNode else size) = max size A.sizeofNode := by
    split <;> omega
  have ha : (if alignment < A.maxAlign then A.maxAlign else alignment) =
      roundedAlignment A alignment := by
    unfold roundedAlignment
    split <;> omega
  have hround : alignForward A (max size A.sizeofNode) (roundedAlignment A alignment) =
      some (roundedSize A size alignment) :=
    alignForward_eq q.rounded.pow2 q.rounded.lt q.round_lt
  simp only [freeListAlloc, hs, ha, alignForwardSize, hround, Option.bind_eq_bind,
    Option.bind_some, freeListFind]
  cases h.fl.policy <;> rfl

/-- `free_list_alloc` returns null and changes nothing if no free block fits; otherwise it places
the request in one that does. -/
theorem freeListAlloc_placed {free : List Block} (R : Represents A h free live)
    (q : Request A size alignment)
    (hw : NoWrap A (roundedSize A size alignment) (roundedAlignment A alignment) free) :
    (freeListAlloc A h size alignment = some (h, 0) ∧
      ∀ b ∈ free, ¬ Fits A (roundedSize A size alignment) (roundedAlignment A alignment) b) ∨
    ∃ h' free', ∃ b ∈ free,
      let pad := padding A (roundedAlignment A alignment) b
      let new := placed A b (roundedSize A size alignment + pad) pad size alignment
      Fits A (roundedSize A size alignment) (roundedAlignment A alignment) b ∧
      freeListAlloc A h size alignment = some (h', new.ptr) ∧ h'.fl.data = h.fl.data ∧
      h'.fl.size = h.fl.size ∧ h'.fl.policy = h.fl.policy ∧
      h.mem.EqOff (footprint free) h'.mem ∧ Represents A h' free' (new :: live) := by
  rw [freeListAlloc_eq h q]
  obtain ⟨r, hr, hf⟩ := freeListFind_found R q.rounded hw
  rw [hr, Option.bind_some]
  rcases hf with ⟨hn, hz⟩ | ⟨pre, b, post, rfl, hfit, rfl⟩
  · exact .inl ⟨by rw [if_pos hz], hn⟩
  · obtain ⟨hptr, hd, hs, hp, hoff, hrep⟩ := freeListPlace_spec R q.rounded hfit
    right
    rw [if_neg (R.roomy b (by simp)).1]
    exact ⟨_, _, b, by simp, hfit, congrArg some (Prod.ext rfl hptr), hd, hs, hp, hoff, hrep⟩

theorem freeListAlloc_spec {free : List Block} (R : Represents A h free live)
    (q : Request A size alignment)
    (hw : NoWrap A (roundedSize A size alignment) (roundedAlignment A alignment) free) :
    (freeListAlloc A h size alignment = some (h, 0) ∧
      ∀ b ∈ free, ¬ Fits A (roundedSize A size alignment) (roundedAlignment A alignment) b) ∨
    ∃ h' new free', freeListAlloc A h size alignment = some (h', new.ptr) ∧
      new.origSize = size ∧ new.alignment = alignment ∧ h'.fl.data = h.fl.data ∧
      h'.fl.size = h.fl.size ∧ h'.fl.policy = h.fl.policy ∧
      h.mem.EqOff (footprint free) h'.mem ∧ Represents A h' free' (new :: live) := by
  rcases freeListAlloc_placed R q hw with hn | ⟨h', free', b, -, -, he, hd, hs, hp, hoff, hrep⟩
  · exact .inl hn
  · exact .inr ⟨h', _, free', he, rfl, rfl, hd, hs, hp, hoff, hrep⟩

end Strela.Allocator
