import Strela.Allocator.Initialisers
import Strela.Foundation.Cells
import Strela.Foundation.Transition

/-! # Runs of the pool allocator

A run starts at `pool_init` and takes calls for chunks and writes of the clients
inside the chunks they hold. In every state the list from the head and the live
chunks share the chunks of the buffer among them: `pool_free_all` drops the old
list before it pushes every chunk once, and a chunk that is released was live and
so is not on the list already.
-/

namespace Strela.Allocator

open Foundation Foundation.Unsigned
open scoped List

/-- A buffer that holds a chunk past its first aligned address, and the address past its end. -/
structure PoolBacking (A : Abi) where
  data : ℕ
  size : ℕ
  chunk : ℕ
  alignment : ℕ
  data_pos : 0 < data
  bound : data + size < A.modulus
  pow2 : IsPow2 alignment
  alignment_lt : alignment < A.modulus
  room : roundUp data alignment + roundUp chunk alignment ≤ data + size

namespace PoolBacking

variable {A : Abi} (B : PoolBacking A)

def start : ℕ := roundUp B.data B.alignment

def length : ℕ := B.data + B.size - B.start

def chunkSize : ℕ := roundUp B.chunk B.alignment

def count : ℕ := B.length / B.chunkSize

def chunks : List ℕ := cells B.start B.chunkSize B.count

end PoolBacking

structure PoolState where
  pool : Pool
  mem : Mem
  live : List ℕ

inductive PoolOp
  | alloc
  | free (ptr : ℕ)
  | freeAll
  | write (x : ℕ) (v : UInt8)
  deriving DecidableEq

variable (A : Abi)

def poolNext (m : Mem) (node : ℕ) : ℕ := m.load node A.ptrBytes

/-- The clients release what they hold and write inside it. -/
def PoolAllowed (s : PoolState) : PoolOp → Prop
  | .free ptr => ptr ∈ s.live
  | .write x _ => ∃ c ∈ s.live, x ∈ (⟨c, s.pool.chunkSize⟩ : Block)
  | _ => True

def poolExec (s : PoolState) : PoolOp → Option PoolState
  | .alloc =>
    let (ptr, pool, mem) := poolAlloc A s.pool s.mem
    some ⟨pool, mem, if ptr = 0 then s.live else ptr :: s.live⟩
  | .free ptr => do
    let (pool, mem) ← poolFree A s.pool s.mem ptr
    some ⟨pool, mem, s.live.erase ptr⟩
  | .freeAll =>
    let (pool, mem) := poolFreeAll A s.pool s.mem
    some ⟨pool, mem, []⟩
  | .write x v => some { s with mem := s.mem.storeByte x v }

def poolLts (B : PoolBacking A) : Lts PoolState PoolOp where
  start s := (∃ m, poolInit A m B.data B.size B.chunk B.alignment = some (s.pool, s.mem)) ∧
    s.live = []
  step s op s' := PoolAllowed s op ∧ poolExec A s op = some s'

variable {A} {B : PoolBacking A} {s t : PoolState} {op : PoolOp} {p : Pool} {m m' : Mem}
  {nodes live : List ℕ} {c d x : ℕ} {v : UInt8}

/-! ## The invariant of the run -/

/-- The list from the head and the live chunks are all the chunks, each once. -/
structure Shares (B : PoolBacking A) (p : Pool) (m : Mem) (nodes live : List ℕ) : Prop where
  buf : p.buf = B.start
  bufLen : p.bufLen = B.length
  chunkSize : p.chunkSize = B.chunkSize
  node : A.ptrBytes ≤ B.chunkSize
  linked : Linked (poolNext A m) p.head nodes
  share : nodes ++ live ~ B.chunks

theorem PoolBacking.count_mul_le (B : PoolBacking A) :
    B.start + B.count * B.chunkSize ≤ B.data + B.size := by
  have h₁ := Nat.div_mul_le_self B.length B.chunkSize
  have h₂ := B.room
  simp only [count, length, start, chunkSize] at h₁ ⊢
  omega

theorem PoolBacking.chunk_inside (B : PoolBacking A) (hc : c ∈ B.chunks) :
    0 < c ∧ B.start ≤ c ∧ c + B.chunkSize ≤ B.data + B.size := by
  have h₁ := cell_inside hc
  have h₂ := B.count_mul_le
  have h₃ := B.data_pos
  have h₄ := le_roundUp B.data B.alignment
  simp only [start] at *
  omega

namespace Shares

variable (S : Shares B p m nodes live)

include S

theorem nodup : (nodes ++ live).Nodup := by
  have hpos : 0 < B.chunkSize := A.ptrBytes_pos.trans_le S.node
  exact S.share.nodup_iff.mpr (nodup_cells hpos _ _)

theorem mem_node (hc : c ∈ nodes) : c ∈ B.chunks := S.share.mem_iff.mp (List.mem_append_left _ hc)

theorem mem_live (hc : c ∈ live) : c ∈ B.chunks := S.share.mem_iff.mp (List.mem_append_right _ hc)

theorem not_live (hc : c ∈ nodes) : c ∉ live := fun hl =>
  (List.nodup_append'.mp S.nodup).2.2 hc hl

theorem head_lt : p.head < A.modulus := by
  have hl := S.linked
  cases nodes with
  | nil =>
    have hz : p.head = 0 := hl
    rw [hz]
    exact Nat.pow_pos (by decide)
  | cons n nodes =>
    have h₁ := B.chunk_inside (S.mem_node List.mem_cons_self)
    have h₂ := B.bound
    rw [hl.1]
    omega

theorem next_of_eqOff (hc : c ∈ B.chunks) (hoff : m.EqOff {x | x ∈ (⟨c, B.chunkSize⟩ : Block)} m')
    {ns : List ℕ} (hn : ∀ n ∈ ns, n ∈ nodes ∧ n ≠ c) {n : ℕ} (hm : n ∈ ns) :
    poolNext A m' n = poolNext A m n := by
  refine hoff.load_eq fun x h₁ h₂ hx => ?_
  have hapart := cells_apart (S.mem_node (hn n hm).1) hc (hn n hm).2
  have hnode := S.node
  have hin : c ≤ x ∧ x < c + B.chunkSize := hx
  simp only [Block.Apart, Block.stop] at hapart
  omega

theorem ne_of_live (hc : c ∈ live) (hd : d ∈ nodes) : d ≠ c := fun he =>
  S.not_live hd (he ▸ hc)

end Shares

/-! ## One call -/

theorem store_inside (hle : A.ptrBytes ≤ B.chunkSize) {w : ℕ} :
    m.EqOff {x | x ∈ (⟨c, B.chunkSize⟩ : Block)} (m.store c A.ptrBytes w) :=
  Mem.EqOff.store fun x h₁ h₂ => ⟨h₁, by simp only [Block.stop]; omega⟩

theorem poolNext_store {head : ℕ} (h : head < A.modulus) :
    poolNext A (m.store c A.ptrBytes head) c = head :=
  Mem.load_store_self h

theorem Shares.push (S : Shares B p m nodes live) (hc : c ∈ B.chunks) (hn : c ∉ nodes) :
    Linked (poolNext A (poolPush A (p, m) c).2) c (c :: nodes) := by
  apply S.linked.push (B.chunk_inside hc).1.ne'
  · exact poolNext_store S.head_lt
  · exact fun n hm => S.next_of_eqOff hc (store_inside S.node)
      (fun n hn' => ⟨hn', ne_of_mem_of_not_mem hn' hn⟩) hm

theorem Shares.free (S : Shares B p m nodes live) (hc : c ∈ live) :
    poolFree A p m c = some (poolPush A (p, m) c) ∧
    Shares B (poolPush A (p, m) c).1 (poolPush A (p, m) c).2 (c :: nodes) (live.erase c) := by
  have hm := S.mem_live hc
  obtain ⟨hpos, hge, hle⟩ := B.chunk_inside hm
  have hbound := B.bound
  have hchunk : 0 < B.chunkSize := A.ptrBytes_pos.trans_le S.node
  constructor
  · have hend : A.add p.buf p.bufLen = B.data + B.size := by
      have hroom := B.room
      have hlen : B.start + B.length = B.data + B.size := by
        simp only [PoolBacking.length, PoolBacking.start]
        omega
      rw [S.buf, S.bufLen, Abi.add_of_lt (by omega), hlen]
    have hrest : A.sub c p.buf % p.chunkSize = 0 := by
      obtain ⟨i, -, rfl⟩ := mem_cells.mp hm
      rw [S.buf, S.chunkSize, Abi.sub_of_le hge (by omega), Nat.add_sub_cancel_left,
        Nat.mul_mod_left]
    rw [poolFree, if_neg hpos.ne', if_neg (by rw [hend, S.buf]; omega),
      if_neg (by simpa using hrest)]
  · refine ⟨S.buf, S.bufLen, S.chunkSize, S.node, S.push hm fun hn => S.not_live hn hc, ?_⟩
    exact (List.perm_middle.symm.trans ((List.perm_cons_erase hc).symm.append_left nodes)).trans
      S.share

theorem Shares.alloc_null (S : Shares B p m nodes live) (hz : p.head = 0) :
    poolAlloc A p m = (0, p, m) ∧ live ~ B.chunks := by
  have hnil := S.linked.eq_nil_iff.mpr hz
  subst hnil
  exact ⟨by rw [poolAlloc, if_pos hz], S.share⟩

theorem Shares.alloc (S : Shares B p m nodes live) (hz : p.head ≠ 0) :
    ∃ nodes', nodes = p.head :: nodes' ∧ (poolAlloc A p m).1 = p.head ∧
      Shares B (poolAlloc A p m).2.1 (poolAlloc A p m).2.2 nodes' (p.head :: live) ∧
      m.EqOff {x | x ∈ (⟨p.head, B.chunkSize⟩ : Block)} (poolAlloc A p m).2.2 ∧
      ∀ x ∈ (⟨p.head, B.chunkSize⟩ : Block), (poolAlloc A p m).2.2 x = 0 := by
  obtain ⟨head, nodes, rfl⟩ := List.exists_cons_of_ne_nil (mt S.linked.eq_nil_iff.mp hz)
  obtain ⟨rfl, -, htail⟩ := S.linked
  have hc := S.mem_node List.mem_cons_self
  have hoff : m.EqOff {x | x ∈ (⟨p.head, B.chunkSize⟩ : Block)} (m.store p.head p.chunkSize 0) := by
    rw [S.chunkSize]
    exact Mem.EqOff.store fun x h₁ h₂ => ⟨h₁, h₂⟩
  have hhead : p.head ∉ nodes := (List.nodup_cons.mp S.nodup).1 ∘ List.mem_append_left _
  have he : poolAlloc A p m = (p.head, { p with head := poolNext A m p.head },
      m.store p.head p.chunkSize 0) := if_neg hz
  rw [he]
  refine ⟨nodes, rfl, rfl, ⟨S.buf, S.bufLen, S.chunkSize, S.node, ?_, ?_⟩, hoff, ?_⟩
  · apply htail.congr
    intro n hn
    exact S.next_of_eqOff hc hoff
      (fun n hn => ⟨List.mem_cons_of_mem _ hn, ne_of_mem_of_not_mem hn hhead⟩) hn
  · exact List.perm_middle.trans S.share
  · intro x hx
    have hin : p.head ≤ x ∧ x < p.head + B.chunkSize := hx
    simp only [S.chunkSize, Mem.store, if_pos hin, Nat.zero_div]
    rfl

theorem poolFreeAllLoop_spec (hnode : A.ptrBytes ≤ B.chunkSize) (n i : ℕ) (hi : i + n ≤ B.count)
    (hbuf : p.buf = B.start) (hchunk : p.chunkSize = B.chunkSize)
    (hl : Linked (poolNext A m) p.head (cells B.start B.chunkSize i).reverse)
    (hlt : p.head < A.modulus) :
    Linked (poolNext A (poolFreeAllLoop A n i (p, m)).2) (poolFreeAllLoop A n i (p, m)).1.head
      (cells B.start B.chunkSize (i + n)).reverse := by
  induction n generalizing i p m with
  | zero => exact hl
  | succ n ih =>
    have hpos : 0 < B.chunkSize := A.ptrBytes_pos.trans_le hnode
    have hc : B.start + i * B.chunkSize ∈ B.chunks := mem_cells.mpr ⟨i, by omega, rfl⟩
    have hin := B.chunk_inside hc
    have hbound := B.bound
    have haddr : A.add p.buf (A.mul i p.chunkSize) = B.start + i * B.chunkSize := by
      rw [hbuf, hchunk, Abi.mul_of_lt (by omega), Abi.add_of_lt (by omega)]
    have hlink : Linked (poolNext A (m.store (B.start + i * B.chunkSize) A.ptrBytes p.head))
        (B.start + i * B.chunkSize) (cells B.start B.chunkSize (i + 1)).reverse := by
      rw [cells_succ, List.reverse_append, List.reverse_singleton, List.singleton_append]
      apply hl.push hin.1.ne' (poolNext_store hlt)
      intro d hd
      obtain ⟨j, hj, rfl⟩ := mem_cells.mp (List.mem_reverse.mp hd)
      apply Mem.load_store_of_disjoint
      left
      have := Nat.mul_le_mul_right B.chunkSize (Nat.succ_le_of_lt hj)
      rw [Nat.succ_mul] at this
      omega
    rw [poolFreeAllLoop, haddr, poolPush]
    rw [show i + (n + 1) = i + 1 + n by omega]
    exact ih (p := { p with head := B.start + i * B.chunkSize }) (i + 1) (by omega) hbuf hchunk
      hlink (by simp only; omega)

/-- Whatever was on the list and live, afterwards every chunk is on the list once. -/
theorem poolFreeAll_spec (hnode : A.ptrBytes ≤ B.chunkSize) (hbuf : p.buf = B.start)
    (hlen : p.bufLen = B.length) (hchunk : p.chunkSize = B.chunkSize) (m : Mem) :
    Shares B (poolFreeAll A p m).1 (poolFreeAll A p m).2 B.chunks.reverse [] := by
  have hcount : p.bufLen / p.chunkSize = B.count := by rw [hlen, hchunk, PoolBacking.count]
  obtain ⟨h₁, h₂, h₃⟩ := poolFreeAll_geometry (A := A) p m
  refine ⟨h₁.trans hbuf, h₂.trans hlen, h₃.trans hchunk, hnode, ?_, ?_⟩
  · have hloop := poolFreeAllLoop_spec (p := { p with head := 0 }) (m := m) hnode B.count 0
      (by omega) hbuf hchunk rfl (Nat.pow_pos (by decide))
    rw [Nat.zero_add] at hloop
    rwa [poolFreeAll, hcount]
  · rw [List.append_nil]
    exact List.reverse_perm _

theorem poolInit_eq (B : PoolBacking A) (m : Mem) :
    poolInit A m B.data B.size B.chunk B.alignment =
      if A.sizeofPoolNode ≤ B.chunkSize ∧ B.chunkSize ≤ B.length then
        some (poolFreeAll A ⟨B.start, B.length, B.chunkSize, 0⟩ m)
      else none := by
  have hroom := B.room
  have hbound := B.bound
  have hle := le_roundUp B.data B.alignment
  have hle' := le_roundUp B.chunk B.alignment
  obtain ⟨hstart, hlength⟩ : alignedStart A B.data B.alignment = B.start ∧
      alignedLength A B.data B.size B.alignment = B.length :=
    aligned_eq (by omega) (by omega) (by omega)
  have hchunk : alignedStart A B.chunk B.alignment = B.chunkSize := Nat.mod_eq_of_lt (by omega)
  rw [poolInit_eq_ite B.pow2 B.alignment_lt (by omega) (by omega), hstart, hlength, hchunk]

theorem poolInit_spec {q : Pool × Mem}
    (hi : poolInit A m B.data B.size B.chunk B.alignment = some q) :
    Shares B q.1 q.2 B.chunks.reverse [] := by
  rw [poolInit_eq] at hi
  split at hi
  · rename_i hacc
    obtain rfl := Option.some.inj hi
    exact poolFreeAll_spec hacc.1 rfl rfl rfl m
  · cases hi

/-! ## Whole runs -/

/-- An operation writes nothing in a chunk that is live before and after it, except a client. -/
def Untouched (s : PoolState) (op : PoolOp) (t : PoolState) : Prop :=
  ∀ c ∈ s.live, c ∈ t.live → ∀ x ∈ (⟨c, s.pool.chunkSize⟩ : Block), (∀ v, op ≠ .write x v) →
    t.mem x = s.mem x

theorem Shares.eq_of_eqOff (S : Shares B p m nodes live) (hc : c ∈ live) (hd : d ∈ B.chunks)
    (hne : c ≠ d) (hoff : m.EqOff {x | x ∈ (⟨d, B.chunkSize⟩ : Block)} m')
    (hx : x ∈ (⟨c, p.chunkSize⟩ : Block)) : m' x = m x := by
  apply hoff
  intro hxd
  have hapart := cells_apart (S.mem_live hc) hd hne
  have h₁ : d ≤ x ∧ x < d + B.chunkSize := hxd
  rw [S.chunkSize] at hx
  simp only [Block.Apart, Block.stop, Block.mem_def] at hapart hx
  omega

theorem poolExec_spec (S : Shares B s.pool s.mem nodes s.live) (ha : PoolAllowed s op) :
    ∃ t nodes', poolExec A s op = some t ∧ Shares B t.pool t.mem nodes' t.live ∧
      Untouched s op t := by
  cases op with
  | alloc =>
    by_cases hz : s.pool.head = 0
    · obtain ⟨he, -⟩ := S.alloc_null hz
      exact ⟨s, nodes, by simp [poolExec, he], S, fun _ _ _ _ _ _ => rfl⟩
    · obtain ⟨nodes', rfl, he, S', hoff, -⟩ := S.alloc hz
      refine ⟨⟨(poolAlloc A s.pool s.mem).2.1, (poolAlloc A s.pool s.mem).2.2,
        s.pool.head :: s.live⟩, nodes', ?_, S', ?_⟩
      · simp only [poolExec, he, if_neg hz]
      · intro c hc _ x hx _
        have hm : s.pool.head ∈ s.pool.head :: nodes' := List.mem_cons_self
        exact S.eq_of_eqOff hc (S.mem_node hm) (S.ne_of_live hc hm).symm hoff hx
  | free ptr =>
    have hptr : ptr ∈ s.live := ha
    obtain ⟨he, S'⟩ := S.free hptr
    refine ⟨_, ptr :: nodes, by simp only [poolExec, he]; rfl, S', ?_⟩
    intro c hc hct x hx _
    have hne := ((List.nodup_append'.mp S.nodup).2.1.mem_erase_iff.mp hct).1
    exact S.eq_of_eqOff hc (S.mem_live hptr) hne (store_inside S.node) hx
  | freeAll =>
    refine ⟨_, _, rfl, poolFreeAll_spec S.node S.buf S.bufLen S.chunkSize s.mem, ?_⟩
    intro c _ hct
    cases hct
  | write x v =>
    obtain ⟨c, hc, hx⟩ := ha
    have hoff : s.mem.EqOff {x | x ∈ (⟨c, B.chunkSize⟩ : Block)} (s.mem.storeByte x v) := by
      intro y hy
      apply if_neg
      rintro rfl
      rw [S.chunkSize] at hx
      exact hy hx
    refine ⟨_, nodes, rfl, ⟨S.buf, S.bufLen, S.chunkSize, S.node, ?_, S.share⟩, ?_⟩
    · apply S.linked.congr
      intro n hn
      exact S.next_of_eqOff (S.mem_live hc) hoff (fun n hn => ⟨hn, S.ne_of_live hc hn⟩) hn
    · intro d _ _ y _ hop
      apply if_neg
      rintro rfl
      exact hop v rfl

theorem shares_of_reach (hr : (poolLts A B).Reach s) :
    ∃ nodes, Shares B s.pool s.mem nodes s.live := by
  refine hr.invariant (P := fun s => ∃ nodes, Shares B s.pool s.mem nodes s.live) ?_ ?_
  · rintro s ⟨⟨m, hi⟩, hl⟩
    exact ⟨_, hl ▸ poolInit_spec hi⟩
  · rintro s op t - ⟨nodes, S⟩ ⟨ha, he⟩
    obtain ⟨t', nodes', ht, S', -⟩ := poolExec_spec S ha
    obtain rfl := Option.some.inj (ht.symm.trans he)
    exact ⟨nodes', S'⟩

def poolChunks (p : Pool) : List ℕ := cells p.buf p.chunkSize (p.bufLen / p.chunkSize)

/-- The list from the head ends, repeats nothing, and has the chunks that are not live. -/
structure PoolInvariant (B : PoolBacking A) (s : PoolState) : Prop where
  geometry : s.pool.buf = B.start ∧ s.pool.bufLen = B.length ∧ s.pool.chunkSize = B.chunkSize
  inside : ∀ c ∈ poolChunks s.pool, B.data ≤ c ∧ c + s.pool.chunkSize ≤ B.data + B.size
  list : ∃ nodes, Linked (poolNext A s.mem) s.pool.head nodes ∧ nodes.Nodup ∧
    (∀ c ∈ nodes, c ∉ s.live) ∧ ∀ c, c ∈ nodes ∨ c ∈ s.live ↔ c ∈ poolChunks s.pool
  live_nodup : s.live.Nodup

/-- A request gets null exactly if every chunk is live, and otherwise one that is not, zeroed. -/
structure PoolServes (A : Abi) (s : PoolState) : Prop where
  null_iff : (poolAlloc A s.pool s.mem).1 = 0 ↔ ∀ c ∈ poolChunks s.pool, c ∈ s.live
  fresh : (poolAlloc A s.pool s.mem).1 ≠ 0 →
    (poolAlloc A s.pool s.mem).1 ∈ poolChunks s.pool ∧ (poolAlloc A s.pool s.mem).1 ∉ s.live
  zeroed : (poolAlloc A s.pool s.mem).1 ≠ 0 →
    ∀ x ∈ (⟨(poolAlloc A s.pool s.mem).1, s.pool.chunkSize⟩ : Block),
      (poolAlloc A s.pool s.mem).2.2 x = 0

theorem Shares.poolChunks_eq (S : Shares B p m nodes live) : poolChunks p = B.chunks := by
  rw [poolChunks, S.buf, S.bufLen, S.chunkSize, PoolBacking.chunks, PoolBacking.count]

theorem Shares.poolInvariant (S : Shares B s.pool s.mem nodes s.live) : PoolInvariant B s where
  geometry := ⟨S.buf, S.bufLen, S.chunkSize⟩
  inside c hc := by
    rw [S.poolChunks_eq] at hc
    have h₁ := B.chunk_inside hc
    have h₂ := le_roundUp B.data B.alignment
    rw [S.chunkSize]
    exact ⟨h₂.trans h₁.2.1, h₁.2.2⟩
  list := by
    refine ⟨nodes, S.linked, (List.nodup_append'.mp S.nodup).1, fun c hc => S.not_live hc, ?_⟩
    intro c
    rw [S.poolChunks_eq, ← S.share.mem_iff, List.mem_append]
  live_nodup := (List.nodup_append'.mp S.nodup).2.1

theorem Shares.poolServes (S : Shares B s.pool s.mem nodes s.live) : PoolServes A s := by
  by_cases hz : s.pool.head = 0
  · obtain ⟨he, hlive⟩ := S.alloc_null hz
    constructor
    · refine iff_of_true (by rw [he]) fun c hc => ?_
      rw [S.poolChunks_eq] at hc
      exact hlive.mem_iff.mpr hc
    · exact fun hne => absurd (by rw [he]) hne
    · exact fun hne => absurd (by rw [he]) hne
  · obtain ⟨nodes', rfl, he, -, -, hzero⟩ := S.alloc hz
    have hm : s.pool.head ∈ s.pool.head :: nodes' := List.mem_cons_self
    have hc : s.pool.head ∈ poolChunks s.pool := by
      rw [S.poolChunks_eq]
      exact S.mem_node hm
    constructor
    · rw [he]
      exact iff_of_false hz fun hall => S.not_live hm (hall _ hc)
    · rw [he]
      exact fun _ => ⟨hc, S.not_live hm⟩
    · rw [he, S.chunkSize]
      exact fun _ => hzero

/-! ## After everything was released -/

/-- The pointers that so many requests get, one after another. -/
def poolAllocEach (A : Abi) : ℕ → Pool × Mem → List ℕ
  | 0, _ => []
  | n + 1, (p, m) => (poolAlloc A p m).1 :: poolAllocEach A n (poolAlloc A p m).2

theorem Shares.poolAllocEach_eq (S : Shares B p m nodes live) (k : ℕ) :
    poolAllocEach A k (p, m) = nodes.take k ++ List.replicate (k - nodes.length) 0 := by
  induction k generalizing p m nodes live with
  | zero => simp [poolAllocEach]
  | succ k ih =>
    by_cases hz : p.head = 0
    · obtain rfl := S.linked.eq_nil_iff.mpr hz
      rw [poolAllocEach, (S.alloc_null hz).1, ih S]
      simp [List.replicate_succ]
    · obtain ⟨nodes', rfl, he, S', -, -⟩ := S.alloc hz
      rw [poolAllocEach, he, ih S']
      simp

/-- After `pool_free_all` the requests get every chunk once and then null, whatever had happened. -/
theorem Shares.allocEach_freeAll (S : Shares B p m nodes live) :
    ∃ ptrs, ptrs ~ poolChunks p ∧
      (ptrs.map fun c => A.sub c p.buf / p.chunkSize) ~ List.range (p.bufLen / p.chunkSize) ∧
      ∀ k, poolAllocEach A k (poolFreeAll A p m) =
        ptrs.take k ++ List.replicate (k - p.bufLen / p.chunkSize) 0 := by
  have S' := poolFreeAll_spec S.node S.buf S.bufLen S.chunkSize m
  have hcount : p.bufLen / p.chunkSize = B.count := by
    rw [S.bufLen, S.chunkSize, PoolBacking.count]
  have hpos : 0 < B.chunkSize := A.ptrBytes_pos.trans_le S.node
  refine ⟨B.chunks.reverse, ?_, ?_, fun k => ?_⟩
  · rw [S.poolChunks_eq]
    exact List.reverse_perm _
  · have hindex : (B.chunks.reverse.map fun c => A.sub c p.buf / p.chunkSize) =
        (B.chunks.reverse.map fun c => (c - B.start) / B.chunkSize) := by
      apply List.map_congr_left
      intro c hc
      have hin := B.chunk_inside (List.mem_reverse.mp hc)
      have hbound := B.bound
      rw [S.buf, S.chunkSize, Abi.sub_of_le hin.2.1 (by omega)]
    rw [hindex, hcount, List.map_reverse, PoolBacking.chunks, map_index_cells _ hpos]
    exact List.reverse_perm _
  · rw [S'.poolAllocEach_eq, hcount, List.length_reverse, PoolBacking.chunks, length_cells]

/-- In every state of every run the list and the live chunks share the chunks of the buffer, every
allowed call returns and leaves the other live chunks alone, a request is served whenever a chunk
is not live, and after `pool_free_all` each chunk is handed out once. -/
theorem reach_pool (hr : (poolLts A B).Reach s) :
    PoolInvariant B s ∧ PoolServes A s ∧
    (∀ op, PoolAllowed s op → ∃ t, (poolLts A B).step s op t) ∧
    (∀ op t, (poolLts A B).step s op t → Untouched s op t) ∧
    ∃ ptrs, ptrs ~ poolChunks s.pool ∧
      (ptrs.map fun c => A.sub c s.pool.buf / s.pool.chunkSize) ~
        List.range (s.pool.bufLen / s.pool.chunkSize) ∧
      ∀ k, poolAllocEach A k (poolFreeAll A s.pool s.mem) =
        ptrs.take k ++ List.replicate (k - s.pool.bufLen / s.pool.chunkSize) 0 := by
  obtain ⟨nodes, S⟩ := shares_of_reach hr
  refine ⟨S.poolInvariant, S.poolServes, fun op ha => ?_, ?_, S.allocEach_freeAll⟩
  · obtain ⟨t, -, he, -⟩ := poolExec_spec S ha
    exact ⟨t, ha, he⟩
  · rintro op t ⟨ha, he⟩
    obtain ⟨t', -, ht, -, hun⟩ := poolExec_spec S ha
    obtain rfl := Option.some.inj (ht.symm.trans he)
    exact hun

def smallPool : PoolBacking Abi.arm32 where
  data := 12
  size := 40
  chunk := 10
  alignment := 8
  data_pos := by decide
  bound := by decide
  pow2 := ⟨3, rfl⟩
  alignment_lt := by decide
  room := by decide

def smallPoolStart : PoolState where
  pool := ⟨16, 36, 16, 32⟩
  mem := (poolFreeAll Abi.arm32 ⟨16, 36, 16, 0⟩ fun _ => 7).2
  live := []

def poolAfter (s : PoolState) (op : PoolOp) : PoolState := (poolExec Abi.arm32 s op).getD s

theorem reach_poolAfter (hr : (poolLts Abi.arm32 smallPool).Reach s) (ha : PoolAllowed s op)
    (hs : (poolExec Abi.arm32 s op).isSome) :
    (poolLts Abi.arm32 smallPool).Reach (poolAfter s op) := by
  obtain ⟨t, ht⟩ := Option.isSome_iff_exists.mp hs
  refine hr.step ⟨ha, ?_⟩
  rw [poolAfter, ht, Option.getD_some]

/-- Both chunks are handed out and the second is written; then the first is released. -/
def smallPoolWritten : PoolState :=
  poolAfter (poolAfter (poolAfter smallPoolStart .alloc) .alloc) (.write 20 5)

def smallPoolUsed : PoolState := poolAfter smallPoolWritten (.free 32)

theorem reach_smallPoolUsed : (poolLts Abi.arm32 smallPool).Reach smallPoolUsed := by
  have hstart : (poolLts Abi.arm32 smallPool).Reach smallPoolStart :=
    .start ⟨⟨fun _ => 7, rfl⟩, rfl⟩
  have halloc (s : PoolState) : PoolAllowed s .alloc := trivial
  have hwrite : PoolAllowed (poolAfter (poolAfter smallPoolStart .alloc) .alloc) (.write 20 5) :=
    ⟨16, by decide, by decide⟩
  have hfree : PoolAllowed smallPoolWritten (.free 32) := (by decide : 32 ∈ smallPoolWritten.live)
  have hboth := reach_poolAfter (reach_poolAfter hstart (halloc _) rfl) (halloc _) rfl
  exact reach_poolAfter (reach_poolAfter hboth hwrite rfl) hfree rfl

theorem reach_pool_smallPoolUsed : smallPoolUsed.live = [16] ∧
    PoolInvariant smallPool smallPoolUsed ∧ PoolServes Abi.arm32 smallPoolUsed ∧
    ∃ t, (poolLts Abi.arm32 smallPool).step smallPoolUsed .alloc t ∧ t.live = [32, 16] ∧
      t.mem 20 = 5 ∧ t.mem 40 = 0 ∧ Untouched smallPoolUsed .alloc t := by
  obtain ⟨hinv, hserves, hstep, huntouched, -⟩ := reach_pool reach_smallPoolUsed
  obtain ⟨t, ht⟩ := hstep .alloc trivial
  obtain rfl : poolAfter smallPoolUsed .alloc = t := by
    rw [poolAfter, ht.2, Option.getD_some]
  exact ⟨by decide, hinv, hserves, _, ht, by decide, by decide, by decide, huntouched _ _ ht⟩

end Strela.Allocator
