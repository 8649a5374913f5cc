import Strela.Foundation.Cache
import Strela.Lib.Isolation
import Strela.Lib.Spared

/-! # One memory through two doors

The processor reads and writes the tensor memory through its caches, the array reads
and writes the memory behind them. The calls of the library work on a memory that has
no caches; here the same calls run on a machine that has them, with lines filled,
written back and evicted at any moment in between, and with an array that reads and
writes what it likes of the buffers it is given. As long as the clients flush a buffer
after writing it and before a job, and invalidate what a job wrote before they use or
release it, the machine cannot be told from the memory without caches: the array reads
what the processor wrote, the processor reads what the array wrote, and the lists of
the allocator, which lie between the buffers, are never lost.
-/

namespace Strela.System

open Foundation Foundation.Unsigned Strela.Allocator Strela.Lib
open scoped List

/-- The object of the tensor memory as the driver has it, for the file of the library. -/
structure Tensors (v : ℕ) where
  objs : Driver.ObjId → Driver.GemObject v
  gem : Driver.Gem
  file : Driver.FileId
  handle : U32
  obj : Driver.ObjId
  named : gem.handles.lookup (file, handle) = some obj
  size : (objs obj).size.toNat = tensorMemorySize
  bound : (objs obj).dmaAddr.toNat + tensorMemorySize ≤ 2 ^ v
  width : v ≤ 64

variable {A : Abi} {v : ℕ} (M : Mapping A) (T : Tensors v) (os : Os) (L : ℕ)

/-- The lines with a byte that the bus knows by one of `length` addresses from `addr` on. -/
def busLines (addr : BitVec v) (length : Driver.U64) : Set ℕ :=
  {l | ∃ x, x / L = l ∧ M.base ≤ x ∧
    addr.toNat ≤ (T.objs T.obj).dmaAddr.toNat + (x - M.base) ∧
    (T.objs T.obj).dmaAddr.toNat + (x - M.base) < addr.toNat + length.toNat}

/-- The call made one request that succeeded, and this is what the driver asked for in it. -/
def Served (w w' : World) (sync : Driver.DmaSync v) : Prop :=
  ∃ flags off len r, w'.log = w.log ++ [⟨.gemSync T.handle flags off len, .ok r⟩] ∧
    (Driver.strelaGemSyncIoctl T.objs L T.gem T.file
      ⟨T.handle, flags, BitVec.ofNat 64 off, BitVec.ofNat 64 len⟩).1 = .ok (some sync)

/-- `dma_sync_single_for_device` with `DMA_TO_DEVICE` writes lines back. -/
def cleaned (w w' : World) : Set ℕ :=
  {l | ∃ addr len, Served T L w w' (.forDevice addr len .toDevice) ∧ l ∈ busLines M T L addr len}

/-- `dma_sync_single_for_cpu` with `DMA_FROM_DEVICE` drops lines. -/
def dropped (w w' : World) : Set ℕ :=
  {l | ∃ addr len, Served T L w w' (.forCpu addr len .fromDevice) ∧ l ∈ busLines M T L addr len}

/-- The line is one of those a buffer has for itself. -/
def Lent (bs : List Buffer) (l : ℕ) : Prop :=
  ∃ b ∈ bs, ∃ x, x / L = l ∧ M.addr b ≤ x ∧
    x < M.addr b + roundUp (b.sizeWords * wordSize) cachelineSize

/-- The state of the library over a memory without caches, the machine with them, who owns each
line, and what the array has read, beside what it would have read without caches. -/
structure Machine where
  buffers : BufferState
  cache : Cache
  owner : ℕ → Owner
  latched : List UInt8
  expected : List UInt8

namespace Machine

def mem (s : Machine) : Mem := s.buffers.world.mem

end Machine

inductive MachineAction
  | noise (e : CacheEvent)
  | write (x : ℕ) (b : UInt8)
  | manage (op : BufferOp)
  | flush (b : Buffer) (offset count : ℕ)
  | inval (b : Buffer) (offset count : ℕ)
  | deviceRead (x : ℕ)
  | deviceWrite (x : ℕ) (g : List UInt8 → UInt8)
  | other

def Manages : BufferOp → Prop
  | .alloc _ | .free _ | .freeAll => True
  | _ => False

/-- The call neither reads nor stores at `x`: whatever that byte is, it does the same and leaves
it. -/
def Spares (s : BufferState) (op : BufferOp) (t : BufferState) (x : ℕ) : Prop :=
  ∀ v, BufferStep M (s.setByte x v) op (t.setByte x v)

def kept (s s' : BufferState) : List Buffer := s'.live.filter (· ∈ s.live)

/-- What one call for cache maintenance does to the machine: the lines it names are written back or
dropped, in any order and among whatever else the cache does, and become shared. -/
structure Maintains (s : Machine) (w' : World) (es : List CacheEvent) (owner' : ℕ → Owner) :
    Prop where
  events : ∀ e ∈ es, e.IsNoise ∨ ∃ l ∈ dropped M T L s.buffers.world w', e = .invalidate l
  cleaned : ∀ l ∈ cleaned M T L s.buffers.world w', .writeBack l ∈ es
  dropped : ∀ l ∈ dropped M T L s.buffers.world w', .invalidate l ∈ es
  owner : ∀ l, owner' l = s.owner l ∨ owner' l = .shared ∧
    (l ∈ System.dropped M T L s.buffers.world w' ∨
      l ∈ System.cleaned M T L s.buffers.world w' ∧ s.owner l = .cpu)

inductive MachineStep : Machine → MachineAction → Machine → Prop
  | noise {s : Machine} {e : CacheEvent} : e.IsNoise →
    MachineStep s (.noise e) { s with cache := s.cache.step L e }
  -- A client writes its own buffer, which it has invalidated if the array wrote it.
  | write {s : Machine} {t : BufferState} {x : ℕ} {b : UInt8} :
    BufferStep M s.buffers (.write x b) t → s.owner (x / L) ≠ .device →
    MachineStep s (.write x b) { s with
      buffers := t
      cache := s.cache.step L (.cpuWrite x b)
      owner := Function.update s.owner (x / L) .cpu }
  -- The free list is written through the cache, wherever the call may store. No buffer is released
  -- that the array wrote and nobody invalidated.
  | manage {s : Machine} {op : BufferOp} {t : BufferState} {es : List CacheEvent}
      {owner' : ℕ → Owner} :
    Manages op → BufferStep M s.buffers op t →
    (∀ e ∈ es, e.IsNoise ∨ ∃ x b, e = .cpuWrite x b ∧ ¬ Spares M s.buffers op t x) →
    es.foldl CacheEvent.effect s.mem = t.world.mem →
    (∀ l, s.owner l = .device → Lent M L (kept s.buffers t) l) →
    (∀ l, Lent M L (kept s.buffers t) l → owner' l = s.owner l) →
    (∀ l, ¬ Lent M L (kept s.buffers t) l → owner' l = .cpu) →
    MachineStep s (.manage op) { s with
      buffers := t
      cache := s.cache.run L es
      owner := owner' }
  | flush {s : Machine} {b : Buffer} {offset count : ℕ} {es : List CacheEvent}
      {owner' : ℕ → Owner} :
    b ∈ s.buffers.live → s.buffers.world.dev.tensorsBoHandle = T.handle →
    Maintains M T L s (strelaBufferFlush A os b offset count s.buffers.world) es owner' →
    MachineStep s (.flush b offset count) { s with
      buffers := ⟨strelaBufferFlush A os b offset count s.buffers.world, s.buffers.live⟩
      cache := s.cache.run L es
      owner := owner' }
  -- What is invalidated has no write of the processor that is not flushed.
  | inval {s : Machine} {b : Buffer} {offset count : ℕ} {es : List CacheEvent}
      {owner' : ℕ → Owner} :
    b ∈ s.buffers.live → s.buffers.world.dev.tensorsBoHandle = T.handle →
    Maintains M T L s (strelaBufferInval A os b offset count s.buffers.world) es owner' →
    (∀ l ∈ dropped M T L s.buffers.world (strelaBufferInval A os b offset count s.buffers.world),
      s.owner l ≠ .cpu) →
    MachineStep s (.inval b offset count) { s with
      buffers := ⟨strelaBufferInval A os b offset count s.buffers.world, s.buffers.live⟩
      cache := s.cache.run L es
      owner := owner' }
  -- The array reads and writes buffers that were flushed; what it writes is any function of all it
  -- has read so far.
  | deviceRead {s : Machine} {b : Buffer} {x : ℕ} :
    b ∈ s.buffers.live → x ∈ M.bytes b → s.owner (x / L) ≠ .cpu →
    MachineStep s (.deviceRead x) { s with
      latched := s.latched ++ [s.cache.ram x]
      expected := s.expected ++ [s.mem x] }
  | deviceWrite {s : Machine} {b : Buffer} {x : ℕ} {g : List UInt8 → UInt8} :
    b ∈ s.buffers.live → x ∈ M.bytes b → s.owner (x / L) ≠ .cpu →
    MachineStep s (.deviceWrite x g) { s with
      buffers := ⟨{ s.buffers.world with mem := s.mem.storeByte x (g s.expected) }, s.buffers.live⟩
      cache := s.cache.step L (.deviceWrite x (g s.latched))
      owner := Function.update s.owner (x / L) .device }
  | other {s : Machine} {t : BufferState} : BufferStep M s.buffers .other t →
    MachineStep s .other { s with buffers := t }

/-- At the start nothing is lent, and the processor owns every line. -/
def machineLts : Lts Machine MachineAction where
  start s := (bufferLts M).start s.buffers ∧ Coherent L s.cache (fun _ => .cpu) s.mem ∧
    s.owner = (fun _ => .cpu) ∧ s.latched = [] ∧ s.expected = []
  step := MachineStep M T os L

/-! ## What the calls for cache maintenance reach -/

variable {M T os L} {s s' : Machine} {w w' : World} {live : List Alloc} {a : Alloc} {b : Buffer}
  {offset count : ℕ} {sync : Driver.DmaSync v}

theorem syncs_of_log {P : U32 → ℕ → ℕ → Prop} (h : Syncs w w' P) {handle flags : U32} {off len : ℕ}
    {r : Reply} (hl : w'.log = w.log ++ [⟨.gemSync handle flags off len, r⟩]) :
    P flags off len := by
  rcases h with h | ⟨f, o, l, r', hp, h⟩
  · rw [h] at hl
    simp at hl
  · rw [h, List.append_cancel_left_eq, List.cons_eq_cons] at hl
    obtain ⟨-, rfl, rfl, rfl⟩ := Request.gemSync.inj (Event.mk.inj hl.1).1
    exact hp

theorem strelaBufferFlush_flags :
    Syncs w (strelaBufferFlush A os b offset count w) fun f _ _ => f = flushFlags := by
  unfold strelaBufferFlush
  dsimp only
  split
  · exact strelaBufferSync_syncs.mono fun f o l h => h.1
  · exact .inl rfl

theorem syncObject_some {obj : Driver.GemObject v} {align : ℕ} {args : Driver.GemSync}
    {dir : Driver.Direction} (h : Driver.syncObject align obj args dir = .ok (some sync)) :
    sync = if args.flags &&& Driver.syncFini ≠ 0 then
        .forDevice ((obj.dmaAddr.setWidth 64 + args.offset).setWidth v) args.length dir
      else .forCpu ((obj.dmaAddr.setWidth 64 + args.offset).setWidth v) args.length dir := by
  unfold Driver.syncObject at h
  split at h
  · cases h
  split at h
  · cases h
  split at h
  · cases h
  dsimp only at h
  split at h
  · rw [if_pos ‹_›]
    exact (Option.some.inj (Except.ok.inj h)).symm
  · rw [if_neg ‹_›]
    exact (Option.some.inj (Except.ok.inj h)).symm

theorem busAddr_toNat (T : Tensors v) {off : ℕ} (h : off < tensorMemorySize) :
    (((T.objs T.obj).dmaAddr.setWidth 64 + BitVec.ofNat 64 off).setWidth v).toNat =
      (T.objs T.obj).dmaAddr.toNat + off := by
  have hb := T.bound
  have hpow : 2 ^ v ≤ 2 ^ 64 := Nat.pow_le_pow_right (by decide) T.width
  rw [BitVec.toNat_setWidth, BitVec.toNat_add, BitVec.toNat_setWidth, BitVec.toNat_ofNat,
    Nat.mod_eq_of_lt (a := (T.objs T.obj).dmaAddr.toNat) (by omega),
    Nat.mod_eq_of_lt (a := off) (by omega), Nat.mod_eq_of_lt (by omega),
    Nat.mod_eq_of_lt (by omega)]

/-- A call on the lines of a live buffer reaches that buffer's own lines, and a flush writes them
back while an invalidation drops them. -/
theorem served_spec (B : Backed M w live) (ha : a ∈ live)
    (hs : Syncs w w' (LinesOf A (M.buffer a))) (h : Served T L w w' sync) :
    ∃ flags off len addr, LinesOf A (M.buffer a) flags off len ∧
      (∃ r, w'.log = w.log ++ [⟨.gemSync T.handle flags off len, .ok r⟩]) ∧
      sync = (if flags = flushFlags then .forDevice addr (BitVec.ofNat 64 len) .toDevice
        else .forCpu addr (BitVec.ofNat 64 len) .fromDevice) ∧
      addr.toNat = (T.objs T.obj).dmaAddr.toNat + off ∧
      (BitVec.ofNat 64 len).toNat = len := by
  obtain ⟨flags, off, len, r, hl, hd⟩ := h
  have hlines := syncs_of_log hs hl
  obtain ⟨hf, ho, hn, hne, hlo, hhi, hend⟩ := Backed.linesOf (s := ⟨w, []⟩) B ha hlines
  have hvalid : flags &&& ~~~Driver.syncValidFlagsMask = 0 := by
    rcases hf with rfl | rfl <;> decide
  have hlen : (BitVec.ofNat 64 len).toNat = len := by
    have : tensorMemorySize < 2 ^ 64 := by decide
    rw [BitVec.toNat_ofNat, Nat.mod_eq_of_lt (by omega)]
  refine ⟨flags, off, len, _, hlines, ⟨r, hl⟩, ?_, busAddr_toNat T (by omega : off < _), hlen⟩
  rcases hf with rfl | rfl
  · have hdir : Driver.syncDirection flushFlags = some .toDevice := by decide
    rw [Driver.strelaGemSyncIoctl_fst T.objs hvalid hdir T.named] at hd
    have hfini : flushFlags &&& Driver.syncFini ≠ 0 := by decide
    rw [syncObject_some hd, if_pos rfl, if_pos hfini]
  · have hdir : Driver.syncDirection Lib.syncRead = some .fromDevice := by decide
    rw [Driver.strelaGemSyncIoctl_fst T.objs hvalid hdir T.named] at hd
    have hfini : ¬ Lib.syncRead &&& Driver.syncFini ≠ 0 := by decide
    rw [syncObject_some hd, if_neg hfini, if_neg (by decide)]

theorem lent_of_mem (hb : b ∈ s.buffers.live) {x : ℕ} (hx : x ∈ M.bytes b) :
    Lent M L s.buffers.live (x / L) := by
  have hle := le_roundUp (b.sizeWords * wordSize) cachelineSize
  simp only [Mapping.bytes, Block.mem_def, Block.stop] at hx
  exact ⟨b, hb, x, rfl, hx.1, by omega⟩

theorem range_of_served (B : Backed M w live) (ha : a ∈ live)
    (hs : Syncs w w' (LinesOf A (M.buffer a))) {l : ℕ}
    (hl : l ∈ dropped M T L w w' ∨ l ∈ cleaned M T L w w') :
    ∃ flags off len r x, LinesOf A (M.buffer a) flags off len ∧
      w'.log = w.log ++ [⟨.gemSync T.handle flags off len, .ok r⟩] ∧
      x / L = l ∧ M.base + off ≤ x ∧ x < M.base + off + len := by
  have hreach : ∃ sync addr len, Served T L w w' sync ∧
      (sync = .forDevice addr len .toDevice ∨ sync = .forCpu addr len .fromDevice) ∧
      l ∈ busLines M T L addr len := by
    rcases hl with ⟨addr, len, h, hl⟩ | ⟨addr, len, h, hl⟩
    · exact ⟨_, addr, len, h, .inr rfl, hl⟩
    · exact ⟨_, addr, len, h, .inl rfl, hl⟩
  obtain ⟨sync, addr, len, h, hsync, x, rfl, hx, hlo, hhi⟩ := hreach
  obtain ⟨flags, off, n, addr', hlines, ⟨r, hlog⟩, he, haddr, hn⟩ := served_spec B ha hs h
  obtain ⟨rfl, rfl⟩ : addr = addr' ∧ len = BitVec.ofNat 64 n := by
    rw [he] at hsync
    split at hsync <;> simpa [eq_comm] using hsync
  exact ⟨flags, off, n, r, x, hlines, hlog, rfl, by omega, by omega⟩

theorem lent_of_served (B : Backed M s.buffers.world live) (hp : s.buffers.live ~ live.map M.buffer)
    (ha : a ∈ live) (hs : Syncs s.buffers.world w' (LinesOf A (M.buffer a))) {l : ℕ}
    (hl : l ∈ dropped M T L s.buffers.world w' ∨ l ∈ cleaned M T L s.buffers.world w') :
    Lent M L s.buffers.live l := by
  obtain ⟨flags, off, len, r, x, hlines, -, rfl, h₁, h₂⟩ := range_of_served B ha hs hl
  obtain ⟨-, -, -, -, h₃, h₄, -⟩ := Backed.linesOf B ha hlines
  have hmem : M.buffer a ∈ s.buffers.live := hp.mem_iff.mpr (List.mem_map_of_mem ha)
  refine lent_of_mem hmem ?_
  rw [B.bytes_buffer ha]
  simp only [Alloc.payload, Block.mem_def, Block.stop]
  omega

theorem dropped_flush (B : Backed M w live) (ha : a ∈ live) (c : CacheLine A cachelineSize) :
    dropped M T L w (strelaBufferFlush A os (M.buffer a) offset count w) = ∅ := by
  ext l
  simp only [Set.mem_empty_iff_false, iff_false]
  rintro ⟨addr, len, h, -⟩
  obtain ⟨flags, off, n, addr', -, ⟨r, hl⟩, he, -⟩ :=
    served_spec B ha (strelaBufferFlush_syncs c) h
  rw [if_pos (syncs_of_log strelaBufferFlush_flags hl)] at he
  cases he

/-- Cache maintenance changes nothing but the error and the record of the calls. -/
structure Silent (w w' : World) : Prop where
  list : w'.dev.bufferFreeList = w.dev.bufferFreeList
  base : w'.dev.tensorsBoMap = w.dev.tensorsBoMap
  mem : w'.mem = w.mem

theorem Silent.trans {w'' : World} (h : Silent w w') (h' : Silent w' w'') : Silent w w'' :=
  ⟨h'.list.trans h.list, h'.base.trans h.base, h'.mem.trans h.mem⟩

theorem silent_setErr (w : World) (e : ℤ) : Silent w (w.setErr e) := ⟨rfl, rfl, rfl⟩

theorem silent_strelaSync (handle flags : U32) (off words : ℕ) :
    Silent w (strelaSync A os handle flags off words w) := by
  unfold strelaSync
  split
  · split <;> rename_i heq <;> obtain ⟨-, rfl⟩ := Prod.mk.inj heq
    · exact ⟨rfl, rfl, rfl⟩
    · exact ⟨rfl, rfl, rfl⟩
  · exact ⟨rfl, rfl, rfl⟩

theorem silent_strelaBufferSync (b : Buffer) (flags : U32) (offset count : ℕ) (w : World) :
    Silent w (strelaBufferSync A os b flags offset count w) := by
  unfold strelaBufferSync
  dsimp only
  split
  · split
    · exact (silent_setErr w _).trans (silent_strelaSync _ _ _ _)
    · exact silent_setErr w _
  · split
    · exact silent_strelaSync _ _ _ _
    · exact ⟨rfl, rfl, rfl⟩

theorem silent_strelaBufferFlush (b : Buffer) (offset count : ℕ) (w : World) :
    Silent w (strelaBufferFlush A os b offset count w) := by
  unfold strelaBufferFlush
  dsimp only
  split
  · exact silent_strelaBufferSync _ _ _ _ _
  · exact ⟨rfl, rfl, rfl⟩

theorem silent_strelaBufferInval (b : Buffer) (offset count : ℕ) (w : World) :
    Silent w (strelaBufferInval A os b offset count w) := by
  unfold strelaBufferInval
  dsimp only
  split
  · exact (silent_setErr w _).trans (silent_strelaBufferSync _ _ _ _ _)
  · exact silent_strelaBufferSync _ _ _ _ _

theorem Silent.same (h : Silent w w') (M : Mapping A) : M.Same w w' :=
  ⟨h.list, h.base, fun x _ _ => by rw [h.mem]⟩

/-! ## Where the lines of the buffers lie -/

theorem between_of_div_eq {lo hi x y : ℕ} (hlo : L ∣ lo) (hhi : L ∣ hi) (hL : 0 < L)
    (h : x / L = y / L) (h₁ : lo ≤ y) (h₂ : y < hi) : lo ≤ x ∧ x < hi := by
  obtain ⟨i, rfl⟩ := hlo
  obtain ⟨j, rfl⟩ := hhi
  have hi : i ≤ x / L := by
    rw [h]
    exact (Nat.le_div_iff_mul_le hL).mpr (by rwa [Nat.mul_comm])
  have hj : x / L < j := by
    rw [h]
    exact (Nat.div_lt_iff_lt_mul hL).mpr (by rwa [Nat.mul_comm])
  constructor
  · calc L * i ≤ L * (x / L) := Nat.mul_le_mul_left L hi
      _ ≤ x := Nat.mul_div_le x L
  · rw [Nat.mul_comm]
    exact (Nat.div_lt_iff_lt_mul hL).mp hj

/-- Lines that are lent lie in the block of an allocation, past its header. -/
theorem block_of_lent (B : Backed M w live) {bs : List Buffer}
    (hbs : ∀ b ∈ bs, ∃ a ∈ live, M.buffer a = b)
    (hL : L ∣ cachelineSize) {x : ℕ} (hx : Lent M L bs (x / L)) :
    ∃ a ∈ live, M.buffer a ∈ bs ∧ a.ptr ≤ x ∧ x < (a.block A).stop := by
  obtain ⟨b, hb, y, he, h₁, h₂⟩ := hx
  obtain ⟨a, ha, rfl⟩ := hbs b hb
  have hline := B.lines a ha
  have hptr := B.ptr_eq ha
  have hpay := (B.represents.placed a ha).payload
  have hwords : (M.buffer a).sizeWords * wordSize = a.origSize := by
    simp only [Mapping.buffer, Nat.div_mul_cancel (B.words a ha)]
  rw [B.addr_buffer ha, hwords] at h₂
  rw [B.addr_buffer ha] at h₁
  have hround : roundUp a.origSize cachelineSize ≤ a.blockSize - cachelineSize := by
    refine roundUp_le (by decide) (Nat.dvd_sub hline.size (dvd_refl _)) ?_
    have := hline.header
    omega
  have hstop : (a.block A).stop = a.ptr + (a.blockSize - cachelineSize) := by
    have := hline.room
    simp only [Block.stop, Alloc.block] at hptr ⊢
    omega
  have hpos : 0 < L := Nat.pos_of_dvd_of_pos hL (by decide)
  have hends : L ∣ a.ptr ∧ L ∣ a.ptr + (a.blockSize - cachelineSize) := by
    have := hL.trans (B.line_dvd_ptr ha)
    exact ⟨this, this.add (hL.trans (Nat.dvd_sub hline.size (dvd_refl _)))⟩
  obtain ⟨h₃, h₄⟩ := between_of_div_eq hends.1 hends.2 hpos he.symm h₁ (by omega)
  exact ⟨a, ha, hb, h₃, by omega⟩

/-- The bytes that are not lent are all the allocator reads. -/
theorem represents_of_lent (B : Backed M w live) {bs : List Buffer}
    (hbs : ∀ b ∈ bs, ∃ a ∈ live, M.buffer a = b) (hL : L ∣ cachelineSize) {m : Mem}
    (hm : ∀ x, M.base ≤ x → x < M.base + tensorMemorySize → ¬ Lent M L bs (x / L) →
      m x = w.mem x) :
    Represents A { w.heap with mem := m } (freeBlocks A w.heap) live := by
  have hoff : w.heap.mem.EqOff {x | (x < M.base ∨ M.base + tensorMemorySize ≤ x) ∨
      Lent M L bs (x / L)} m := by
    intro x hx
    simp only [Set.mem_ofPred_eq, not_or, not_lt, not_le] at hx
    exact hm x hx.1.1 hx.1.2 hx.2
  apply B.represents.eqOff hoff
  · rintro f hf x (hx | hx)
    · have h₁ := B.free_inside hf
      have h₂ := B.represents.room f hf
      simp only [Block.stop] at h₁
      omega
    · obtain ⟨a, ha, -, h₁, h₂⟩ := block_of_lent B hbs hL hx
      have h₃ := B.represents.free_apart_live hf ha
      have h₄ := B.represents.room f hf
      have h₅ := B.ptr_eq ha
      simp only [Block.Apart, Block.stop] at h₂ h₃
      omega
  · rintro d hd x hl hu (hx | hx)
    · have h₁ := B.live_inside hd
      have h₂ := (B.represents.placed d hd).header_inside hl hu
      simp only [Block.mem_def] at h₂
      omega
    · obtain ⟨a, ha, -, h₁, h₂⟩ := block_of_lent B hbs hL hx
      have h₃ := (B.represents.placed d hd).header_inside hl hu
      have h₄ := (B.represents.placed d hd).ptr_ge
      have h₅ := B.ptr_eq ha
      rcases eq_or_ne d a with rfl | hne
      · simp only [Alloc.header] at hu
        omega
      · have h₆ := B.represents.live_apart hd ha hne
        simp only [Block.Apart, Block.mem_def, Block.stop] at h₂ h₃ h₆
        omega

/-! ## What the allocator reads and stores -/

theorem buffer_inj (B : Backed M w live) {d : Alloc} (ha : a ∈ live) (hd : d ∈ live)
    (h : M.buffer a = M.buffer d) : a = d := by
  by_contra hne
  have hptr : a.ptr = d.ptr := by rw [← B.addr_buffer ha, ← B.addr_buffer hd, h]
  have hapart := B.represents.live_apart ha hd hne
  have h₁ := B.ptr_eq ha
  have h₂ := B.ptr_eq hd
  have h₃ := (B.lines a ha).room
  have h₄ := (B.lines d hd).room
  simp only [Block.Apart, Block.stop, Alloc.block] at hapart h₁ h₂
  omega

theorem live_nodup {s : BufferState} (B : Backed M s.world live) (hp : s.live ~ live.map M.buffer) :
    s.live.Nodup := by
  rw [hp.nodup_iff]
  exact B.represents.live_nodup.map_on fun a ha d hd h => buffer_inj B ha hd h

section Lent

variable {bs : List Buffer} {x : ℕ} (B : Backed M w live)
  (hbs : ∀ b ∈ bs, ∃ a ∈ live, M.buffer a = b) (hL : L ∣ cachelineSize)
  (hx : (x < M.base ∨ M.base + tensorMemorySize ≤ x) ∨ Lent M L bs (x / L))

include B hbs hL hx

theorem notMem_free : x ∉ footprint (freeBlocks A w.heap) := by
  rintro ⟨f, hf, hxf⟩
  rw [Block.mem_def] at hxf
  rcases hx with hx | hx
  · have := B.free_inside hf
    omega
  · obtain ⟨a, ha, -, h₁, h₂⟩ := block_of_lent B hbs hL hx
    have h₃ := B.represents.free_apart_live hf ha
    have h₄ := B.ptr_eq ha
    simp only [Block.Apart] at h₃
    omega

theorem notMem_released {a : Alloc} (ha : a ∈ live) (hnot : M.buffer a ∉ bs) :
    x ∉ a.block A := by
  intro hxa
  rw [Block.mem_def] at hxa
  rcases hx with hx | hx
  · have := B.live_inside ha
    omega
  · obtain ⟨d, hd, hmem, h₁, h₂⟩ := block_of_lent B hbs hL hx
    have hne : a ≠ d := by
      rintro rfl
      exact hnot hmem
    have h₃ := B.represents.live_apart ha hd hne
    have h₄ := B.ptr_eq hd
    simp only [Block.Apart] at h₃
    omega

end Lent

/-- No call that moves buffers reads or stores in a line of a buffer that stays, or outside of the
tensor memory. -/
theorem spared (c : CacheLine A cachelineSize) {s t : BufferState} {op : BufferOp}
    (ho : Owned M s) (hman : Manages op) (hop : NoOverrun A s op) (hs : BufferStep M s op t)
    (hL : L ∣ cachelineSize) {x : ℕ}
    (hx : (x < M.base ∨ M.base + tensorMemorySize ≤ x) ∨ Lent M L (kept s t) (x / L)) :
    Spares M s op t x := by
  obtain ⟨live, hp, B⟩ := ho
  have hbs : ∀ b ∈ kept s t, ∃ a ∈ live, M.buffer a = b := fun b hb =>
    Owned.mem hp (by simpa using (List.mem_filter.mp hb).2)
  have hfree : x ∉ footprint (freeBlocks A s.world.heap) := notMem_free B hbs hL hx
  intro v
  cases hs with
  | @alloc n b w hn he =>
    refine BufferStep.alloc (s := s.setByte x v) (w := w.setByte x v) hn ?_
    refine (strelaBufferAlloc_setByte c B (hop n rfl) hfree v).trans ?_
    rw [he]
    rfl
  | @free b w hb he =>
    obtain ⟨a, ha, rfl⟩ := Owned.mem hp hb
    refine BufferStep.free (s := s.setByte x v) (w := w.setByte x v) hb ?_
    refine (strelaBufferFree_setByte B ha (fun hok => ?_) v).trans (by rw [he]; rfl)
    -- The buffer that is released is not among those that stay.
    have hnot : M.buffer a ∉ kept s ⟨w, if s.world.ok then s.live.erase (M.buffer a)
        else s.live⟩ := by
      intro hkept
      have hmem := (List.mem_filter.mp hkept).1
      simp only [hok, if_true] at hmem
      exact ((live_nodup B hp).mem_erase_iff.mp hmem).1 rfl
    rintro ⟨f, hf, hxf⟩
    rcases List.mem_cons.mp hf with rfl | hf
    · exact notMem_released B hbs hL hx ha hnot hxf
    · exact hfree ⟨f, hf, hxf⟩
  | freeAll =>
    have hoff : s.world.ok = true → OffNode A x s.world.dev.bufferFreeList.data := by
      intro hok
      have hnone : ¬ Lent M L (kept s ⟨strelaBufferFreeAll A s.world,
          if s.world.ok then [] else s.live⟩) (x / L) := by
        rintro ⟨b, hb, -⟩
        simp [kept, hok] at hb
      have hnode := sizeofNode_le_line c
      have := hx.resolve_right hnone
      rw [B.data]
      simp only [tensorMemorySize, cachelineSize] at this hnode
      unfold OffNode
      omega
    have hst : BufferStep M (s.setByte x v) .freeAll _ := BufferStep.freeAll
    rw [show (s.setByte x v).world = s.world.setByte x v from rfl,
      strelaBufferFreeAll_setByte hoff v] at hst
    exact hst
  | write | other => exact hman.elim

theorem manages_unique {s t t' : BufferState} {op : BufferOp} (hman : Manages op)
    (h : BufferStep M s op t) (h' : BufferStep M s op t') : t = t' := by
  cases h with
  | alloc _ he =>
    cases h' with
    | alloc _ he' =>
      obtain ⟨rfl, rfl⟩ := Prod.mk.inj (Except.ok.inj (he.symm.trans he'))
      rfl
  | free _ he =>
    cases h' with
    | free _ he' =>
      obtain rfl := Except.ok.inj (he.symm.trans he')
      rfl
  | freeAll =>
    cases h'
    rfl
  | write | other => exact hman.elim

theorem Spares.mem_eq {s t : BufferState} {op : BufferOp} {x : ℕ} (h : Spares M s op t x)
    (hman : Manages op) (hs : BufferStep M s op t) : t.world.mem x = s.world.mem x := by
  have hv := h (s.world.mem x)
  rw [s.setByte_self] at hv
  rw [manages_unique hman hs hv]
  exact if_pos rfl

theorem untouched (c : CacheLine A cachelineSize) {s t : BufferState} {op : BufferOp}
    (ho : Owned M s) (hman : Manages op) (hop : NoOverrun A s op) (hs : BufferStep M s op t)
    (hL : L ∣ cachelineSize) {x : ℕ}
    (hx : (x < M.base ∨ M.base + tensorMemorySize ≤ x) ∨ Lent M L (kept s t) (x / L)) :
    t.world.mem x = s.world.mem x :=
  (spared c ho hman hop hs hL hx).mem_eq hman hs

/-! ## The invariant of the machine -/

/-- Lines are lent by the processor alone, and the two sides see one memory. -/
structure MachineValid (M : Mapping A) (L : ℕ) (s : Machine) : Prop where
  owned : Owned M s.buffers
  coherent : ∃ m, Coherent L s.cache s.owner m ∧
    ∀ x, M.base ≤ x → x < M.base + tensorMemorySize → m x = s.mem x
  lent : ∀ l, s.owner l ≠ .cpu → Lent M L s.buffers.live l
  latched : s.latched = s.expected

namespace MachineValid

theorem bytes_inside (ho : Owned M s.buffers) (hb : b ∈ s.buffers.live) {x : ℕ}
    (hx : x ∈ M.bytes b) : M.base ≤ x ∧ x < M.base + tensorMemorySize := by
  obtain ⟨live, hp, B⟩ := ho
  obtain ⟨a, ha, rfl⟩ := Owned.mem hp hb
  have := B.buffer_inside ha
  simp only [Mapping.bytes, Mapping.addr, Block.mem_def, Block.stop] at hx
  omega

theorem deviceRead (V : MachineValid M L s) (hb : b ∈ s.buffers.live) {x : ℕ} (hx : x ∈ M.bytes b)
    (ho : s.owner (x / L) ≠ .cpu) : s.cache.ram x = s.mem x := by
  obtain ⟨m, hc, hm⟩ := V.coherent
  obtain ⟨h₁, h₂⟩ := bytes_inside V.owned hb hx
  rw [hc.ram_eq ho, hm x h₁ h₂]

theorem noise (V : MachineValid M L s) {e : CacheEvent} (he : e.IsNoise) :
    MachineValid M L { s with cache := s.cache.step L e } := by
  obtain ⟨m, hc, hm⟩ := V.coherent
  exact ⟨V.owned, ⟨m, hc.noise he, hm⟩, V.lent, V.latched⟩

theorem storeByte_congr {m m' : Mem} {x y : ℕ} (b : UInt8) (h : m y = m' y) :
    m.storeByte x b y = m'.storeByte x b y := by
  simp only [Mem.storeByte, h]

theorem foldl_effect_congr {m m' : Mem} {y : ℕ} (es : List CacheEvent) (h : m y = m' y) :
    es.foldl CacheEvent.effect m y = es.foldl CacheEvent.effect m' y := by
  induction es generalizing m m' with
  | nil => exact h
  | cons e es ih =>
    apply ih
    cases e <;> first | exact h | exact storeByte_congr _ h

theorem maintain (V : MachineValid M L s) {t : World} {es : List CacheEvent} {owner' : ℕ → Owner}
    (ht : M.Same s.buffers.world t)
    (hlent : ∀ l, (l ∈ dropped M T L s.buffers.world t ∨ l ∈ cleaned M T L s.buffers.world t) →
      Lent M L s.buffers.live l)
    (hm : Maintains M T L s t es owner')
    (hcpu : ∀ l ∈ dropped M T L s.buffers.world t, s.owner l ≠ .cpu)
    (c : CacheLine A cachelineSize) :
    MachineValid M L { s with
      buffers := ⟨t, s.buffers.live⟩
      cache := s.cache.run L es
      owner := owner' } := by
  obtain ⟨m, hc, hmem⟩ := V.coherent
  constructor
  · exact V.owned.step c (by rintro n h; cases h) (BufferStep.other ht)
  · refine ⟨m, hc.run_maintain hm.events hm.cleaned hm.dropped hcpu hm.owner, fun x h₁ h₂ => ?_⟩
    exact (hmem x h₁ h₂).trans (ht.mem x h₁ h₂).symm
  · intro l hl
    rcases hm.owner l with he | ⟨-, h | ⟨h, -⟩⟩
    · exact V.lent l (he ▸ hl)
    · exact hlent l (.inl h)
    · exact hlent l (.inr h)
  · exact V.latched

theorem manage (V : MachineValid M L s) {t : BufferState} {es : List CacheEvent}
    {owner' : ℕ → Owner} (ht : Owned M t)
    (he : ∀ e ∈ es, e.IsNoise ∨ ∃ x b, e = .cpuWrite x b ∧
      ¬ Lent M L (kept s.buffers t) (x / L))
    (hmem : es.foldl CacheEvent.effect s.mem = t.world.mem)
    (hdev : ∀ l, s.owner l = .device → Lent M L (kept s.buffers t) l)
    (hkeep : ∀ l, Lent M L (kept s.buffers t) l → owner' l = s.owner l)
    (hrest : ∀ l, ¬ Lent M L (kept s.buffers t) l → owner' l = .cpu) :
    MachineValid M L { s with
      buffers := t
      cache := s.cache.run L es
      owner := owner' } := by
  obtain ⟨m, hc, hm⟩ := V.coherent
  have hlent : ∀ l, owner' l ≠ .cpu → Lent M L (kept s.buffers t) l := by
    intro l hl
    by_contra hn
    exact hl (hrest l hn)
  -- The processor takes back every line that no remaining buffer has; the array wrote none of them.
  have hc' : Coherent L s.cache owner' m := by
    refine hc.relabel ?_ ?_
    · intro l hl
      exact hc.clean l (hkeep l (hlent l hl) ▸ hl)
    · intro x hd hn
      exact absurd ((hkeep _ (hdev _ hd)).trans hd) hn
  constructor
  · exact ht
  · refine ⟨es.foldl CacheEvent.effect m, hc'.run_writes ?_, fun x h₁ h₂ => ?_⟩
    · intro e hmem
      exact (he e hmem).imp_right fun ⟨x, b, heq, hn⟩ => ⟨x, b, heq, hrest _ hn⟩
    · exact (foldl_effect_congr es (hm x h₁ h₂)).trans (congrFun hmem x)
  · intro l hl
    obtain ⟨b, hb, hx⟩ := hlent l hl
    exact ⟨b, (List.mem_filter.mp hb).1, hx⟩
  · exact V.latched

theorem step (c : CacheLine A cachelineSize) (hL : L ∣ cachelineSize) (V : MachineValid M L s)
    {op : MachineAction}
    (hop : ∀ bop, op = .manage bop → NoOverrun A s.buffers bop)
    (hst : MachineStep M T os L s op s') : MachineValid M L s' := by
  cases hst with
  | noise he => exact V.noise he
  | @write t x b hs ho =>
    have howned := V.owned.step c (by rintro n h; cases h) hs
    obtain ⟨m, hc, hm⟩ := V.coherent
    cases hs with
    | @write d _ _ hd hx =>
      constructor
      · exact howned
      · exact ⟨_, hc.cpuWrite ho, fun y h₁ h₂ => storeByte_congr b (hm y h₁ h₂)⟩
      · intro l hl
        by_cases he : l = x / L
        · rw [he]
          exact lent_of_mem hd hx
        · exact V.lent l (by simpa [Function.update_of_ne he] using hl)
      · exact V.latched
  | manage hman hs he hmem hdev hkeep hrest =>
    refine V.manage (V.owned.step c (hop _ rfl) hs) (fun e hm => (he e hm).imp_right ?_) hmem hdev
      hkeep hrest
    rintro ⟨x, b, rfl, hx⟩
    exact ⟨x, b, rfl, fun hl => hx (spared c V.owned hman (hop _ rfl) hs hL (.inr hl))⟩
  | flush hb hh hm =>
    obtain ⟨live, hp, B⟩ := V.owned
    obtain ⟨a, ha, rfl⟩ := Owned.mem hp hb
    refine V.maintain ((silent_strelaBufferFlush _ _ _ _).same M) ?_ hm ?_ c
    · exact fun l hl => lent_of_served B hp ha (strelaBufferFlush_syncs c) hl
    · simp [dropped_flush B ha c]
  | inval hb hh hm hcpu =>
    obtain ⟨live, hp, B⟩ := V.owned
    obtain ⟨a, ha, rfl⟩ := Owned.mem hp hb
    refine V.maintain ((silent_strelaBufferInval _ _ _ _).same M) ?_ hm hcpu c
    exact fun l hl => lent_of_served B hp ha (strelaBufferInval_syncs c) hl
  | deviceRead hb hx ho =>
    exact ⟨V.owned, V.coherent, V.lent, by rw [V.latched, V.deviceRead hb hx ho]⟩
  | @deviceWrite d x g hb hx ho =>
    obtain ⟨m, hc, hm⟩ := V.coherent
    constructor
    · exact V.owned.step c (by rintro n h; cases h) (BufferStep.write hb hx)
    · rw [V.latched]
      exact ⟨_, hc.deviceWrite ho, fun y h₁ h₂ => storeByte_congr _ (hm y h₁ h₂)⟩
    · intro l hl
      by_cases he : l = x / L
      · rw [he]
        exact lent_of_mem hb hx
      · exact V.lent l (by simpa [Function.update_of_ne he] using hl)
    · exact V.latched
  | @other t hs =>
    obtain ⟨m, hc, hm⟩ := V.coherent
    have howned := V.owned.step c (by rintro n h; cases h) hs
    cases hs with
    | other hsame =>
      refine ⟨howned, ⟨m, hc, fun x h₁ h₂ => ?_⟩, V.lent, V.latched⟩
      exact (hm x h₁ h₂).trans (hsame.mem x h₁ h₂).symm

end MachineValid

/-- In every run of requests that do not overrun, no call that gives, takes back or clears buffers
reads or stores a byte on a cache line where a buffer that stays has a byte, and so none changes
one. -/
theorem reach_untouched (hA : A = .arm32 ∨ A = .lp64) {s t : BufferState} {op : BufferOp}
    (hr : ((bufferLts M).restrict (NoOverrun A)).Reach s) (hman : Manages op)
    (hop : NoOverrun A s op) (hst : BufferStep M s op t) (hb : b ∈ s.live) (hb' : b ∈ t.live)
    {x y : ℕ} (hx : x ∈ M.bytes b) (hy : y / cachelineSize = x / cachelineSize) :
    Spares M s op t y ∧ t.world.mem y = s.world.mem y := by
  have c := cacheLine_of_target hA
  have hle := le_roundUp (b.sizeWords * wordSize) cachelineSize
  simp only [Mapping.bytes, Block.mem_def, Block.stop] at hx
  have hlent : Lent M cachelineSize (kept s t) (y / cachelineSize) :=
    ⟨b, List.mem_filter.mpr ⟨hb', decide_eq_true hb⟩, x, hy.symm, hx.1, by omega⟩
  have h := spared c (owned_of_reach c hr) hman hop hst (dvd_refl cachelineSize) (.inr hlent)
  exact ⟨h, h.mem_eq hman hst⟩

/-! A short run on the board: a buffer of a hundred words is handed out, forty of them are flushed,
and the array reads one. -/

/-- A second request on the board leaves the lines of the first buffer alone, the last of which it
fills only in part. -/
theorem reach_untouched_board : ∃ t, BufferStep boardMapping boardOne (.alloc 8) t ∧
    ∀ y, y / cachelineSize = 0x400001cf / cachelineSize →
      Spares boardMapping boardOne (.alloc 8) t y ∧ t.world.mem y = boardOne.world.mem y := by
  have hr := reach_boardOne.restrict_mono fun s op h => Bounded.noOverrun boardMapping h
  obtain ⟨live, -, B⟩ := owned_of_reach cacheLine_arm32 hr
  have hno : NoOverrun Abi.arm32 boardOne (.alloc 8) :=
    (bounded_alloc (by decide)).noOverrun boardMapping
  obtain ⟨d, w, he⟩ : ∃ d w, strelaBufferAlloc Abi.arm32 8 boardOne.world = .ok (d, w) := by
    rcases strelaBufferAlloc_spec cacheLine_arm32 B rfl (hno 8 rfl rfl) with
      ⟨e, -, he⟩ | ⟨w, a, he, -⟩
    · exact ⟨_, _, he⟩
    · exact ⟨_, _, he⟩
  have hst := BufferStep.alloc (M := boardMapping) (s := boardOne) (by decide) he
  have hstays : (⟨true, 16, 100⟩ : Buffer) ∈
      if d.valid then d :: boardOne.live else boardOne.live := by
    split
    · exact List.mem_cons_of_mem d List.mem_cons_self
    · exact List.mem_cons_self
  have hman : Manages (.alloc 8) := trivial
  refine ⟨_, hst, fun y hy => ?_⟩
  exact reach_untouched (.inl rfl) hr hman hno hst List.mem_cons_self hstays (by decide) hy

end Strela.System
