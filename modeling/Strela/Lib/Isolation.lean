import Strela.Driver.Sync
import Strela.Lib.Buffers

/-! # Cache synchronization of one buffer

An invalidation throws away what the CPU wrote in the lines it covers, so it must
never cover a byte of anything but the buffer it is for. Flushes round the range
to lines and invalidations refuse one that is not; both then check it against the
buffer. The allocator gives every buffer lines of its own, so that the ranges of
a run never meet a header, a node or another buffer, and the driver accepts them.
A flush loses the words in the last, partial line of a buffer, because the rounded
range is compared with the size that is not; a count near the top of `size_t` wraps.
-/

namespace Strela.Lib

open Foundation Foundation.Unsigned Strela.Allocator
open scoped List

variable {A : Abi} {os : Os} {w : World} {b : Buffer} {flags : U32} {offset count : ℕ}

/-- The log gets no record, or one of a synchronization of the given bytes of the tensor object. -/
def Syncs (w w' : World) (P : U32 → ℕ → ℕ → Prop) : Prop :=
  w'.log = w.log ∨ ∃ flags off len reply, P flags off len ∧
    w'.log = w.log ++ [⟨.gemSync w.dev.tensorsBoHandle flags off len, reply⟩]

theorem Syncs.mono {w' : World} {P Q : U32 → ℕ → ℕ → Prop}
    (h : Syncs w w' P) (hPQ : ∀ f o l, P f o l → Q f o l) : Syncs w w' Q := by
  rcases h with h | ⟨f, o, l, r, hp, hl⟩
  · exact .inl h
  · exact .inr ⟨f, o, l, r, hPQ f o l hp, hl⟩

theorem strelaSync_log (A : Abi) (os : Os) (handle flags : U32) (offset words : ℕ) (w : World) :
    (strelaSync A os handle flags offset words w).log = w.log ∨ words ≠ 0 ∧ ∃ reply,
      (strelaSync A os handle flags offset words w).log = w.log ++
        [⟨.gemSync handle flags (A.mul offset wordSize) (A.mul words wordSize), reply⟩] := by
  unfold strelaSync
  split
  · rename_i h
    right
    refine ⟨h.2,
      os w.log (.gemSync handle flags (A.mul offset wordSize) (A.mul words wordSize)), ?_⟩
    simp only [World.ask]
    split <;> rename_i he <;> obtain ⟨hr, rfl⟩ := Prod.mk.inj he <;> rfl
  · exact .inl rfl

/-- The bounds under which `strela_buffer_sync` goes on to the driver. -/
structure InBounds (b : Buffer) (offset count : ℕ) : Prop where
  nonempty : count ≠ 0
  inside : offset + count ≤ b.sizeWords
  total : b.offsetWordsFromBase + b.sizeWords ≤ tensorMemorySize / wordSize

theorem strelaBufferSync_syncs :
    Syncs w (strelaBufferSync A os b flags offset count w) fun f o l =>
      f = flags ∧ InBounds b offset count ∧
      o = A.mul (A.add b.offsetWordsFromBase offset) wordSize ∧ l = A.mul count wordSize := by
  unfold strelaBufferSync
  by_cases hbad : w.ok = true ∧ (¬ b.valid = true ∨ offset > b.sizeWords ∨
      count > b.sizeWords - offset ∨ b.offsetWordsFromBase > tensorMemorySize / wordSize ∨
      b.sizeWords > tensorMemorySize / wordSize - b.offsetWordsFromBase)
  · have hnot : (w.setErr errBadArg).ok = false := ok_setErr_of_ne (by decide)
    simp only [if_pos hbad, hnot]
    exact .inl rfl
  · simp only [if_neg hbad]
    cases hok : w.ok with
    | false => exact .inl rfl
    | true =>
      rcases strelaSync_log A os w.dev.tensorsBoHandle flags (A.add b.offsetWordsFromBase offset)
        count w with h | ⟨hne, reply, h⟩
      · exact .inl h
      · simp only [hok, true_and, not_or, not_lt, gt_iff_lt] at hbad
        obtain ⟨-, h₁, h₂, h₃, h₄⟩ := hbad
        exact .inr ⟨_, _, _, reply, ⟨rfl, ⟨hne, by omega, by omega⟩, rfl, rfl⟩, h⟩

def flushFlags : U32 := syncFini ||| syncWrite

/-- A range of whole lines, in words, that `strela_buffer_sync` passed on. -/
def LinesOf (A : Abi) (b : Buffer) (flags : U32) (off len : ℕ) : Prop :=
  ∃ offset count, (flags = flushFlags ∨ flags = syncRead) ∧ InBounds b offset count ∧
    cachelineWords ∣ offset ∧ cachelineWords ∣ count ∧
    off = A.mul (A.add b.offsetWordsFromBase offset) wordSize ∧ len = A.mul count wordSize

theorem words_dvd_modulus (c : CacheLine A cachelineSize) : cachelineWords ∣ A.modulus :=
  (by decide : cachelineWords ∣ cachelineSize).trans c.dvd_modulus

theorem dvd_land_mask (c : CacheLine A cachelineSize) (x : ℕ) :
    cachelineWords ∣ x &&& (A.modulus - cachelineWords) := by
  apply Nat.dvd_of_mod_eq_zero
  have hmask : (A.modulus - cachelineWords) % 2 ^ 4 = 0 :=
    Nat.mod_eq_zero_of_dvd (Nat.dvd_sub (words_dvd_modulus c) (dvd_refl _))
  change (x &&& (A.modulus - cachelineWords)) % 2 ^ 4 = 0
  rw [Nat.and_mod_two_pow, hmask, Nat.and_zero]

theorem strelaBufferFlush_syncs (c : CacheLine A cachelineSize) :
    Syncs w (strelaBufferFlush A os b offset count w) (LinesOf A b) := by
  unfold strelaBufferFlush
  dsimp only
  split
  · have hstart := dvd_land_mask c offset
    have hstop := dvd_land_mask c (A.sub (A.add (A.add offset count) cachelineWords) 1)
    refine strelaBufferSync_syncs.mono ?_
    rintro f o l ⟨rfl, hin, rfl, rfl⟩
    refine ⟨_, _, .inl rfl, hin, hstart, ?_, rfl, rfl⟩
    -- The difference is taken modulo the word size, of which a line is a divisor.
    exact (Nat.dvd_mod_iff (words_dvd_modulus c)).mpr
      (hstop.add (Nat.dvd_sub (words_dvd_modulus c) hstart))
  · exact .inl rfl

theorem dvd_of_isAligned (c : CacheLine A cachelineSize) {x : ℕ}
    (h : isAligned (A.mul x wordSize) cachelineSize = true) : cachelineWords ∣ x := by
  have h₁ : cachelineSize ∣ x * wordSize :=
    (Nat.dvd_mod_iff c.dvd_modulus).mp (Nat.dvd_of_mod_eq_zero (beq_iff_eq.mp h))
  have h₂ : cachelineWords * wordSize ∣ x * wordSize := h₁
  exact Nat.dvd_of_mul_dvd_mul_right (by decide) h₂

theorem strelaBufferInval_syncs (c : CacheLine A cachelineSize) :
    Syncs w (strelaBufferInval A os b offset count w) (LinesOf A b) := by
  unfold strelaBufferInval
  dsimp only
  split
  · left
    rw [strelaBufferSync_of_not_ok (ok_setErr_of_ne (by decide))]
    rfl
  · rename_i h
    simp only [Bool.or_eq_true, Bool.not_eq_true', not_or, Bool.not_eq_false] at h
    refine strelaBufferSync_syncs.mono ?_
    rintro f o l ⟨rfl, hin, rfl, rfl⟩
    exact ⟨_, _, .inr rfl, hin, dvd_of_isAligned c h.1, dvd_of_isAligned c h.2, rfl, rfl⟩

/-! ## What the lines of a buffer cover -/

variable {M : Mapping A} {s : BufferState} {live : List Alloc} {a : Alloc} {off len : ℕ}

/-- Bytes of the tensor object that are whole lines of one buffer and meet no byte of a header, of
a free node or of another buffer. -/
structure Isolated (M : Mapping A) (s : BufferState) (b : Buffer) (off len : ℕ) : Prop where
  lines : cachelineSize ∣ M.base + off ∧ cachelineSize ∣ off ∧ cachelineSize ∣ len
  payload : M.addr b ≤ M.base + off ∧ M.base + off + len ≤ (M.bytes b).stop
  headers : ∀ d ∈ s.live, (⟨M.base + off, len⟩ : Block).Apart
    ⟨M.addr d - A.sizeofHeader, A.sizeofHeader⟩
  nodes : ∀ f ∈ freeBlocks A s.world.heap, (⟨M.base + off, len⟩ : Block).Apart
    ⟨f.start, A.sizeofNode⟩
  others : ∀ d ∈ s.live, d ≠ b → (⟨M.base + off, len⟩ : Block).Apart (M.bytes d)

/-- The call passes every check of the driver, for a file whose handle names an object of the size
of the tensor memory, whatever the alignment of its caches below a line. -/
def Accepted (handle flags : U32) (off len : ℕ) : Prop :=
  ∀ {v : ℕ} (objs : Driver.ObjId → Driver.GemObject v) (g : Driver.Gem) (file : Driver.FileId)
    (o : Driver.ObjId) (align : ℕ), align ∣ cachelineSize →
    g.handles.lookup (file, handle) = some o → (objs o).size.toNat = tensorMemorySize →
    ∃ sync, (Driver.strelaGemSyncIoctl objs align g file
      ⟨handle, flags, BitVec.ofNat 64 off, BitVec.ofNat 64 len⟩).1 = .ok (some sync)

theorem Backed.linesOf (B : Backed M s.world live) (ha : a ∈ live)
    (hl : LinesOf A (M.buffer a) flags off len) :
    (flags = flushFlags ∨ flags = syncRead) ∧ cachelineSize ∣ off ∧ cachelineSize ∣ len ∧
      len ≠ 0 ∧ a.ptr ≤ M.base + off ∧ M.base + off + len ≤ a.ptr + a.origSize ∧
      off + len ≤ tensorMemorySize := by
  obtain ⟨offset, count, hf, hin, ho, hc, rfl, rfl⟩ := hl
  have h₁ := B.addr_buffer ha
  have h₂ := B.buffer_inside ha
  have h₃ := congrArg Block.stop (B.bytes_buffer ha)
  have h₄ := M.bound
  have hb := hin.inside
  have hne := hin.nonempty
  have hbase : cachelineSize ∣ (M.buffer a).offsetWordsFromBase * wordSize := by
    have : (M.buffer a).offsetWordsFromBase * wordSize = a.ptr - M.base := by
      unfold Mapping.addr at h₁
      omega
    rw [this]
    exact Nat.dvd_sub (B.line_dvd_ptr ha) M.line_dvd_base
  have words {k : ℕ} (h : cachelineWords ∣ k) : cachelineSize ∣ k * wordSize :=
    Nat.mul_dvd_mul_right h wordSize
  simp only [Mapping.bytes, Mapping.addr, Block.stop, Alloc.payload] at h₁ h₃
  simp only [wordSize] at h₁ h₂ h₃ hbase words ⊢
  rw [Abi.add_of_lt (by omega), Abi.mul_of_lt (by omega), Abi.mul_of_lt (by omega)]
  refine ⟨hf, ?_, words hc, by omega, by omega, by omega, by omega⟩
  rw [Nat.add_mul]
  exact hbase.add (words ho)

theorem Backed.isolated (B : Backed M s.world live) (hp : s.live ~ live.map M.buffer)
    (ha : a ∈ live) (hl : LinesOf A (M.buffer a) flags off len) :
    Isolated M s (M.buffer a) off len := by
  obtain ⟨-, ho, hn, hne, hlo, hhi, -⟩ := B.linesOf ha hl
  have R := B.represents
  have hpay := (R.placed a ha).payload
  have hadd := (R.placed a ha).start_add
  -- The range lies inside the block of its own allocation, past the header.
  have inside : (a.block A).start + A.sizeofHeader ≤ M.base + off ∧
      M.base + off + len ≤ (a.block A).stop := by
    simp only [Block.stop, Alloc.block] at hadd ⊢
    omega
  have apart {d : Alloc} (hd : d ∈ live) (hda : d ≠ a) {c : Block}
      (hc : (d.block A).start ≤ c.start ∧ c.stop ≤ (d.block A).stop) :
      (⟨M.base + off, len⟩ : Block).Apart c := by
    have := R.live_apart ha hd hda.symm
    simp only [Block.Apart, Block.stop] at this inside hc ⊢
    omega
  constructor
  · exact ⟨M.line_dvd_base.add ho, ho, hn⟩
  · rw [B.addr_buffer ha, B.bytes_buffer ha]
    exact ⟨hlo, hhi⟩
  · intro d hd
    obtain ⟨d, hd', rfl⟩ := Owned.mem hp hd
    rw [B.addr_buffer hd']
    rcases eq_or_ne d a with rfl | hda
    · right
      simp only [Block.stop]
      omega
    · apply apart hd' hda
      have h₁ := (R.placed d hd').start_add
      have h₂ := (R.placed d hd').payload
      simp only [Block.stop, Alloc.block] at h₁ ⊢
      omega
  · intro f hf
    have h₁ := R.free_apart_live hf ha
    have h₂ := R.room f hf
    simp only [Block.Apart, Block.stop] at h₁ inside ⊢
    omega
  · intro d hd hdb
    obtain ⟨d, hd', rfl⟩ := Owned.mem hp hd
    rw [B.bytes_buffer hd']
    have hda : d ≠ a := by
      rintro rfl
      exact hdb rfl
    apply apart hd' hda
    have h₁ := (R.placed d hd').start_add
    have h₂ := (R.placed d hd').payload
    simp only [Block.stop, Alloc.block, Alloc.payload] at h₁ ⊢
    omega

theorem Backed.accepted (B : Backed M s.world live) (ha : a ∈ live)
    (hl : LinesOf A (M.buffer a) flags off len) (handle : U32) :
    Accepted handle flags off len := by
  obtain ⟨hf, ho, hn, hne, -, -, hend⟩ := B.linesOf ha hl
  intro v objs g file o align halign hg hsize
  obtain ⟨k, hk, rfl⟩ := (Nat.dvd_prime_pow Nat.prime_two).mp (show align ∣ 2 ^ 6 from halign)
  have hlt : tensorMemorySize < 2 ^ 64 := by decide
  have hoff : (BitVec.ofNat 64 off).toNat = off := by
    rw [BitVec.toNat_ofNat, Nat.mod_eq_of_lt (by omega)]
  have hlen : (BitVec.ofNat 64 len).toNat = len := by
    rw [BitVec.toNat_ofNat, Nat.mod_eq_of_lt (by omega)]
  have hlen0 : BitVec.ofNat 64 len ≠ 0 := by
    intro h
    rw [h] at hlen
    exact hne hlen.symm
  have hobj {dir : Driver.Direction} : ∃ sync, Driver.syncObject (2 ^ k) (objs o)
      ⟨handle, flags, BitVec.ofNat 64 off, BitVec.ofNat 64 len⟩ dir = .ok (some sync) := by
    apply Driver.syncObject_ok rfl (by omega)
    · rw [hoff, hlen, hsize]
      exact hend
    · exact hoff.symm ▸ halign.trans ho
    · exact hlen.symm ▸ halign.trans hn
    · exact hlen0
  have hvalid : flags &&& ~~~Driver.syncValidFlagsMask = 0 := by
    rcases hf with rfl | rfl <;> decide
  obtain ⟨dir, hdir⟩ : ∃ dir, Driver.syncDirection flags = some dir := by
    rcases hf with rfl | rfl
    · exact ⟨.toDevice, by decide⟩
    · exact ⟨.fromDevice, by decide⟩
  obtain ⟨sync, h⟩ := @hobj dir
  exact ⟨sync, by rw [Driver.strelaGemSyncIoctl_fst objs hvalid hdir hg, h]⟩

/-- The requests are for at most the tensor memory. -/
def Bounded (_ : BufferState) (op : BufferOp) : Prop :=
  ∀ n, op = .alloc n → n ≤ tensorMemorySize / wordSize

theorem Bounded.noOverrun (M : Mapping A) {op : BufferOp} (h : Bounded s op) :
    NoOverrun A s op := by
  rintro n rfl - ⟨-, hbig, -⟩
  have h₁ := h n rfl
  have h₂ := M.modulus_ge
  have hle : A.mul n wordSize ≤ n * wordSize := Nat.mod_le _ _
  simp only [tensorMemorySize, wordSize, cachelineSize] at h₁ hle hbig
  omega

/-- In every run of bounded requests, a flush or an invalidation of a live buffer makes at most one
call to the driver, for isolated lines that the driver accepts. -/
theorem sync_isolated (hA : A = .arm32 ∨ A = .lp64) (hr : ((bufferLts M).restrict Bounded).Reach s)
    (hb : b ∈ s.live) (offset count : ℕ) {w : World}
    (hw : w = strelaBufferFlush A os b offset count s.world ∨
      w = strelaBufferInval A os b offset count s.world) :
    Syncs s.world w fun flags off len =>
      Isolated M s b off len ∧ Accepted s.world.dev.tensorsBoHandle flags off len := by
  have c := cacheLine_of_target hA
  obtain ⟨live, hp, B⟩ := owned_of_reach c (hr.restrict_mono fun s op h => h.noOverrun M)
  obtain ⟨a, ha, rfl⟩ := Owned.mem hp hb
  have hlines : Syncs s.world w (LinesOf A (M.buffer a)) := by
    rcases hw with rfl | rfl
    · exact strelaBufferFlush_syncs c
    · exact strelaBufferInval_syncs c
  apply hlines.mono
  intro flags off len hl
  exact ⟨B.isolated hp ha hl, B.accepted ha hl _⟩

def boardGrant (n : ℕ) (d : Buffer) (s : BufferState) : BufferState where
  world := ((strelaBufferAlloc Abi.arm32 n s.world).toOption.map Prod.snd).getD s.world
  live := d :: s.live

theorem strelaBufferAlloc_boardGrant {n : ℕ} {d : Buffer} (s : BufferState)
    (hd : (strelaBufferAlloc Abi.arm32 n s.world).toOption.map Prod.fst = some d) :
    strelaBufferAlloc Abi.arm32 n s.world = .ok (d, (boardGrant n d s).world) := by
  unfold boardGrant
  cases he : strelaBufferAlloc Abi.arm32 n s.world with
  | error log =>
    rw [he] at hd
    cases hd
  | ok r =>
    rw [he] at hd
    exact congrArg Except.ok (Prod.ext (Option.some.inj hd) rfl)

def boardOne : BufferState := boardGrant 100 ⟨true, 16, 100⟩ (freshState boardMapping)

def boardTwo : BufferState := boardGrant 8 ⟨true, 144, 8⟩ boardOne

theorem strelaBufferAlloc_boardOne :
    strelaBufferAlloc Abi.arm32 100 (freshState boardMapping).world =
      .ok (⟨true, 16, 100⟩, boardOne.world) :=
  strelaBufferAlloc_boardGrant _ (by decide +kernel)

theorem bounded_alloc {n : ℕ} (hn : n ≤ tensorMemorySize / wordSize) : Bounded s (.alloc n) := by
  rintro m h
  obtain rfl := BufferOp.alloc.inj h
  exact hn

theorem reach_boardOne : ((bufferLts boardMapping).restrict Bounded).Reach boardOne :=
  .step (.start (freshState_start cacheLine_arm32 boardMapping))
    ⟨bounded_alloc (by decide), BufferStep.alloc (by decide) strelaBufferAlloc_boardOne⟩

theorem reach_boardTwo : ((bufferLts boardMapping).restrict Bounded).Reach boardTwo := by
  have halloc : strelaBufferAlloc Abi.arm32 8 boardOne.world =
      .ok (⟨true, 144, 8⟩, boardTwo.world) :=
    strelaBufferAlloc_boardGrant _ (by decide +kernel)
  exact reach_boardOne.step ⟨bounded_alloc (by decide), BufferStep.alloc (by decide) halloc⟩

/-- Flushing forty words, which end inside a line, synchronizes three whole lines; the other buffer
has its own. -/
theorem sync_isolated_boardTwo : (⟨true, 144, 8⟩ : Buffer) ∈ boardTwo.live ∧
    Isolated boardMapping boardTwo ⟨true, 16, 100⟩ 64 192 := by
  have hlog : (strelaBufferFlush Abi.arm32 (fun _ _ => .ok 0) ⟨true, 16, 100⟩ 0 40
      boardTwo.world).log = [⟨.gemSync 2 6 64 192, .ok 0⟩] := by
    rfl
  have hnil : boardTwo.world.log = [] := rfl
  have hsync := sync_isolated (.inl rfl) reach_boardTwo (List.mem_cons_of_mem _ List.mem_cons_self)
    0 40 (.inl rfl)
    (w := strelaBufferFlush Abi.arm32 (fun _ _ => .ok 0) ⟨true, 16, 100⟩ 0 40 boardTwo.world)
  refine ⟨List.mem_cons_self, ?_⟩
  rcases hsync with h | ⟨flags, off, len, reply, ⟨hi, -⟩, h⟩
  · rw [hlog, hnil] at h
    cases h
  · rw [hlog, hnil, List.nil_append, List.cons_eq_cons] at h
    obtain ⟨-, -, rfl, rfl⟩ := Request.gemSync.inj (Event.mk.inj h.1).1
    exact hi

/-! ## The ranges a flush accepts -/

/-- The call leaves no error but that of a failing call of the system. -/
def Passes (w w' : World) : Prop := w'.ok = true ∨ ∃ r e, w'.log = w.log ++ [⟨r, .error e⟩]

/-- One flush, of a range that covers the given words of the buffer. -/
def Flushes (w w' : World) (b : Buffer) (offset count : ℕ) : Prop :=
  ∃ off len reply,
    w'.log = w.log ++ [⟨.gemSync w.dev.tensorsBoHandle flushFlags off len, reply⟩] ∧
    off ≤ (b.offsetWordsFromBase + offset) * wordSize ∧
    (b.offsetWordsFromBase + offset + count) * wordSize ≤ off + len

/-- The flush accepts exactly the ranges inside the buffer and makes one call for each of them. -/
structure FlushExact (A : Abi) (os : Os) (b : Buffer) (offset count : ℕ) (w : World) : Prop where
  accepts : Passes w (strelaBufferFlush A os b offset count w) ↔ offset + count ≤ b.sizeWords
  covers : Passes w (strelaBufferFlush A os b offset count w) →
    Flushes w (strelaBufferFlush A os b offset count w) b offset count

def InTensors (b : Buffer) : Prop :=
  b.offsetWordsFromBase + b.sizeWords ≤ tensorMemorySize / wordSize

/-- The count is so close to the top of `size_t` that the end of the range, rounded up, wraps to the
line of the offset or to the one after it, and that line is inside the buffer. -/
def WrapsInside (A : Abi) (b : Buffer) (offset count : ℕ) : Prop :=
  A.modulus < offset % cachelineWords + count + cachelineWords ∧ InTensors b ∧
    offset - offset % cachelineWords +
      (if A.modulus < offset % cachelineWords + count then cachelineWords else 0) ≤ b.sizeWords

theorem not_passes_setErr (e : ℤ) (he : e ≠ 0) : ¬ Passes w (w.setErr e) := by
  rintro (h | ⟨r, e', h⟩)
  · rw [ok_setErr_of_ne he] at h
    cases h
  · have := congrArg List.length h
    simp [World.setErr] at this

theorem strelaBufferSync_of_outside (hok : w.ok = true)
    (h : ¬ (offset + count ≤ b.sizeWords ∧ InTensors b)) :
    strelaBufferSync A os b flags offset count w = w.setErr errBadArg := by
  have hbad : w.ok = true ∧ (¬ b.valid = true ∨ offset > b.sizeWords ∨
      count > b.sizeWords - offset ∨ b.offsetWordsFromBase > tensorMemorySize / wordSize ∨
      b.sizeWords > tensorMemorySize / wordSize - b.offsetWordsFromBase) := by
    refine ⟨hok, .inr ?_⟩
    unfold InTensors at h
    omega
  have hnot : (w.setErr errBadArg).ok = false := ok_setErr_of_ne (by decide)
  simp only [strelaBufferSync, if_pos hbad, hnot]
  rfl

theorem strelaBufferSync_of_inside (hok : w.ok = true) (hv : b.valid = true)
    (h : offset + count ≤ b.sizeWords ∧ InTensors b) :
    strelaBufferSync A os b flags offset count w =
      strelaSync A os w.dev.tensorsBoHandle flags (A.add b.offsetWordsFromBase offset) count w := by
  have hgood : ¬ (w.ok = true ∧ (¬ b.valid = true ∨ offset > b.sizeWords ∨
      count > b.sizeWords - offset ∨ b.offsetWordsFromBase > tensorMemorySize / wordSize ∨
      b.sizeWords > tensorMemorySize / wordSize - b.offsetWordsFromBase)) := by
    rintro ⟨-, hbad⟩
    unfold InTensors at h
    rcases hbad with hbad | hbad
    · exact hbad hv
    · omega
  simp only [strelaBufferSync, if_neg hgood, if_pos hok]

theorem strelaSync_passes (A : Abi) (os : Os) (handle flags : U32) (offset : ℕ)
    (hok : w.ok = true) (hc : count ≠ 0) :
    Passes w (strelaSync A os handle flags offset count w) ∧
    ∃ reply, (strelaSync A os handle flags offset count w).log = w.log ++
      [⟨.gemSync handle flags (A.mul offset wordSize) (A.mul count wordSize), reply⟩] := by
  simp only [strelaSync, hok, hc, ne_eq, not_false_eq_true, and_self, if_true, World.ask]
  cases he : os w.log (.gemSync handle flags (A.mul offset wordSize) (A.mul count wordSize)) with
  | error e => exact ⟨.inr ⟨_, e, rfl⟩, _, rfl⟩
  | ok v => exact ⟨.inl hok, _, rfl⟩

/-- The words that a flush asks `strela_buffer_sync` for, from the start of the line of the
offset. -/
def flushWords (A : Abi) (offset count : ℕ) : ℕ :=
  let stop := (offset + count + (cachelineWords - 1)) % A.modulus
  A.sub (stop - stop % cachelineWords) (offset - offset % cachelineWords)

theorem strelaBufferFlush_eq (c : CacheLine A cachelineSize) (ho : offset < A.modulus)
    (hc : count ≠ 0) : strelaBufferFlush A os b offset count w =
      strelaBufferSync A os b flushFlags (offset - offset % cachelineWords)
        (flushWords A offset count) w := by
  have hlt := c.lt
  have hpow : IsPow2 A.modulus := ⟨8 * A.ptrBytes, by rw [Abi.modulus, Nat.pow_mul]⟩
  have hline : cachelineWords ≤ A.modulus := by
    simp only [cachelineWords, cachelineSize, wordSize] at hlt ⊢
    omega
  have mask {x : ℕ} (hx : x < A.modulus) :
      x &&& (A.modulus - cachelineWords) = x - x % cachelineWords :=
    land_complement hpow ⟨4, rfl⟩ hline hx
  have hstop : A.sub (A.add (A.add offset count) cachelineWords) 1 =
      (offset + count + (cachelineWords - 1)) % A.modulus := by
    have he : offset + count + cachelineWords + (A.modulus - 1) =
        offset + count + (cachelineWords - 1) + A.modulus := by
      simp only [cachelineWords, cachelineSize, wordSize] at *
      omega
    simp only [Abi.sub, Abi.add, Unsigned.sub, Unsigned.add, Nat.mod_add_mod, he,
      Nat.add_mod_right]
  simp only [strelaBufferFlush, if_pos hc, mask ho, hstop, mask (Nat.mod_lt _ hpow.pos)]
  rfl

theorem flushWords_of_lt (ho : offset < A.modulus) (hc : count ≠ 0)
    (h : offset + count + (cachelineWords - 1) < A.modulus) :
    offset - offset % cachelineWords + flushWords A offset count =
      roundUp (offset + count) cachelineWords ∧ flushWords A offset count ≠ 0 := by
  have hround : roundUp (offset + count) cachelineWords =
      offset + count + (cachelineWords - 1) -
        (offset + count + (cachelineWords - 1)) % cachelineWords := by
    apply roundUp_eq <;> simp only [cachelineWords, cachelineSize, wordSize] <;> omega
  have hle := le_roundUp (offset + count) cachelineWords
  simp only [flushWords, Nat.mod_eq_of_lt h, ← hround]
  rw [Abi.sub_of_le (by omega) (by omega)]
  omega

/-- Where it wraps, the range stays inside the buffer only if it ends at the line of its offset or
at the one after it. -/
theorem flushWords_of_ge (c : CacheLine A cachelineSize) (ho : offset < A.modulus)
    (hc : count < A.modulus) (h : A.modulus ≤ offset + count + (cachelineWords - 1))
    {size : ℕ} (hs : size + cachelineWords < A.modulus) :
    offset - offset % cachelineWords + flushWords A offset count ≤ size ↔
      A.modulus < offset % cachelineWords + count + cachelineWords ∧
      offset - offset % cachelineWords +
        (if A.modulus < offset % cachelineWords + count then cachelineWords else 0) ≤ size := by
  obtain ⟨q, hq⟩ := words_dvd_modulus c
  obtain ⟨r, hr⟩ : ∃ r, offset + count + (cachelineWords - 1) = A.modulus + r :=
    ⟨_, (Nat.add_sub_cancel' h).symm⟩
  simp only [flushWords, hr, Nat.add_mod_left]
  have hwords : cachelineWords = 16 := rfl
  simp only [hwords] at *
  by_cases hrm : r < A.modulus
  · rw [Nat.mod_eq_of_lt hrm]
    by_cases hle : offset - offset % 16 ≤ r - r % 16
    · rw [Abi.sub_of_le hle (by omega)]
      split_ifs <;> omega
    · have hsub : A.sub (r - r % 16) (offset - offset % 16) =
          r - r % 16 + (A.modulus - (offset - offset % 16)) := Nat.mod_eq_of_lt (by omega)
      rw [hsub]
      split_ifs <;> omega
  · -- The sum wraps twice: the offset is in the last line of all.
    constructor <;> omega

theorem target_room (hA : A = .arm32 ∨ A = .lp64) :
    tensorMemorySize + cachelineSize < A.modulus := by
  rcases hA with rfl | rfl <;> decide

/-- A flush passes its range on if that is inside the buffer and the buffer inside the memory. -/
theorem passes_flush_iff (os : Os) (c : CacheLine A cachelineSize) (hok : w.ok = true)
    (hv : b.valid = true) (ho : offset < A.modulus) (hc : count ≠ 0) :
    Passes w (strelaBufferFlush A os b offset count w) ↔
      offset - offset % cachelineWords + flushWords A offset count ≤ b.sizeWords ∧ InTensors b := by
  rw [strelaBufferFlush_eq c ho hc]
  constructor
  · intro hp
    by_contra hout
    rw [strelaBufferSync_of_outside hok hout] at hp
    exact not_passes_setErr _ (by decide) hp
  · intro hin
    rw [strelaBufferSync_of_inside hok hv hin]
    by_cases hz : flushWords A offset count = 0
    · simp only [strelaSync, hz, ne_eq, not_true_eq_false, and_false, if_false]
      exact .inl hok
    · exact (strelaSync_passes A os _ _ _ hok hz).1

theorem flushes_of_lt (c : CacheLine A cachelineSize)
    (hroom : tensorMemorySize + cachelineSize < A.modulus) (hok : w.ok = true)
    (hv : b.valid = true) (ho : offset < A.modulus) (hc : count ≠ 0)
    (h : offset + count + (cachelineWords - 1) < A.modulus)
    (hin : roundUp (offset + count) cachelineWords ≤ b.sizeWords ∧ InTensors b) :
    Flushes w (strelaBufferFlush A os b offset count w) b offset count := by
  obtain ⟨hend, hne⟩ := flushWords_of_lt ho hc h
  have hle := le_roundUp (offset + count) cachelineWords
  rw [strelaBufferFlush_eq c ho hc, strelaBufferSync_of_inside hok hv (by rwa [hend])]
  obtain ⟨reply, hlog⟩ := (strelaSync_passes A os w.dev.tensorsBoHandle flushFlags
    (A.add b.offsetWordsFromBase (offset - offset % cachelineWords)) hok hne).2
  obtain ⟨hsize, htensors⟩ := hin
  simp only [InTensors, tensorMemorySize, wordSize, cachelineSize] at htensors hroom
  refine ⟨_, _, reply, hlog, ?_, ?_⟩
  · rw [Abi.add_of_lt (by omega), Abi.mul_of_lt (by simp only [wordSize]; omega)]
    exact Nat.mul_le_mul_right _ (by omega)
  · rw [Abi.add_of_lt (by omega), Abi.mul_of_lt (by simp only [wordSize]; omega),
      Abi.mul_of_lt (by simp only [wordSize]; omega), ← Nat.add_mul]
    exact Nat.mul_le_mul_right _ (by omega)

theorem not_wrapsInside_of_lt (h : offset + count + (cachelineWords - 1) < A.modulus) :
    ¬ WrapsInside A b offset count := by
  rintro ⟨hwrap, -⟩
  have := Nat.mod_le offset cachelineWords
  simp only [cachelineWords, cachelineSize, wordSize] at h hwrap this
  omega

theorem InTensors.lt_of_ge (hb : InTensors b)
    (hroom : tensorMemorySize + cachelineSize < A.modulus)
    (h : A.modulus ≤ offset + count + (cachelineWords - 1)) :
    b.sizeWords + cachelineWords < A.modulus ∧ b.sizeWords < offset + count := by
  simp only [InTensors, cachelineWords, tensorMemorySize, wordSize, cachelineSize] at *
  omega

theorem passes_flush_iff_wraps (os : Os) (c : CacheLine A cachelineSize)
    (hroom : tensorMemorySize + cachelineSize < A.modulus) (hok : w.ok = true)
    (hv : b.valid = true) (ho : offset < A.modulus) (hcount : count < A.modulus) (hc : count ≠ 0)
    (h : A.modulus ≤ offset + count + (cachelineWords - 1)) :
    Passes w (strelaBufferFlush A os b offset count w) ↔ WrapsInside A b offset count := by
  rw [passes_flush_iff os c hok hv ho hc, WrapsInside]
  constructor
  · rintro ⟨hin, hb⟩
    obtain ⟨h₁, h₂⟩ := (flushWords_of_ge c ho hcount h (hb.lt_of_ge hroom h).1).mp hin
    exact ⟨h₁, hb, h₂⟩
  · rintro ⟨h₁, hb, h₂⟩
    exact ⟨(flushWords_of_ge c ho hcount h (hb.lt_of_ge hroom h).1).mpr ⟨h₁, h₂⟩, hb⟩

/-- On both targets a flush of an ok device is exact, whatever the buffer and the range, if and only
if a range inside the buffer is still inside it when its end is rounded up to a line, and a range
outside it does not wrap into it. -/
theorem flushExact_iff (hA : A = .arm32 ∨ A = .lp64) (hok : w.ok = true) (hv : b.valid = true)
    (ho : offset < A.modulus) (hcount : count < A.modulus) (hc : count ≠ 0) :
    FlushExact A os b offset count w ↔
      (offset + count ≤ b.sizeWords →
        roundUp (offset + count) cachelineWords ≤ b.sizeWords ∧ InTensors b) ∧
      (b.sizeWords < offset + count → ¬ WrapsInside A b offset count) := by
  have c := cacheLine_of_target hA
  have hroom := target_room hA
  have hle := le_roundUp (offset + count) cachelineWords
  by_cases h : offset + count + (cachelineWords - 1) < A.modulus
  · have hpass := passes_flush_iff os c hok hv ho hc
    rw [(flushWords_of_lt ho hc h).1] at hpass
    constructor
    · intro F
      exact ⟨fun hin => hpass.mp (F.accepts.mpr hin), fun _ => not_wrapsInside_of_lt h⟩
    · rintro ⟨hin, -⟩
      constructor
      · exact hpass.trans ⟨fun hr => hle.trans hr.1, hin⟩
      · exact fun hp => flushes_of_lt c hroom hok hv ho hc h (hpass.mp hp)
  · -- The range ends past every buffer, so that a flush that passes is not exact.
    rw [not_lt] at h
    have hwraps := passes_flush_iff_wraps os c hroom hok hv ho hcount hc h
    constructor
    · intro F
      constructor
      · intro hin
        have hb : InTensors b := (hwraps.mp (F.accepts.mpr hin)).2.1
        exact absurd hin (not_le.mpr (hb.lt_of_ge hroom h).2)
      · intro hout hw
        exact absurd (F.accepts.mp (hwraps.mpr hw)) (not_le.mpr hout)
    · rintro ⟨hin, hout⟩
      have hnot : ¬ offset + count ≤ b.sizeWords := fun hle =>
        absurd hle (not_le.mpr ((hin hle).2.lt_of_ge hroom h).2)
      have hno : ¬ Passes w (strelaBufferFlush A os b offset count w) := fun hp =>
        hout (not_le.mp hnot) (hwraps.mp hp)
      exact ⟨iff_of_false hno hnot, fun hp => absurd hp hno⟩

/-- Ninety-six of a hundred words are whole lines and are flushed. -/
theorem flushExact_iff_boardOne :
    FlushExact Abi.arm32 (fun _ _ => .ok 0) ⟨true, 16, 100⟩ 0 96 boardOne.world :=
  (flushExact_iff (.inl rfl) rfl rfl (by decide) (by decide) (by decide)).mpr
    ⟨fun _ => ⟨by decide, by unfold InTensors; decide⟩, fun h => absurd h (by decide)⟩

/-- All hundred words of a live buffer are refused. -/
theorem flush_refuses_boardOne :
    ((bufferLts boardMapping).restrict Bounded).Reach boardOne ∧
    (⟨true, 16, 100⟩ : Buffer) ∈ boardOne.live ∧ boardOne.world.ok = true ∧
    ¬ FlushExact Abi.arm32 (fun _ _ => .ok 0) ⟨true, 16, 100⟩ 0 100 boardOne.world := by
  refine ⟨reach_boardOne, List.mem_cons_self, rfl, fun F => ?_⟩
  have hp := F.accepts.mpr (by decide)
  have hfail : strelaBufferFlush Abi.arm32 (fun _ _ => .ok 0) ⟨true, 16, 100⟩ 0 100
      boardOne.world = boardOne.world.setErr errBadArg := rfl
  rw [hfail] at hp
  exact not_passes_setErr _ (by decide) hp

end Strela.Lib
