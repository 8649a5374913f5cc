import Strela.Allocator.Arena

/-! # Runs of the arena allocator

A run starts at `arena_init` and takes calls of the arena and writes of its
clients in any order. The state keeps beside the arena the blocks its clients
hold, each with the bytes they expect there, level by level: the blocks handed
out since the innermost open `temp_arena_memory_begin`, and below them those of
every mark that is still open. Closing a mark drops its blocks.
-/

namespace Strela.Allocator

open Foundation Foundation.Unsigned
open scoped List

/-- What a client holds: its bytes, and the alignment it asked for. -/
structure ArenaBlock extends Segment where
  align : ℕ
  deriving DecidableEq, Repr

def ArenaBlock.Apart (b c : ArenaBlock) : Prop := b.block.Apart c.block

instance : Std.Symm ArenaBlock.Apart := ⟨fun _ _ h => Block.Apart.symm h⟩

/-- A mark with the blocks handed out under it. -/
abbrev Level := TempArenaMemory × List ArenaBlock

structure ArenaState where
  arena : Arena
  mem : Mem
  blocks : List ArenaBlock
  scopes : List Level

namespace ArenaState

/-- The open levels, the innermost first; its mark is where the arena stands. -/
def levels (s : ArenaState) : List Level :=
  (tempArenaMemoryBegin s.arena, s.blocks) :: s.scopes

def live (s : ArenaState) : List ArenaBlock := s.levels.flatMap Prod.snd

def mapBlocks (s : ArenaState) (f : ArenaBlock → ArenaBlock) : ArenaState :=
  { s with
    blocks := s.blocks.map f
    scopes := s.scopes.map fun l => (l.1, l.2.map f) }

def dropBlock (s : ArenaState) (b : ArenaBlock) : ArenaState :=
  { s with
    blocks := s.blocks.filter (· ≠ b)
    scopes := s.scopes.map fun l => (l.1, l.2.filter (· ≠ b)) }

end ArenaState

inductive ArenaOp
  | alloc (size align : ℕ)
  | resize (b : ArenaBlock) (newSize align : ℕ)
  | free (b : ArenaBlock)
  | freeAll
  | tempBegin
  | tempEnd
  | write (x : ℕ) (v : UInt8)
  deriving DecidableEq

variable (A : Abi)

/-- In place, the alignment that is asked for is not looked at. -/
def resizedBlock (b : ArenaBlock) (newSize : ℕ) : ArenaBlock :=
  { b with toSegment := b.resized newSize }

def replaceBlock (b : ArenaBlock) (n : ℕ) (c : ArenaBlock) : ArenaBlock :=
  if c = b then resizedBlock b n else c

def arenaExec (s : ArenaState) : ArenaOp → Option ArenaState
  | .alloc size align => do
    let (p, arena, mem) ← arenaAllocAlign A s.arena s.mem size align
    if p = 0 then some { s with arena, mem }
    else some { s with
      arena, mem
      blocks := ⟨⟨p, List.replicate size 0⟩, align⟩ :: s.blocks }
  | .resize b newSize align => do
    let (p, arena, mem) ← arenaResizeAlign A s.arena s.mem b.start b.data.length newSize align
    let t := { s with arena, mem }
    if p = 0 then some t
    else if p = b.start ∧ b.data ≠ [] then
      some (t.mapBlocks (replaceBlock b newSize))
    else
      let t := t.dropBlock b
      some { t with blocks := ⟨⟨p, b.data.takeD newSize 0⟩, align⟩ :: t.blocks }
  | .free b => some ({ s with arena := arenaFree s.arena b.start }.dropBlock b)
  | .freeAll => some ⟨arenaFreeAll s.arena, s.mem, [], []⟩
  | .tempBegin => some { s with blocks := [], scopes := s.levels }
  | .tempEnd =>
    match s.scopes with
    | [] => none
    | (temp, blocks) :: scopes => some ⟨tempArenaMemoryEnd s.arena temp, s.mem, blocks, scopes⟩
  | .write x v =>
    some ({ s with mem := s.mem.storeByte x v }.mapBlocks fun b =>
      { b with toSegment := b.put x v })

/-- Sizes and alignments that a `size_t` can hold and that pass the assertions. -/
structure Asks (size align : ℕ) : Prop where
  pow2 : IsPow2 align
  align_lt : align < A.modulus
  size_lt : size < A.modulus

/-- Resized where it is, a block stays below the mark of every level that encloses it. -/
def KeepsMarks (buf : ℕ) (b : ArenaBlock) (newSize : ℕ) : List Level → Prop
  | [] => True
  | l :: ls => (b ∈ (l :: ls).flatMap Prod.snd → b.start + newSize ≤ buf + l.1.currOffset) ∧
      KeepsMarks buf b newSize ls

def Newest (a : Arena) (b : ArenaBlock) : Prop := b.start = a.buf + a.prevOffset ∧ b.data ≠ []

instance (a : Arena) (b : ArenaBlock) : Decidable (Newest a b) :=
  inferInstanceAs (Decidable (_ ∧ _))

/-- What the clients keep to: sizes that do not wrap into the buffer, their own blocks, and
growing none of them past a mark. -/
def ArenaAllowed (s : ArenaState) : ArenaOp → Prop
  | .alloc size align => Asks A size align ∧ ¬ s.arena.Wraps A (s.arena.next align) size
  | .resize b newSize align => b ∈ s.live ∧ Asks A newSize align ∧
      if Newest s.arena b then
        ¬ s.arena.Wraps A s.arena.prevOffset newSize ∧ KeepsMarks s.arena.buf b newSize s.scopes
      else ¬ s.arena.Wraps A (s.arena.next align) newSize
  | .free b => b ∈ s.live
  | .freeAll => True
  | .tempBegin => True
  | .tempEnd => True
  | .write x _ => ∃ b ∈ s.live, x ∈ b.block

/-- The runs over one buffer, from the memory `m₀`. -/
def arenaLts (R : Region A) (m₀ : Mem) : Lts ArenaState ArenaOp where
  start s := s = ⟨arenaInit R.buf R.len, m₀, [], []⟩
  step s op s' := ArenaAllowed A s op ∧ arenaExec A s op = some s'

/-! ## The invariant of the run -/

def Below (buf : ℕ) (t : TempArenaMemory) (b : ArenaBlock) : Prop :=
  b.block.stop ≤ buf + t.currOffset ∧
    (b.block.stop ≤ buf + t.prevOffset ∨ b.start = buf + t.prevOffset)

/-- The outer level is older than the mark of the inner one. -/
def Encloses (buf : ℕ) (l l' : Level) : Prop :=
  l'.1.prevOffset ≤ l.1.prevOffset ∧ ∀ b ∈ l'.2, Below buf l.1 b

structure Levels (R : Region A) (ls : List Level) : Prop where
  marks : ∀ l ∈ ls, l.1.prevOffset ≤ l.1.currOffset ∧ l.1.currOffset ≤ R.len
  own : ∀ l ∈ ls, ∀ b ∈ l.2, Below R.buf l.1 b
  nested : ls.Pairwise (Encloses R.buf)

/-- Every block is where its client thinks and holds what its client expects. -/
structure ArenaValid (R : Region A) (m₀ : Mem) (s : ArenaState) : Prop where
  buf : s.arena.buf = R.buf
  len : s.arena.bufLen = R.len
  levels : Levels A R s.levels
  apart : s.live.Pairwise ArenaBlock.Apart
  placed : ∀ b ∈ s.live, R.buf ≤ b.start ∧ b.start % b.align = 0
  held : ∀ b ∈ s.live, b.Held s.mem
  outside : m₀.EqOff {x | R.buf ≤ x ∧ x < R.buf + R.len} s.mem

variable {A} {R : Region A} {m₀ m' : Mem} {s s' : ArenaState} {op : ArenaOp} {b c : ArenaBlock}
  {l : Level} {ls : List Level} {t t' : TempArenaMemory} {bs : List ArenaBlock} {n x : ℕ}
  {v : UInt8} {buf : ℕ}

theorem live_mapBlocks (s : ArenaState) (f : ArenaBlock → ArenaBlock) :
    (s.mapBlocks f).live = s.live.map f := by
  have hlevels : (s.mapBlocks f).levels = s.levels.map fun l => (l.1, l.2.map f) := rfl
  rw [ArenaState.live, hlevels, List.flatMap_map, ArenaState.live, List.map_flatMap]

theorem live_dropBlock (s : ArenaState) (b : ArenaBlock) :
    (s.dropBlock b).live = s.live.filter (· ≠ b) := by
  have hlevels : (s.dropBlock b).levels = s.levels.map fun l => (l.1, l.2.filter (· ≠ b)) := rfl
  rw [ArenaState.live, hlevels, List.flatMap_map, ArenaState.live, List.filter_flatMap]

theorem below_congr (h : c.block = b.block) : Below buf t c ↔ Below buf t b := by
  have hs : c.start = b.start := congrArg Block.start h
  simp only [Below, h, hs]

namespace Levels

theorem cons_iff : Levels A R (l :: ls) ↔
    (l.1.prevOffset ≤ l.1.currOffset ∧ l.1.currOffset ≤ R.len) ∧ (∀ b ∈ l.2, Below R.buf l.1 b) ∧
      (∀ l' ∈ ls, Encloses R.buf l l') ∧ Levels A R ls := by
  constructor
  · rintro ⟨hm, ho, hn⟩
    obtain ⟨hh, ht⟩ := List.pairwise_cons.mp hn
    exact ⟨hm l List.mem_cons_self, ho l List.mem_cons_self, hh,
      fun l' hl => hm l' (List.mem_cons_of_mem _ hl),
      fun l' hl => ho l' (List.mem_cons_of_mem _ hl), ht⟩
  · rintro ⟨hm, ho, hn, h⟩
    constructor
    · exact List.forall_mem_cons.mpr ⟨hm, h.marks⟩
    · exact List.forall_mem_cons.mpr ⟨ho, h.own⟩
    · exact List.pairwise_cons.mpr ⟨hn, h.nested⟩

theorem below_head (h : Levels A R (l :: ls)) (hb : b ∈ (l :: ls).flatMap Prod.snd) :
    Below R.buf l.1 b := by
  obtain ⟨-, ho, hn, -⟩ := cons_iff.mp h
  rw [List.flatMap_cons, List.mem_append, List.mem_flatMap] at hb
  rcases hb with hb | ⟨l', hl, hb⟩
  · exact ho b hb
  · exact (hn l' hl).2 b hb

/-- Only where the blocks lie matters, and blocks may be given up on any level. -/
theorem rearrange (h : Levels A R ls) {g : List ArenaBlock → List ArenaBlock}
    (hg : ∀ bs, ∀ c ∈ g bs, ∃ b ∈ bs, c.block = b.block) :
    Levels A R (ls.map fun l => (l.1, g l.2)) := by
  have hbelow : ∀ {t bs}, (∀ b ∈ bs, Below R.buf t b) → ∀ c ∈ g bs, Below R.buf t c := by
    intro t bs ho c hc
    obtain ⟨b, hb, he⟩ := hg bs c hc
    exact (below_congr he).mpr (ho b hb)
  constructor
  · intro l' hl'
    obtain ⟨l, hl, rfl⟩ := List.mem_map.mp hl'
    exact h.marks l hl
  · intro l' hl'
    obtain ⟨l, hl, rfl⟩ := List.mem_map.mp hl'
    exact hbelow (h.own l hl)
  · exact List.pairwise_map.mpr (h.nested.imp fun ⟨hp, ho⟩ => ⟨hp, hbelow ho⟩)

theorem push (h : Levels A R ((t, bs) :: ls)) (hp : t.currOffset ≤ t'.prevOffset)
    (hc : t'.prevOffset ≤ t'.currOffset) (hl : t'.currOffset ≤ R.len)
    (hb : b.start = R.buf + t'.prevOffset) (hs : b.block.stop = R.buf + t'.currOffset) :
    Levels A R ((t', b :: bs) :: ls) := by
  obtain ⟨hm, ho, hn, ht⟩ := cons_iff.mp h
  have hup : ∀ c, Below R.buf t c → Below R.buf t' c := by
    rintro c ⟨h₁, -⟩
    exact ⟨by omega, .inl (by omega)⟩
  refine cons_iff.mpr ⟨⟨hc, hl⟩, ?_, ?_, ht⟩
  · rintro c hc
    rcases List.mem_cons.mp hc with rfl | hc
    · exact ⟨hs.le, .inr hb⟩
    · exact hup c (ho c hc)
  · rintro l' hl'
    obtain ⟨h₁, h₂⟩ := hn l' hl'
    simp only at hm h₁
    exact ⟨by simp only; omega, fun c hc => hup c (h₂ c hc)⟩

theorem stop_le_of_newest (h : Levels A R ((t, bs) :: ls))
    (hapart : (((t, bs) :: ls).flatMap Prod.snd).Pairwise ArenaBlock.Apart)
    (hb : b ∈ ((t, bs) :: ls).flatMap Prod.snd) (hs : b.start = R.buf + t.prevOffset)
    (hd : b.data ≠ []) (hc : c ∈ ((t, bs) :: ls).flatMap Prod.snd) (hne : c ≠ b) :
    c.block.stop ≤ R.buf + t.prevOffset := by
  have hpos := List.length_pos_iff.mpr hd
  have hcb : c.block.Apart b.block := hapart.forall hc hb hne
  obtain ⟨-, hle | heq⟩ := h.below_head hc
  · exact hle
  · simp only [Block.Apart, Segment.block, Block.stop] at hcb ⊢
    simp only at heq
    omega

theorem resize_scopes (h : Levels A R ls) (hk : KeepsMarks R.buf b n ls) {p : ℕ}
    (hp : ∀ l ∈ ls, l.1.prevOffset ≤ p) (hs : b.start = R.buf + p) (hd : b.data ≠ []) :
    Levels A R (ls.map fun l => (l.1, l.2.map (replaceBlock b n))) := by
  induction ls with
  | nil => exact h
  | cons l ls ih =>
    obtain ⟨hm, ho, hn, ht⟩ := cons_iff.mp h
    obtain ⟨hmark, hk⟩ := hk
    have hpl := hp l List.mem_cons_self
    have hpos := List.length_pos_iff.mpr hd
    have hkeep : ∀ c ∈ (l :: ls).flatMap Prod.snd,
        Below R.buf l.1 (replaceBlock b n c) := by
      intro c hc
      have hb := h.below_head hc
      by_cases he : c = b
      · subst he
        obtain ⟨h₁, h₂ | h₂⟩ := hb
        · simp only [Segment.block, Block.stop] at h₂
          omega
        · have := hmark hc
          rw [replaceBlock, if_pos rfl]
          exact ⟨by simpa [Segment.block, Block.stop, resizedBlock, Segment.resized] using this,
            .inr h₂⟩
      · rwa [replaceBlock, if_neg he]
    refine cons_iff.mpr ⟨hm, ?_, ?_, ih ht hk fun l' hl => hp l' (List.mem_cons_of_mem _ hl)⟩
    · intro c' hc'
      obtain ⟨c, hc, rfl⟩ := List.mem_map.mp hc'
      exact hkeep c (List.mem_flatMap.mpr ⟨l, List.mem_cons_self, hc⟩)
    · intro l' hl'
      obtain ⟨l₀, hl, rfl⟩ := List.mem_map.mp hl'
      refine ⟨(hn l₀ hl).1, fun c' hc' => ?_⟩
      obtain ⟨c, hc, rfl⟩ := List.mem_map.mp hc'
      exact hkeep c (List.mem_flatMap.mpr ⟨l₀, List.mem_cons_of_mem _ hl, hc⟩)

theorem resize (h : Levels A R ((t, bs) :: ls))
    (hapart : (((t, bs) :: ls).flatMap Prod.snd).Pairwise ArenaBlock.Apart)
    (hb : b ∈ ((t, bs) :: ls).flatMap Prod.snd) (hs : b.start = R.buf + t.prevOffset)
    (hd : b.data ≠ []) (hn : t.prevOffset + n ≤ R.len) (hk : KeepsMarks R.buf b n ls) :
    Levels A R ((⟨t.prevOffset, t.prevOffset + n⟩, bs.map (replaceBlock b n)) ::
      ls.map fun l => (l.1, l.2.map (replaceBlock b n))) := by
  obtain ⟨hm, ho, hen, ht⟩ := cons_iff.mp h
  have hbelow : ∀ c ∈ ((t, bs) :: ls).flatMap Prod.snd,
      Below R.buf ⟨t.prevOffset, t.prevOffset + n⟩ (replaceBlock b n c) := by
    intro c hc
    by_cases he : c = b
    · subst he
      rw [replaceBlock, if_pos rfl]
      refine ⟨?_, .inr hs⟩
      simp only [Segment.block, Block.stop, resizedBlock, Segment.resized, List.takeD_length, hs]
      omega
    · have := h.stop_le_of_newest hapart hb hs hd hc he
      rw [replaceBlock, if_neg he]
      exact ⟨by simp only; omega, .inl this⟩
  refine cons_iff.mpr ⟨⟨Nat.le_add_right _ _, hn⟩, ?_, ?_,
    ht.resize_scopes hk (fun l hl => (hen l hl).1) hs hd⟩
  · intro c' hc'
    obtain ⟨c, hc, rfl⟩ := List.mem_map.mp hc'
    exact hbelow c (List.mem_flatMap.mpr ⟨_, List.mem_cons_self, hc⟩)
  · intro l' hl'
    obtain ⟨l₀, hl, rfl⟩ := List.mem_map.mp hl'
    refine ⟨(hen l₀ hl).1, fun c' hc' => ?_⟩
    obtain ⟨c, hc, rfl⟩ := List.mem_map.mp hc'
    exact hbelow c (List.mem_flatMap.mpr ⟨l₀, List.mem_cons_of_mem _ hl, hc⟩)

end Levels

/-! ## Steps -/

namespace ArenaValid

theorem arena_over (V : ArenaValid A R m₀ s) : s.arena.Over A R := by
  obtain ⟨⟨h₁, h₂⟩, -⟩ := Levels.cons_iff.mp V.levels
  exact ⟨V.buf, V.len, h₁, by rw [V.len]; exact h₂⟩

theorem stop_le (V : ArenaValid A R m₀ s) (hb : b ∈ s.live) :
    b.block.stop ≤ R.buf + s.arena.currOffset :=
  (V.levels.below_head hb).1

theorem dropBlock (V : ArenaValid A R m₀ s) (b : ArenaBlock) :
    ArenaValid A R m₀ (s.dropBlock b) := by
  have hsub : ∀ c ∈ (s.dropBlock b).live, c ∈ s.live := by
    intro c hc
    rw [live_dropBlock] at hc
    exact List.mem_of_mem_filter hc
  constructor
  · exact V.buf
  · exact V.len
  · exact V.levels.rearrange fun bs c hc => ⟨c, List.mem_of_mem_filter hc, rfl⟩
  · rw [live_dropBlock]
    exact V.apart.filter _
  · exact fun c hc => V.placed c (hsub c hc)
  · exact fun c hc => V.held c (hsub c hc)
  · exact V.outside

theorem push (V : ArenaValid A R m₀ s) {o : ℕ} (ho : s.arena.currOffset ≤ o)
    (hlen : o + b.data.length ≤ R.len) (hs : b.start = R.buf + o) (hal : b.start % b.align = 0)
    (hm : s.mem.EqOff {x | x ∈ b.block} m') (hb : b.Held m') :
    ArenaValid A R m₀ { s with
      arena := { s.arena with prevOffset := o, currOffset := o + b.data.length }
      mem := m'
      blocks := b :: s.blocks } := by
  have hstop : b.block.stop = R.buf + (o + b.data.length) := by
    simp only [Segment.block, Block.stop, hs]
    omega
  have hclear : ∀ c ∈ s.live, c.block.stop ≤ b.start := by
    intro c hc
    have := V.stop_le hc
    omega
  constructor
  · exact V.buf
  · exact V.len
  · exact V.levels.push ho (Nat.le_add_right _ _) hlen hs hstop
  · refine List.pairwise_cons.mpr ⟨fun c hc => .inr (hclear c hc), V.apart⟩
  · refine List.forall_mem_cons.mpr ⟨⟨by omega, hal⟩, V.placed⟩
  · refine List.forall_mem_cons.mpr ⟨hb, fun c hc => (V.held c hc).congr fun x hx => hm x ?_⟩
    have hc := hclear c hc
    have hstart : b.block.start = b.start := rfl
    simp only [Set.mem_ofPred_eq, Block.mem_def] at hx ⊢
    omega
  · intro x hx
    have hnot : x ∉ {x | x ∈ b.block} := by
      have hstart : b.block.start = b.start := rfl
      simp only [Set.mem_ofPred_eq, Block.mem_def] at hx ⊢
      omega
    exact (hm x hnot).trans (V.outside x hx)

theorem resize (V : ArenaValid A R m₀ s) (hb : b ∈ s.live) (hnew : Newest s.arena b)
    (hlen : s.arena.prevOffset + n ≤ s.arena.bufLen)
    (hk : KeepsMarks s.arena.buf b n s.scopes) :
    ArenaValid A R m₀ ({ s with
      arena := { s.arena with currOffset := s.arena.prevOffset + n }
      mem := if b.data.length < n then
          s.mem.store (b.start + b.data.length) (n - b.data.length) 0 else s.mem }.mapBlocks
        (replaceBlock b n)) := by
  obtain ⟨hs, hd⟩ := hnew
  have hpos := List.length_pos_iff.mpr hd
  rw [V.buf] at hs hk
  rw [V.len] at hlen
  have hothers : ∀ c ∈ s.live, c ≠ b → c.block.stop ≤ b.start := by
    intro c hc hne
    rw [hs]
    exact V.levels.stop_le_of_newest V.apart hb hs hd hc hne
  obtain ⟨m', hm'⟩ : ∃ m', m' = if b.data.length < n then
      s.mem.store (b.start + b.data.length) (n - b.data.length) 0 else s.mem := ⟨_, rfl⟩
  have hoff : s.mem.EqOff {x | b.start + b.data.length ≤ x ∧ x < b.start + n} m' := by
    intro x hx
    simp only [Set.mem_ofPred_eq] at hx
    rw [hm']
    split
    · exact Mem.store_of_not_mem (by omega)
    · rfl
  rw [← hm']
  constructor
  · exact V.buf
  · exact V.len
  · exact V.levels.resize V.apart hb hs hd hlen hk
  · rw [live_mapBlocks]
    refine List.pairwise_map.mpr (V.apart.imp_of_mem fun {c d} hc hd' hcd => ?_)
    have hcb := hothers c hc
    have hdb := hothers d hd'
    by_cases hce : c = b <;> by_cases hde : d = b
    · subst hce hde
      simp only [ArenaBlock.Apart, Block.Apart, Segment.block, Block.stop] at hcd
      omega
    · rw [replaceBlock, replaceBlock, if_pos hce, if_neg hde]
      exact .inr (hdb hde)
    · rw [replaceBlock, replaceBlock, if_neg hce, if_pos hde]
      exact .inl (hcb hce)
    · rwa [replaceBlock, replaceBlock, if_neg hce, if_neg hde]
  · rw [live_mapBlocks]
    intro c' hc'
    obtain ⟨c, hc, rfl⟩ := List.mem_map.mp hc'
    by_cases hce : c = b
    · subst hce
      rw [replaceBlock, if_pos rfl]
      exact V.placed c hc
    · rw [replaceBlock, if_neg hce]
      exact V.placed c hc
  · rw [live_mapBlocks]
    intro c' hc'
    obtain ⟨c, hc, rfl⟩ := List.mem_map.mp hc'
    by_cases hce : c = b
    · subst hce
      rw [replaceBlock, if_pos rfl]
      have hheld := V.held c hc
      simp only [ArenaState.mapBlocks, hm']
      split
      · exact hheld.resized ‹_›
      · exact hheld.shrunk (by omega)
    · rw [replaceBlock, if_neg hce]
      refine (V.held c hc).congr fun x hx => hoff x ?_
      have := hothers c hc hce
      simp only [Set.mem_ofPred_eq, Block.mem_def] at hx ⊢
      omega
  · intro x hx
    refine (hoff x ?_).trans (V.outside x hx)
    simp only [Set.mem_ofPred_eq] at hx ⊢
    omega

theorem write (V : ArenaValid A R m₀ s) (hb : b ∈ s.live) (hx : x ∈ b.block) (v : UInt8) :
    ArenaValid A R m₀ ({ s with mem := s.mem.storeByte x v }.mapBlocks fun b =>
      { b with toSegment := b.put x v }) := by
  have hstop := V.stop_le hb
  have hin := V.placed b hb
  obtain ⟨⟨-, hcurr⟩, -⟩ := Levels.cons_iff.mp V.levels
  constructor
  · exact V.buf
  · exact V.len
  · refine V.levels.rearrange fun bs c' hc' => ?_
    obtain ⟨c, hc, rfl⟩ := List.mem_map.mp hc'
    exact ⟨c, hc, Segment.block_put⟩
  · rw [live_mapBlocks]
    refine List.pairwise_map.mpr (V.apart.imp fun hcd => ?_)
    simpa only [ArenaBlock.Apart, Segment.block_put] using hcd
  · rw [live_mapBlocks]
    intro c' hc'
    obtain ⟨c, hc, rfl⟩ := List.mem_map.mp hc'
    exact V.placed c hc
  · rw [live_mapBlocks]
    intro c' hc'
    obtain ⟨c, hc, rfl⟩ := List.mem_map.mp hc'
    exact (V.held c hc).put
  · intro y hy
    have hne : y ≠ x := by
      rintro rfl
      have hstart : b.block.start = b.start := rfl
      simp only [Set.mem_ofPred_eq, Block.mem_def] at hy hx
      simp only [tempArenaMemoryBegin] at hcurr
      omega
    exact (if_neg hne).trans (V.outside y hy)

theorem alloc (V : ArenaValid A R m₀ s) {size align : ℕ} (hask : Asks A size align)
    (hfit : s.arena.next align + size ≤ s.arena.bufLen) {data : List UInt8}
    (hlen : data.length = size)
    (hm : s.mem.EqOff {x | x ∈ Block.mk (s.arena.buf + s.arena.next align) size} m')
    (hheld : Segment.Held m' ⟨s.arena.buf + s.arena.next align, data⟩) :
    ArenaValid A R m₀ { s with
      arena := { s.arena with
        prevOffset := s.arena.next align
        currOffset := s.arena.next align + size }
      mem := m'
      blocks := ⟨⟨s.arena.buf + s.arena.next align, data⟩, align⟩ :: s.blocks } := by
  subst hlen
  have hal : (s.arena.buf + s.arena.next align) % align = 0 := by
    rw [s.arena.buf_add_next, roundUp_mod _ hask.pow2.pos]
  rw [V.len] at hfit
  exact V.push (b := ⟨⟨s.arena.buf + s.arena.next align, data⟩, align⟩) (s.arena.le_next align)
    hfit (by rw [V.buf]) hal hm hheld

theorem exec_alloc (V : ArenaValid A R m₀ s) {size align : ℕ}
    (ha : ArenaAllowed A s (.alloc size align))
    (he : arenaExec A s (.alloc size align) = some s') : ArenaValid A R m₀ s' := by
  obtain ⟨hask, hw⟩ := ha
  obtain ⟨r, hr, hg⟩ := arenaAllocAlign_grants V.arena_over hask.pow2 hask.align_lt hask.size_lt hw
    s.mem
  have hpos := R.buf_pos
  have hbuf := V.buf
  simp only [arenaExec, hr, Option.bind_eq_bind, Option.bind_some] at he
  rcases hg with ⟨-, rfl⟩ | ⟨hfit, rfl⟩
  · obtain rfl := Option.some.inj ((if_pos rfl).symm.trans he)
    exact V
  · rw [if_neg (by omega)] at he
    obtain rfl := Option.some.inj he
    refine V.alloc hask hfit List.length_replicate ?_ (Segment.held_store_zero _ _ _)
    exact .store fun x hl hu => ⟨hl, hu⟩

/-- A block given up and another one with its bytes put where the next allocation goes. -/
theorem move (V : ArenaValid A R m₀ s) (hb : b ∈ s.live) {align : ℕ} (hask : Asks A n align)
    (hfit : s.arena.next align + n ≤ s.arena.bufLen) :
    ArenaValid A R m₀ { s.dropBlock b with
      arena := { s.arena with
        prevOffset := s.arena.next align
        currOffset := s.arena.next align + n }
      mem := (s.mem.store (s.arena.buf + s.arena.next align) n 0).copy
        (s.arena.buf + s.arena.next align) b.start (min b.data.length n)
      blocks := ⟨⟨s.arena.buf + s.arena.next align, b.data.takeD n 0⟩, align⟩ ::
        (s.dropBlock b).blocks } := by
  have hstop := V.stop_le hb
  have hle := s.arena.le_next align
  have hbuf := V.buf
  refine (V.dropBlock b).alloc hask hfit (List.takeD_length _ _ _) ?_ ((V.held b hb).moved ?_)
  · intro x hx
    simp only [ArenaState.dropBlock, Set.mem_ofPred_eq, Block.mem_def, Block.stop] at hx ⊢
    rw [Mem.copy, if_neg (by omega), Mem.store_of_not_mem (by omega)]
  · exact .inl (by simp only; omega)

theorem exec_resize (V : ArenaValid A R m₀ s) {align : ℕ}
    (ha : ArenaAllowed A s (.resize b n align))
    (he : arenaExec A s (.resize b n align) = some s') : ArenaValid A R m₀ s' := by
  obtain ⟨hb, hask, hw⟩ := ha
  have hpos := R.buf_pos
  have hbuf := V.buf
  have hlen := V.len
  have hstop := V.stop_le hb
  have hcurr := V.arena_over.curr
  have hin := V.placed b hb
  simp only [Segment.block, Block.stop] at hstop
  by_cases hd : b.data = []
  · -- An empty block is given up for a new one.
    rw [if_neg fun h => h.2 hd] at hw
    obtain ⟨r, hr, hg⟩ := arenaAllocAlign_grants V.arena_over hask.pow2 hask.align_lt hask.size_lt
      hw s.mem
    simp only [arenaExec, hd, List.length_nil,
      arenaResizeAlign_nothing hask.pow2 hask.align_lt, hr, Option.bind_eq_bind, Option.bind_some,
      ne_eq, not_true_eq_false, and_false, if_false] at he
    rcases hg with ⟨-, rfl⟩ | ⟨hfit, rfl⟩
    · obtain rfl := Option.some.inj ((if_pos rfl).symm.trans he)
      exact V
    · rw [if_neg (by omega)] at he
      obtain rfl := Option.some.inj he
      refine (V.dropBlock b).alloc hask hfit (List.takeD_length _ _ _) ?_ ?_
      · exact .store fun x hl hu => ⟨hl, hu⟩
      · rw [List.takeD_nil]
        exact Segment.held_store_zero _ _ _
  have hlength := List.length_pos_iff.mpr hd
  by_cases hnew : Newest s.arena b
  · rw [if_pos hnew] at hw
    obtain ⟨hs, -⟩ := hnew
    have hr := arenaResizeAlign_newest V.arena_over hask.pow2 hask.align_lt hask.size_lt hlength
      (by omega) hw.1 s.mem
    rw [← hs] at hr
    simp only [arenaExec, hr] at he
    by_cases hfit : s.arena.prevOffset + n ≤ s.arena.bufLen
    · rw [if_pos hfit] at he
      simp only [Option.bind_eq_bind, Option.bind_some] at he
      rw [if_neg (by omega), if_pos ⟨trivial, hd⟩] at he
      obtain rfl := Option.some.inj he
      exact V.resize hb ⟨hs, hd⟩ hfit hw.2
    · rw [if_neg hfit] at he
      obtain rfl := Option.some.inj he
      exact V
  · rw [if_neg hnew] at hw
    have hne : b.start ≠ s.arena.buf + s.arena.prevOffset := fun h => hnew ⟨h, hd⟩
    have hr := arenaResizeAlign_older V.arena_over hask.pow2 hask.align_lt hask.size_lt hlength
      (by omega) (by omega) hne hw s.mem
    simp only [arenaExec, hr] at he
    by_cases hfit : s.arena.next align + n ≤ s.arena.bufLen
    · have hle := s.arena.le_next align
      rw [if_pos hfit] at he
      simp only [Option.bind_eq_bind, Option.bind_some] at he
      rw [if_neg (by omega), if_neg (by omega)] at he
      obtain rfl := Option.some.inj he
      exact V.move hb hask hfit
    · rw [if_neg hfit] at he
      cases he

theorem tempBegin (V : ArenaValid A R m₀ s) :
    ArenaValid A R m₀ { s with blocks := [], scopes := s.levels } := by
  have hlive : ArenaState.live { s with blocks := [], scopes := s.levels } = s.live := rfl
  obtain ⟨hm, ho, hn, ht⟩ := Levels.cons_iff.mp V.levels
  constructor
  · exact V.buf
  · exact V.len
  · refine Levels.cons_iff.mpr ⟨hm, by simp, ?_, V.levels⟩
    refine List.forall_mem_cons.mpr ⟨⟨le_rfl, ho⟩, ?_⟩
    exact fun l hl => ⟨(hn l hl).1, (hn l hl).2⟩
  · rw [hlive]
    exact V.apart
  · rw [hlive]
    exact V.placed
  · rw [hlive]
    exact V.held
  · exact V.outside

theorem tempEnd (V : ArenaValid A R m₀ s) (hs : s.scopes = (t, bs) :: ls) :
    ArenaValid A R m₀ ⟨tempArenaMemoryEnd s.arena t, s.mem, bs, ls⟩ := by
  have hlevels : s.levels = (tempArenaMemoryBegin s.arena, s.blocks) :: (t, bs) :: ls := by
    rw [ArenaState.levels, hs]
  have hsub : ((t, bs) :: ls).flatMap Prod.snd <+ s.live := by
    rw [ArenaState.live, hlevels, List.flatMap_cons]
    exact List.sublist_append_right _ _
  obtain ⟨-, -, -, ht⟩ := Levels.cons_iff.mp (hlevels ▸ V.levels)
  constructor
  · exact V.buf
  · exact V.len
  · exact ht
  · exact V.apart.sublist hsub
  · exact fun b hb => V.placed b (hsub.subset hb)
  · exact fun b hb => V.held b (hsub.subset hb)
  · exact V.outside

theorem empty (hb : s.arena.buf = R.buf) (hl : s.arena.bufLen = R.len)
    (hp : s.arena.prevOffset = 0) (hc : s.arena.currOffset = 0) (hbs : s.blocks = [])
    (hls : s.scopes = []) (hm : m₀.EqOff {x | R.buf ≤ x ∧ x < R.buf + R.len} s.mem) :
    ArenaValid A R m₀ s := by
  have hlive : s.live = [] := by simp [ArenaState.live, ArenaState.levels, hbs, hls]
  constructor
  · exact hb
  · exact hl
  · rw [ArenaState.levels, hbs, hls]
    refine Levels.cons_iff.mpr ⟨?_, by simp, by simp, ⟨by simp, by simp, List.Pairwise.nil⟩⟩
    simp [tempArenaMemoryBegin, hp, hc]
  · rw [hlive]
    exact List.Pairwise.nil
  · simp [hlive]
  · simp [hlive]
  · exact hm

theorem exec (V : ArenaValid A R m₀ s) (ha : ArenaAllowed A s op)
    (he : arenaExec A s op = some s') : ArenaValid A R m₀ s' := by
  cases op with
  | alloc size align => exact V.exec_alloc ha he
  | resize b n align => exact V.exec_resize ha he
  | free b =>
    obtain rfl := Option.some.inj he
    exact V.dropBlock b
  | freeAll =>
    obtain rfl := Option.some.inj he
    exact .empty V.buf V.len rfl rfl rfl rfl V.outside
  | tempBegin =>
    obtain rfl := Option.some.inj he
    exact V.tempBegin
  | tempEnd =>
    rw [arenaExec] at he
    split at he
    · cases he
    · obtain rfl := Option.some.inj he
      exact V.tempEnd ‹_›
  | write x v =>
    obtain rfl := Option.some.inj he
    obtain ⟨b, hb, hx⟩ := ha
    exact V.write hb hx v

end ArenaValid

theorem arenaValid_of_reach (hr : (arenaLts A R m₀).Reach s) : ArenaValid A R m₀ s := by
  refine hr.invariant (P := ArenaValid A R m₀) ?_ ?_
  · rintro s rfl
    exact .empty rfl rfl rfl rfl rfl rfl (.refl _ _)
  · rintro s op s' - V ⟨ha, he⟩
    exact V.exec ha he

/-- Whatever calls are made, every block a client holds is aligned, inside the buffer and apart
from the others, its bytes are those its client put there or that a resize carried over, zero
elsewhere, and nothing outside the buffer is touched. -/
theorem reach_arena (hr : (arenaLts A R m₀).Reach s) :
    (∀ b ∈ s.live, b.start % b.align = 0 ∧ R.buf ≤ b.start ∧
      b.start + b.data.length ≤ R.buf + R.len ∧
      ∀ i < b.data.length, s.mem (b.start + i) = b.data.getD i 0) ∧
    s.live.Pairwise ArenaBlock.Apart ∧
    ∀ x, ¬ (R.buf ≤ x ∧ x < R.buf + R.len) → s.mem x = m₀ x := by
  have V := arenaValid_of_reach hr
  have hcurr := V.arena_over.curr
  rw [V.len] at hcurr
  refine ⟨fun b hb => ?_, V.apart, V.outside⟩
  have hstop := V.stop_le hb
  obtain ⟨hl, hal⟩ := V.placed b hb
  simp only [Segment.block, Block.stop] at hstop
  exact ⟨hal, hl, by omega, V.held b hb⟩

/-! A short run on the board: a block is written, a mark is opened, and the block moves behind a
second one. -/

def smallRegion : Region Abi.arm32 where
  buf := 16
  len := 64
  buf_pos := by decide
  bound := by decide

def arenaAfter (s : ArenaState) (op : ArenaOp) : ArenaState := (arenaExec Abi.arm32 s op).getD s

theorem reach_arenaAfter (hr : (arenaLts Abi.arm32 smallRegion m₀).Reach s)
    (ha : ArenaAllowed Abi.arm32 s op) (hs : (arenaExec Abi.arm32 s op).isSome) :
    (arenaLts Abi.arm32 smallRegion m₀).Reach (arenaAfter s op) := by
  obtain ⟨t, ht⟩ := Option.isSome_iff_exists.mp hs
  refine hr.step ⟨ha, ?_⟩
  rw [arenaAfter, ht, Option.getD_some]

def smallArena : ArenaState := ⟨arenaInit 16 64, fun _ => 255, [], []⟩

def smallWritten : ArenaState := arenaAfter (arenaAfter smallArena (.alloc 4 8)) (.write 16 7)

def smallMarked : ArenaState := arenaAfter (arenaAfter smallWritten .tempBegin) (.alloc 4 8)

def smallMoved : ArenaState := arenaAfter smallMarked (.resize ⟨⟨16, [7, 0, 0, 0]⟩, 8⟩ 6 8)

theorem asks_eight {size : ℕ} (h : size < 256) : Asks Abi.arm32 size 8 :=
  ⟨⟨3, rfl⟩, by decide, h.trans (by decide)⟩

theorem reach_smallWritten :
    (arenaLts Abi.arm32 smallRegion fun _ => 255).Reach smallWritten := by
  have hone : (arenaLts Abi.arm32 smallRegion fun _ => 255).Reach
      (arenaAfter smallArena (.alloc 4 8)) :=
    reach_arenaAfter (.start rfl) ⟨asks_eight (by decide), by decide +kernel⟩ (by decide +kernel)
  exact reach_arenaAfter hone ⟨⟨⟨16, [0, 0, 0, 0]⟩, 8⟩, by decide +kernel, by decide⟩ rfl

theorem reach_smallMarked :
    (arenaLts Abi.arm32 smallRegion fun _ => 255).Reach smallMarked := by
  have hopen : (arenaLts Abi.arm32 smallRegion fun _ => 255).Reach
      (arenaAfter smallWritten .tempBegin) := reach_arenaAfter reach_smallWritten trivial rfl
  exact reach_arenaAfter hopen ⟨asks_eight (by decide), by decide +kernel⟩ (by decide +kernel)

theorem reach_smallMoved :
    (arenaLts Abi.arm32 smallRegion fun _ => 255).Reach smallMoved := by
  refine reach_arenaAfter reach_smallMarked
    ⟨by decide +kernel, asks_eight (by decide), ?_⟩ (by decide +kernel)
  rw [if_neg (by decide +kernel)]
  decide +kernel

theorem reach_arena_smallMoved :
    smallMoved.live.map ArenaBlock.toSegment =
      [⟨32, [7, 0, 0, 0, 0, 0]⟩, ⟨24, [0, 0, 0, 0]⟩] ∧
    smallMoved.live.Pairwise ArenaBlock.Apart ∧
    ∀ x, ¬ (16 ≤ x ∧ x < 80) → smallMoved.mem x = 255 :=
  ⟨by decide +kernel, (reach_arena reach_smallMoved).2⟩

end Strela.Allocator
