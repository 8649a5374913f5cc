import Strela.Allocator.Layout
import Strela.Foundation.Segments
import Strela.Foundation.Transition

/-! # The arena allocator

Allocations are cut off the front of a buffer one after another and given back all
at once, or down to a mark. `arena_resize_align` works in place on the newest
allocation and moves every other one.
-/

namespace Strela.Allocator

open Foundation Foundation.Unsigned

structure Arena where
  buf : ℕ
  bufLen : ℕ
  prevOffset : ℕ
  currOffset : ℕ
  deriving DecidableEq, Repr

def defaultAlignment : ℕ := 8

variable (A : Abi)

def arenaInit (backing length : ℕ) : Arena where
  buf := backing
  bufLen := length
  currOffset := 0
  prevOffset := 0

/-- The pointer, null when there is no room left, with the arena and the memory after the call. -/
def arenaAllocAlign (a : Arena) (m : Mem) (size align : ℕ) : Option (ℕ × Arena × Mem) := do
  let currPtr := A.add a.buf a.currOffset
  let offset ← alignForwardUintptr A currPtr align
  let offset := A.sub offset a.buf
  if A.add offset size ≤ a.bufLen then
    let ptr := A.add a.buf offset
    some (ptr, { a with prevOffset := offset, currOffset := A.add offset size },
      m.store ptr size 0)
  else some (0, a, m)

def arenaAlloc (a : Arena) (m : Mem) (size : ℕ) : Option (ℕ × Arena × Mem) :=
  arenaAllocAlign A a m size defaultAlignment

def arenaFree (a : Arena) (_ : ℕ) : Arena := a

/-- Beside a failed assertion, `none` is a copy to the null pointer, which C leaves undefined
for any number of bytes. -/
def arenaResizeAlign (a : Arena) (m : Mem) (oldMem oldSize newSize align : ℕ) :
    Option (ℕ × Arena × Mem) :=
  if ¬ isPowerOfTwo A align then none
  else if oldMem = 0 ∨ oldSize = 0 then arenaAllocAlign A a m newSize align
  else if a.buf ≤ oldMem ∧ oldMem < A.add a.buf a.bufLen then
    if A.add a.buf a.prevOffset = oldMem then
      if A.add a.prevOffset newSize > a.bufLen then some (0, a, m)
      else
        some (oldMem, { a with currOffset := A.add a.prevOffset newSize },
          if newSize > oldSize then
            m.store (A.add a.buf (A.add a.prevOffset oldSize)) (A.sub newSize oldSize) 0
          else m)
    else do
      let (newMem, a, m) ← arenaAllocAlign A a m newSize align
      let copySize := if oldSize < newSize then oldSize else newSize
      if newMem = 0 then none
      else some (newMem, a, m.copy newMem oldMem copySize)
  else none

def arenaResize (a : Arena) (m : Mem) (oldMem oldSize newSize : ℕ) : Option (ℕ × Arena × Mem) :=
  arenaResizeAlign A a m oldMem oldSize newSize defaultAlignment

def arenaFreeAll (a : Arena) : Arena := { a with currOffset := 0, prevOffset := 0 }

/-- A mark, without the pointer to the arena it belongs to. -/
structure TempArenaMemory where
  prevOffset : ℕ
  currOffset : ℕ
  deriving DecidableEq, Repr

def tempArenaMemoryBegin (a : Arena) : TempArenaMemory := ⟨a.prevOffset, a.currOffset⟩

def tempArenaMemoryEnd (a : Arena) (temp : TempArenaMemory) : Arena :=
  { a with prevOffset := temp.prevOffset, currOffset := temp.currOffset }

/-! ## What one request does -/

structure Region (A : Abi) where
  buf : ℕ
  len : ℕ
  buf_pos : 0 < buf
  bound : buf + len < A.modulus

/-- The arena runs over the region and its offsets are in order. -/
structure Arena.Over (R : Region A) (a : Arena) : Prop where
  buf : a.buf = R.buf
  len : a.bufLen = R.len
  prev : a.prevOffset ≤ a.currOffset
  curr : a.currOffset ≤ a.bufLen

def Arena.next (a : Arena) (align : ℕ) : ℕ := roundUp (a.buf + a.currOffset) align - a.buf

/-- The end of an allocation at `offset` wraps and looks as if it were inside the buffer. -/
def Arena.Wraps (a : Arena) (offset size : ℕ) : Prop :=
  A.modulus ≤ offset + size ∧ offset + size ≤ A.modulus + a.bufLen

instance (a : Arena) (offset size : ℕ) : Decidable (a.Wraps A offset size) :=
  inferInstanceAs (Decidable (_ ∧ _))

variable {A} {R : Region A} {a a' : Arena} {m m' : Mem} {size align p : ℕ}

theorem Abi.modulus_pow2 : IsPow2 A.modulus :=
  ⟨8 * A.ptrBytes, by rw [Abi.modulus, Nat.pow_mul]⟩

theorem Arena.le_next (a : Arena) (align : ℕ) : a.currOffset ≤ a.next align := by
  have := le_roundUp (a.buf + a.currOffset) align
  unfold next
  omega

theorem Arena.buf_add_next (a : Arena) (align : ℕ) :
    a.buf + a.next align = roundUp (a.buf + a.currOffset) align := by
  have := le_roundUp (a.buf + a.currOffset) align
  unfold next
  omega

theorem Arena.Over.next_le (h : a.Over A R) (hp : IsPow2 align) (hlt : align < A.modulus) :
    a.buf + a.next align ≤ A.modulus := by
  have hb := R.bound
  have := h.buf
  have := h.len
  have := h.curr
  rw [a.buf_add_next]
  exact roundUp_le hp.pos (hp.dvd Abi.modulus_pow2 hlt.le) (by omega)

/-- The offset is right even when the address just past the buffer wraps to zero. -/
theorem sub_alignForward (h : a.Over A R) (hp : IsPow2 align) (hlt : align < A.modulus) :
    (alignForwardUintptr A (A.add a.buf a.currOffset) align).map (A.sub · a.buf) =
      some (a.next align) := by
  have hb := R.bound
  have hpos := R.buf_pos
  have h₁ := h.buf
  have h₂ := h.len
  have h₃ := h.curr
  have hn := h.next_le hp hlt
  have he := a.buf_add_next align
  rw [Abi.add_of_lt (by omega), alignForwardUintptr, alignForward_eq_mod hp hlt (by omega),
    Option.map_some, ← he]
  rcases hn.lt_or_eq with hn | hn
  · rw [Nat.mod_eq_of_lt hn, Abi.sub_of_le (by omega) hn, Nat.add_sub_cancel_left]
  · rw [hn, Nat.mod_self, Abi.sub, Unsigned.sub, Nat.zero_add, Nat.mod_eq_of_lt (by omega)]
    congr 1
    omega

theorem arenaAllocAlign_eq (h : a.Over A R) (hp : IsPow2 align) (hlt : align < A.modulus)
    (m : Mem) (size : ℕ) :
    arenaAllocAlign A a m size align =
      if A.add (a.next align) size ≤ a.bufLen then
        some (A.add a.buf (a.next align),
          { a with prevOffset := a.next align, currOffset := A.add (a.next align) size },
          m.store (A.add a.buf (a.next align)) size 0)
      else some (0, a, m) := by
  obtain ⟨q, hq, hs⟩ := Option.map_eq_some_iff.mp (sub_alignForward h hp hlt)
  simp only [arenaAllocAlign, hq, Option.bind_eq_bind, Option.bind_some, hs]

/-- What a request comes to: nothing at all where there is no room, else a zeroed block inside
the buffer. -/
def Arena.Grants (a : Arena) (m : Mem) (size align : ℕ) (r : ℕ × Arena × Mem) : Prop :=
  a.bufLen < a.next align + size ∧ r = (0, a, m) ∨
  a.next align + size ≤ a.bufLen ∧
    r = (a.buf + a.next align,
      { a with prevOffset := a.next align, currOffset := a.next align + size },
      m.store (a.buf + a.next align) size 0)

/-- The size test is right unless the end of the block wraps into the buffer. -/
theorem add_le_bufLen_iff (h : a.Over A R) {o : ℕ} (ho : o < A.modulus) (hs : size < A.modulus)
    (hw : ¬ a.Wraps A o size) : A.add o size ≤ a.bufLen ↔ o + size ≤ a.bufLen := by
  have hb := R.bound
  have h₂ := h.len
  unfold Arena.Wraps at hw
  rcases Nat.lt_or_ge (o + size) A.modulus with hlt | hge
  · rw [Abi.add_of_lt hlt]
  · have he : A.add o size = o + size - A.modulus := by
      rw [Abi.add, Unsigned.add, Nat.mod_eq_sub_mod hge, Nat.mod_eq_of_lt (by omega)]
    rw [he]
    omega

theorem Arena.Over.next_lt (h : a.Over A R) (hp : IsPow2 align) (hlt : align < A.modulus) :
    a.next align < A.modulus := by
  have := h.next_le hp hlt
  have := R.buf_pos
  have := h.buf
  omega

theorem arenaAllocAlign_grants (h : a.Over A R) (hp : IsPow2 align) (hlt : align < A.modulus)
    (hs : size < A.modulus) (hw : ¬ a.Wraps A (a.next align) size) (m : Mem) :
    ∃ r, arenaAllocAlign A a m size align = some r ∧ a.Grants m size align r := by
  have hb := R.bound
  have h₁ := h.buf
  have h₂ := h.len
  rw [arenaAllocAlign_eq h hp hlt]
  simp only [add_le_bufLen_iff h (h.next_lt hp hlt) hs hw]
  split
  · rename_i hfit
    refine ⟨_, rfl, .inr ⟨hfit, ?_⟩⟩
    rw [Abi.add_of_lt (by omega), Abi.add_of_lt (by omega)]
  · exact ⟨_, rfl, .inl ⟨by omega, rfl⟩⟩

/-- The sizes that make `offset+size` wrap into the buffer are all that goes wrong. -/
theorem arenaAllocAlign_grants_iff (h : a.Over A R) (hp : IsPow2 align) (hlt : align < A.modulus)
    (hs : size < A.modulus) (m : Mem) :
    (∃ r, arenaAllocAlign A a m size align = some r ∧ a.Grants m size align r) ↔
      ¬ a.Wraps A (a.next align) size := by
  constructor
  · rintro ⟨r, hr, hg⟩ ⟨hge, hle⟩
    have hb := R.bound
    have h₁ := h.buf
    have h₂ := h.len
    have h₃ := h.prev
    have h₄ := h.curr
    have hn := h.next_lt hp hlt
    have he : A.add (a.next align) size ≤ a.bufLen := by
      rw [Abi.add, Unsigned.add, Nat.mod_eq_sub_mod hge, Nat.mod_eq_of_lt (by omega)]
      omega
    rw [arenaAllocAlign_eq h hp hlt, if_pos he] at hr
    obtain rfl := Option.some.inj hr
    rcases hg with ⟨-, hg⟩ | ⟨hfit, -⟩
    · -- A null pointer comes only from the end of the address space, past the end of the arena.
      have hptr := congrArg (fun r => r.1) hg
      have hprev := congrArg (fun r => r.2.1.prevOffset) hg
      have hpos := R.buf_pos
      simp only at hptr hprev
      rw [Abi.add_of_lt (by omega)] at hptr
      omega
    · omega
  · exact fun hw => arenaAllocAlign_grants h hp hlt hs hw m

/-- On the board twenty bytes are granted, fifty are refused, and a request of nearly the whole
address space passes for eight bytes. -/
theorem arenaAllocAlign_grants_iff_arm32 :
    (∀ size ∈ [20, 50],
      ∃ r, arenaAllocAlign Abi.arm32 ⟨16, 64, 0, 18⟩ (fun _ => 255) size 8 = some r ∧
        Arena.Grants ⟨16, 64, 0, 18⟩ (fun _ => 255) size 8 r) ∧
    (arenaAllocAlign Abi.arm32 ⟨16, 64, 0, 18⟩ (fun _ => 255) 20 8).map
      (fun r => (r.1, r.2.1)) = some (40, ⟨16, 64, 24, 44⟩) ∧
    (arenaAllocAlign Abi.arm32 ⟨16, 64, 0, 18⟩ (fun _ => 255) 50 8).map
      (fun r => (r.1, r.2.1)) = some (0, ⟨16, 64, 0, 18⟩) ∧
    ¬ ∃ r, arenaAllocAlign Abi.arm32 ⟨16, 64, 0, 18⟩ (fun _ => 255) (2 ^ 32 - 16) 8 = some r ∧
      Arena.Grants ⟨16, 64, 0, 18⟩ (fun _ => 255) (2 ^ 32 - 16) 8 r := by
  have hover : (Arena.mk 16 64 0 18).Over Abi.arm32 ⟨16, 64, by decide, by decide⟩ :=
    ⟨rfl, rfl, by decide, by decide⟩
  have hpow : IsPow2 8 := ⟨3, rfl⟩
  refine ⟨fun size hs => ?_, by decide, by decide, ?_⟩
  · have hsize : size < 64 := by
      simp only [List.mem_cons, List.not_mem_nil, or_false] at hs
      omega
    have hnext : Arena.next ⟨16, 64, 0, 18⟩ 8 = 24 := by decide
    refine (arenaAllocAlign_grants_iff hover hpow (by decide)
      (hsize.trans (by decide)) _).mpr fun hw => ?_
    have hge : 2 ^ 32 ≤ Arena.next ⟨16, 64, 0, 18⟩ 8 + size := hw.1
    omega
  · rw [arenaAllocAlign_grants_iff hover hpow (by decide) (by decide), not_not]
    decide

/-! ## Resizing -/

variable {oldMem oldSize newSize : ℕ}

theorem isPowerOfTwo_of_pow2 (hp : IsPow2 align) (hlt : align < A.modulus) :
    isPowerOfTwo A align = true := (isPowerOfTwo_iff hlt).mpr hp

theorem arenaResizeAlign_nothing (hp : IsPow2 align) (hlt : align < A.modulus) (a : Arena)
    (m : Mem) (oldMem newSize : ℕ) :
    arenaResizeAlign A a m oldMem 0 newSize align = arenaAllocAlign A a m newSize align := by
  simp [arenaResizeAlign, isPowerOfTwo_of_pow2 hp hlt]

/-- The newest allocation is resized where it is, or the request fails and changes nothing. -/
theorem arenaResizeAlign_newest (h : a.Over A R) (hp : IsPow2 align) (hlt : align < A.modulus)
    (hn : newSize < A.modulus) (hold : 0 < oldSize) (hin : a.prevOffset + oldSize ≤ a.bufLen)
    (hw : ¬ a.Wraps A a.prevOffset newSize) (m : Mem) :
    arenaResizeAlign A a m (a.buf + a.prevOffset) oldSize newSize align =
      if a.prevOffset + newSize ≤ a.bufLen then
        some (a.buf + a.prevOffset, { a with currOffset := a.prevOffset + newSize },
          if oldSize < newSize then
            m.store (a.buf + a.prevOffset + oldSize) (newSize - oldSize) 0
          else m)
      else some (0, a, m) := by
  have hb := R.bound
  have hpos := R.buf_pos
  have h₁ := h.buf
  have h₂ := h.len
  have hptr : ¬ (a.buf + a.prevOffset = 0 ∨ oldSize = 0) := by omega
  have hbuf : a.buf ≤ a.buf + a.prevOffset ∧ a.buf + a.prevOffset < A.add a.buf a.bufLen := by
    rw [Abi.add_of_lt (by omega)]
    omega
  have hlast : A.add a.buf a.prevOffset = a.buf + a.prevOffset := Abi.add_of_lt (by omega)
  have htest := add_le_bufLen_iff h (by omega) hn hw
  rw [arenaResizeAlign, if_neg (by simp [isPowerOfTwo_of_pow2 hp hlt]), if_neg hptr, if_pos hbuf,
    if_pos hlast]
  by_cases hfit : a.prevOffset + newSize ≤ a.bufLen
  · have hsub : oldSize < newSize → A.sub newSize oldSize = newSize - oldSize :=
      fun hlt => Abi.sub_of_le hlt.le hn
    rw [if_neg (by rw [gt_iff_lt, not_lt]; exact htest.mpr hfit), if_pos hfit,
      Abi.add_of_lt (by omega), Abi.add_of_lt (a := a.prevOffset) (b := oldSize) (by omega),
      Abi.add_of_lt (by omega)]
    by_cases hgrow : oldSize < newSize
    · simp only [gt_iff_lt, if_pos hgrow, hsub hgrow, Nat.add_assoc]
    · simp only [gt_iff_lt, if_neg hgrow]
  · rw [if_pos (by rw [gt_iff_lt, ← not_le, htest]; exact hfit), if_neg hfit]

/-- Any other allocation is moved; with no room for it the copy goes to the null pointer. -/
theorem arenaResizeAlign_older (h : a.Over A R) (hp : IsPow2 align) (hlt : align < A.modulus)
    (hn : newSize < A.modulus) (hold : 0 < oldSize) (hl : a.buf ≤ oldMem)
    (hu : oldMem < a.buf + a.bufLen) (hne : oldMem ≠ a.buf + a.prevOffset)
    (hw : ¬ a.Wraps A (a.next align) newSize) (m : Mem) :
    arenaResizeAlign A a m oldMem oldSize newSize align =
      if a.next align + newSize ≤ a.bufLen then
        some (a.buf + a.next align,
          { a with prevOffset := a.next align, currOffset := a.next align + newSize },
          (m.store (a.buf + a.next align) newSize 0).copy (a.buf + a.next align) oldMem
            (min oldSize newSize))
      else none := by
  have hb := R.bound
  have hpos := R.buf_pos
  have h₁ := h.buf
  have h₂ := h.len
  have h₃ := h.prev
  have h₄ := h.curr
  have hptr : ¬ (oldMem = 0 ∨ oldSize = 0) := by omega
  have hbuf : a.buf ≤ oldMem ∧ oldMem < A.add a.buf a.bufLen := by
    rw [Abi.add_of_lt (by omega)]
    exact ⟨hl, hu⟩
  have hlast : ¬ A.add a.buf a.prevOffset = oldMem := by
    rw [Abi.add_of_lt (by omega)]
    exact Ne.symm hne
  have hmin : (if oldSize < newSize then oldSize else newSize) = min oldSize newSize := by
    split <;> omega
  rw [arenaResizeAlign, if_neg (by simp [isPowerOfTwo_of_pow2 hp hlt]), if_neg hptr, if_pos hbuf,
    if_neg hlast, arenaAllocAlign_eq h hp hlt]
  simp only [add_le_bufLen_iff h (h.next_lt hp hlt) hn hw, hmin]
  by_cases hfit : a.next align + newSize ≤ a.bufLen
  · rw [if_pos hfit, if_pos hfit, Abi.add_of_lt (by omega), Abi.add_of_lt (by omega)]
    simp only [Option.bind_eq_bind, Option.bind_some]
    rw [if_neg (by omega)]
  · rw [if_neg hfit, if_neg hfit]
    simp only [Option.bind_eq_bind, Option.bind_some]
    rw [if_pos trivial]

/-- A resize that finds no room returns the null pointer only for the newest allocation; for
any other it copies to the null pointer. -/
theorem arenaResizeAlign_faults_iff (h : a.Over A R) (hp : IsPow2 align) (hlt : align < A.modulus)
    (hn : newSize < A.modulus) (hold : 0 < oldSize) (hl : a.buf ≤ oldMem)
    (hu : oldMem + oldSize ≤ a.buf + a.currOffset)
    (hw : ∀ o ∈ [a.prevOffset, a.next align], ¬ a.Wraps A o newSize) (m : Mem) :
    (arenaResizeAlign A a m oldMem oldSize newSize align = none ↔
      oldMem ≠ a.buf + a.prevOffset ∧ a.bufLen < a.next align + newSize) ∧
    (arenaResizeAlign A a m oldMem oldSize newSize align = some (0, a, m) ↔
      oldMem = a.buf + a.prevOffset ∧ a.bufLen < a.prevOffset + newSize) := by
  have hpos := R.buf_pos
  have h₁ := h.buf
  have h₄ := h.curr
  by_cases hlast : oldMem = a.buf + a.prevOffset
  · subst hlast
    rw [arenaResizeAlign_newest h hp hlt hn hold (by omega) (hw _ (by simp))]
    simp only [ne_eq, not_true_eq_false, false_and, iff_false, true_and]
    by_cases hfit : a.prevOffset + newSize ≤ a.bufLen
    · rw [if_pos hfit]
      refine ⟨by simp, fun he => ?_, fun hno => by omega⟩
      have hptr := congrArg Prod.fst (Option.some.inj he)
      simp only at hptr
      omega
    · rw [if_neg hfit]
      exact ⟨by simp, fun _ => by omega, fun _ => rfl⟩
  · rw [arenaResizeAlign_older h hp hlt hn hold hl (by omega) hlast (hw _ (by simp))]
    simp only [ne_eq, hlast, not_false_eq_true, true_and, false_and, iff_false]
    by_cases hfit : a.next align + newSize ≤ a.bufLen
    · rw [if_pos hfit]
      refine ⟨⟨by simp, fun hno => by omega⟩, fun he => ?_⟩
      have hptr := congrArg Prod.fst (Option.some.inj he)
      simp only at hptr
      omega
    · rw [if_neg hfit]
      exact ⟨⟨fun _ => by omega, fun _ => rfl⟩, by simp⟩

/-- The older of two blocks does not fit a second time, nor does the newer one grow. -/
theorem arenaResizeAlign_faults_iff_arm32 :
    arenaResizeAlign Abi.arm32 ⟨16, 64, 24, 48⟩ (fun _ => 0) 16 20 40 8 = none ∧
    arenaResizeAlign Abi.arm32 ⟨16, 64, 24, 48⟩ (fun _ => 0) 40 24 48 8 =
      some (0, ⟨16, 64, 24, 48⟩, fun _ => 0) := by
  have hover : (Arena.mk 16 64 24 48).Over Abi.arm32 ⟨16, 64, by decide, by decide⟩ :=
    ⟨rfl, rfl, by decide, by decide⟩
  have hpow : IsPow2 8 := ⟨3, rfl⟩
  constructor
  · rw [(arenaResizeAlign_faults_iff hover hpow (by decide) (by decide) (by decide) (by decide)
      (by decide) (by decide) _).1]
    decide
  · rw [(arenaResizeAlign_faults_iff hover hpow (by decide) (by decide) (by decide) (by decide)
      (by decide) (by decide) _).2]
    decide

end Strela.Allocator
