import Strela.Lib.Isolation

/-! # Buffers and their addresses

A client holds a buffer by its handle or by its address. The way from the handle
to the address only needs the handle; the way back reads the size from the header
before the address, which no operation of a run has touched. Both ask for a device
without an error: `strela_buffer_to_ptr` aborts on any other.
-/

namespace Strela.Lib

open Foundation Foundation.Unsigned Strela.Allocator
open scoped List

variable {A : Abi} {M : Mapping A} {w : World} {s : BufferState} {live : List Alloc} {a : Alloc}
  {n : ℕ}

theorem strelaBufferFromPtr_eq (B : Backed M w live) (ha : a ∈ live) (hok : w.ok = true) :
    strelaBufferFromPtr A a.ptr w = .ok (M.buffer a) := by
  have hplaced := B.represents.placed a ha
  have hlt := hplaced.ptr_lt
  have hge := hplaced.ptr_ge
  -- A block ends past its first line even if the request was for nothing.
  have hrange : M.base ≤ a.ptr ∧ a.ptr < M.base + tensorMemorySize := by
    have hptr := B.ptr_eq ha
    have hin := B.live_inside ha
    have hroom := (B.lines a ha).room
    simp only [Block.stop, Alloc.block] at hptr hin
    omega
  have hheader : headerOrigSize A w.mem (A.sub a.ptr A.sizeofHeader) = a.origSize := by
    rw [Abi.sub_of_le (by omega) hlt]
    exact (B.represents.headers a ha).origSize
  have hwords : a.origSize % wordSize = 0 := Nat.mod_eq_zero_of_dvd (B.words a ha)
  have hoff : A.sub a.ptr M.base = a.ptr - M.base := Abi.sub_of_le hrange.1 hlt
  rw [strelaBufferFromPtr, if_pos hok, B.base, Abi.add_of_lt M.bound, if_pos hrange]
  simp only [internalPtrToBufferOffset, hok, if_true, ok_bind, B.base, hoff, hheader, hwords]
  rfl

theorem Backed.ptr_ne (B : Backed M w live) {c : Alloc} (ha : a ∈ live) (hc : c ∈ live)
    (hne : a ≠ c) : a.ptr ≠ c.ptr := by
  have hapart := B.represents.live_apart ha hc hne
  have h₁ := B.ptr_eq ha
  have h₂ := B.ptr_eq hc
  have h₃ := (B.lines a ha).room
  have h₄ := (B.lines c hc).room
  simp only [Block.Apart, Block.stop, Alloc.block] at hapart h₁ h₂
  omega

/-- Where the handle of every live buffer has an address that gives the handle back, and no two
buffers have the same. -/
structure PointersAgree (A : Abi) (s : BufferState) : Prop where
  back : ∀ b ∈ s.live, ∃ ptr, strelaBufferToPtr A b s.world = .ok ptr ∧
    strelaBufferFromPtr A ptr s.world = .ok b
  distinct : s.live.Pairwise fun b d =>
    strelaBufferToPtr A b s.world ≠ strelaBufferToPtr A d s.world

theorem Owned.pointersAgree (hs : Owned M s) (hok : s.world.ok = true) : PointersAgree A s := by
  obtain ⟨live, hp, B⟩ := hs
  constructor
  · intro b hb
    obtain ⟨a, ha, rfl⟩ := Owned.mem hp hb
    exact ⟨a.ptr, strelaBufferToPtr_eq B ha hok, strelaBufferFromPtr_eq B ha hok⟩
  · apply hp.symm.pairwise
    · rw [List.pairwise_map]
      apply B.represents.live_nodup.imp_of_mem
      intro a c ha hc hne heq
      rw [strelaBufferToPtr_eq B ha hok, strelaBufferToPtr_eq B hc hok] at heq
      exact B.ptr_ne ha hc hne (Except.ok.inj heq)
    · exact fun h => h.symm

/-- In every run of bounded requests, the handles and the addresses of the live buffers agree
whenever the device has no error. -/
theorem reach_pointersAgree (hA : A = .arm32 ∨ A = .lp64)
    (hr : ((bufferLts M).restrict Bounded).Reach s) (hok : s.world.ok = true) :
    PointersAgree A s :=
  (owned_of_reach (cacheLine_of_target hA)
    (hr.restrict_mono fun _ _ h => h.noOverrun M)).pointersAgree hok

theorem reach_pointersAgree_boardTwo : boardTwo.live = [⟨true, 144, 8⟩, ⟨true, 16, 100⟩] ∧
    PointersAgree Abi.arm32 boardTwo :=
  ⟨rfl, reach_pointersAgree (.inl rfl) reach_boardTwo rfl⟩

def boardRefused : BufferState := ⟨boardOne.world.setErr errNoMem, boardOne.live⟩

theorem reach_boardRefused : ((bufferLts boardMapping).restrict Bounded).Reach boardRefused := by
  obtain ⟨live, -, B⟩ := owned_of_reach cacheLine_arm32
    (reach_boardOne.restrict_mono fun _ _ h => h.noOverrun boardMapping)
  have hzero : (freeListAlloc Abi.arm32 boardOne.world.heap tensorMemorySize cachelineSize).map
      Prod.snd = some 0 := by decide +kernel
  have hnull : freeListAlloc Abi.arm32 boardOne.world.heap tensorMemorySize cachelineSize =
      some (boardOne.world.heap, 0) := by
    have hroom : tensorMemorySize + 2 * cachelineSize ≤ Abi.arm32.modulus := by decide
    rcases freeListAlloc_lines cacheLine_arm32 B hroom with he | ⟨h', new, he, -, hne, -⟩
    · exact he
    · rw [he] at hzero
      exact absurd (Option.some.inj hzero) hne
  have halloc := strelaBufferAlloc_null (A := Abi.arm32) (n := tensorMemorySize / wordSize)
    (w := boardOne.world) rfl (by decide) hnull
  exact reach_boardOne.step ⟨bounded_alloc le_rfl, BufferStep.alloc (by decide) halloc⟩

/-- A refused request leaves an error, and then the address of a live buffer cannot be had. -/
theorem not_pointersAgree_boardRefused :
    ((bufferLts boardMapping).restrict Bounded).Reach boardRefused ∧
    strelaBufferToPtr Abi.arm32 ⟨true, 16, 100⟩ boardRefused.world = .error [] ∧
    ¬ PointersAgree Abi.arm32 boardRefused := by
  have habort : strelaBufferToPtr Abi.arm32 ⟨true, 16, 100⟩ boardRefused.world = .error [] := rfl
  refine ⟨reach_boardRefused, habort, fun h => ?_⟩
  obtain ⟨ptr, hto, -⟩ := h.back _ List.mem_cons_self
  cases habort.symm.trans hto

end Strela.Lib
