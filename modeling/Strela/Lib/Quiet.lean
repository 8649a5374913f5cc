import Strela.Lib.Simulation

/-! # What the calls on jobs leave alone

No call on a job touches the memory of the process, the list of the free blocks or
the handles of the buffer objects, and none but the configuration fills a slot. A
slot in use asks for the same columns until it is released.
-/

namespace Strela.Lib

open Foundation Strela.Allocator

/-- The memory is as it was, and every slot in use was in use with the same submit. -/
structure Quiet (w w' : World) : Prop where
  mem : w'.mem = w.mem
  list : w'.dev.bufferFreeList = w.dev.bufferFreeList
  base : w'.dev.tensorsBoMap = w.dev.tensorsBoMap
  tensors : w'.dev.tensorsBoHandle = w.dev.tensorsBoHandle
  slots : ∀ i, (w'.slot i).phase ≠ .free →
    (w.slot i).phase ≠ .free ∧ (w'.slot i).submit = (w.slot i).submit

variable {A : Abi} {os : Os} {w w' w'' : World} {i : SlotId} {job : JobHandle}

namespace Quiet

theorem refl (w : World) : Quiet w w := ⟨rfl, rfl, rfl, rfl, fun _ h => ⟨h, rfl⟩⟩

theorem trans (h : Quiet w w') (h' : Quiet w' w'') : Quiet w w'' := by
  constructor
  · exact h'.mem.trans h.mem
  · exact h'.list.trans h.list
  · exact h'.base.trans h.base
  · exact h'.tensors.trans h.tensors
  · intro i hp
    obtain ⟨hp', hs'⟩ := h'.slots i hp
    obtain ⟨hp'', hs⟩ := h.slots i hp'
    exact ⟨hp'', hs'.trans hs⟩

theorem setErr (w : World) (e : ℤ) : Quiet w (w.setErr e) :=
  ⟨rfl, rfl, rfl, rfl, fun _ h => ⟨h, rfl⟩⟩

theorem ask (os : Os) (r : Request) (w : World) : Quiet w (w.ask os r).2 :=
  ⟨rfl, rfl, rfl, rfl, fun _ h => ⟨h, rfl⟩⟩

theorem setSlot {slot : JobSlot}
    (h : slot.phase ≠ .free → (w.slot i).phase ≠ .free ∧ slot.submit = (w.slot i).submit) :
    Quiet w (w.setSlot i slot) := by
  refine ⟨rfl, rfl, rfl, rfl, fun j hp => ?_⟩
  by_cases hj : j = i
  · subst hj
    simp only [World.slot, World.setSlot, Function.update_self] at hp ⊢
    exact h hp
  · have hslot : (w.setSlot i slot).slot j = w.slot j := Function.update_of_ne hj _ _
    rw [hslot] at hp ⊢
    exact ⟨hp, rfl⟩

theorem askOrAbort {r : Request} (h : w.askOrAbort os r = .ok w') : Quiet w w' := by
  unfold World.askOrAbort at h
  split at h <;> rename_i heq <;> obtain ⟨-, rfl⟩ := Prod.mk.inj heq
  · cases h
  · obtain rfl := Except.ok.inj h
    exact ask os r w

end Quiet

/-! ## Releasing -/

theorem quiet_strelaJobSlotFinish (h : strelaJobSlotFinish os i w = .ok w') : Quiet w w' := by
  unfold strelaJobSlotFinish at h
  dsimp only at h
  split at h
  · obtain rfl := Except.ok.inj h
    exact .refl w
  · rename_i hp
    rw [not_not] at hp
    obtain ⟨w₁, h₁, h⟩ := bind_eq_ok h
    obtain rfl := Except.ok.inj h
    have hq : Quiet w w₁ := by
      unfold waitFence at h₁
      split at h₁ <;> exact .askOrAbort h₁
    refine hq.trans (.setSlot fun _ => ?_)
    rw [show w₁.slot i = w.slot i by rw [World.slot, waitFence_dev h₁]; rfl]
    exact ⟨by rw [hp]; decide, rfl⟩

theorem quiet_strelaJobSlotRelease (h : strelaJobSlotRelease os i w = .ok w') : Quiet w w' := by
  unfold strelaJobSlotRelease at h
  split at h
  · obtain ⟨w₁, h₁, h⟩ := bind_eq_ok h
    have hq := quiet_strelaJobSlotFinish h₁
    dsimp only at h
    split at h
    · obtain ⟨w₂, h₂, h⟩ := bind_eq_ok h
      obtain ⟨w₃, h₃, h⟩ := bind_eq_ok h
      obtain rfl := Except.ok.inj h
      have hq₂ : Quiet w₁ w₂ := by
        unfold closeFence at h₂
        split at h₂
        · exact .askOrAbort h₂
        · exact Except.ok.inj h₂ ▸ .refl w₁
      have hq₃ : Quiet w₂ w₃ := by
        unfold destroySyncobj at h₃
        split at h₃
        · exact .askOrAbort h₃
        · exact Except.ok.inj h₃ ▸ .refl w₂
      exact ((hq.trans hq₂).trans hq₃).trans (.setSlot fun hp => absurd rfl hp)
    · exact Except.ok.inj h ▸ hq
  · cases h

theorem quiet_releaseEach {is : List SlotId} (h : releaseEach os is w = .ok w') : Quiet w w' := by
  induction is generalizing w with
  | nil => exact Except.ok.inj h ▸ .refl w
  | cons i is ih =>
    obtain ⟨w₁, h₁, h⟩ := bind_eq_ok h
    exact (quiet_strelaJobSlotRelease h₁).trans (ih h)

theorem quiet_strelaJobFreeAll (h : strelaJobFreeAll os w = .ok w') : Quiet w w' := by
  unfold strelaJobFreeAll at h
  split at h
  · exact quiet_releaseEach h
  · exact Except.ok.inj h ▸ .refl w

theorem quiet_strelaJobSlotGet {phases : SlotPhase → Bool} {slot : Option SlotId}
    (h : strelaJobSlotGet job phases w = .ok (slot, w')) :
    Quiet w w' ∧ ∀ i, slot = some i → w' = w ∧ phases (w.slot i).phase = true := by
  unfold strelaJobSlotGet at h
  by_cases hw : w.ok = true
  · by_cases hh : job.handle < 16
    · simp only [hw, hh, if_true, dite_true] at h
      split at h
      · simp only [Option.isSome_none, ok_setErr_of_ne (show errBadArg ≠ 0 by decide), if_true] at h
        obtain ⟨rfl, rfl⟩ := Prod.mk.inj (Except.ok.inj h)
        exact ⟨.setErr w _, fun i hi => by cases hi⟩
      · rename_i hv
        simp only [hw, Option.isSome_some, if_true] at h
        obtain ⟨rfl, rfl⟩ := Prod.mk.inj (Except.ok.inj h)
        refine ⟨.refl w, fun i hi => ?_⟩
        obtain rfl := Option.some.inj hi
        rw [not_or, not_not, not_not] at hv
        exact ⟨rfl, hv.2⟩
    · simp only [hw, hh, if_true, dite_false, Option.isSome_none,
        ok_setErr_of_ne (show errBadArg ≠ 0 by decide)] at h
      obtain ⟨rfl, rfl⟩ := Prod.mk.inj (Except.ok.inj h)
      exact ⟨.setErr w _, fun i hi => by cases hi⟩
  · have hw' := Bool.eq_false_iff.mpr hw
    simp only [hw', Bool.false_eq_true, if_false, Option.isSome_none, if_true] at h
    obtain ⟨rfl, rfl⟩ := Prod.mk.inj (Except.ok.inj h)
    exact ⟨.refl w, fun i hi => by cases hi⟩

theorem quiet_strelaJobFree (h : strelaJobFree os job w = .ok w') : Quiet w w' := by
  obtain ⟨⟨slot, w₁⟩, h₁, h⟩ := bind_eq_ok h
  have hq := (quiet_strelaJobSlotGet h₁).1
  cases slot with
  | none => exact Except.ok.inj h ▸ hq
  | some i => exact hq.trans (quiet_strelaJobSlotRelease h)

/-! ## Configuring -/

theorem quiet_checkKernel (kernel : Kernel) (w : World) : Quiet w (checkKernel kernel w) := by
  unfold checkKernel
  split
  · exact .setErr w _
  · exact .refl w

theorem quiet_syncobjCreate (i : SlotId) (w : World) : Quiet w (syncobjCreate os i w).2 := by
  unfold syncobjCreate
  split
  · split <;> rename_i heq <;> obtain ⟨-, rfl⟩ := Prod.mk.inj heq
    · exact (Quiet.ask os _ w).trans (.setErr _ _)
    · exact .ask os _ w
  · exact .refl w

theorem quiet_strelaJobConfig {kernel : Kernel} {conf : Conf}
    (h : strelaJobConfig os kernel conf w = .ok (job, w')) (hv : job.valid = false) :
    Quiet w w' := by
  unfold strelaJobConfig at h
  dsimp only at h
  obtain ⟨w₀, hw₀⟩ : ∃ w₀, w₀ = if (checkKernel kernel w).ok = true ∧
      (if (checkKernel kernel w).ok = true then (checkKernel kernel w).findFree
        else none) = none then
    (checkKernel kernel w).setErr errNoMem else checkKernel kernel w := ⟨_, rfl⟩
  rw [← hw₀] at h
  have hq : Quiet w w₀ := by
    rcases ite_eq_or_eq _ _ _ |>.imp hw₀.trans hw₀.trans with rfl | rfl
    · exact (quiet_checkKernel kernel w).trans (.setErr _ _)
    · exact quiet_checkKernel kernel w
  split at h
  · rename_i i _
    split at h
    · obtain ⟨rfl, -⟩ := Prod.mk.inj (Except.ok.inj h)
      cases hv
    · obtain ⟨w₁, h₁, h⟩ := map_eq_ok h
      obtain ⟨-, rfl⟩ := Prod.mk.inj h
      exact (hq.trans (quiet_syncobjCreate i w₀)).trans (quiet_strelaJobSlotRelease h₁)
  · obtain ⟨-, rfl⟩ := Prod.mk.inj (Except.ok.inj h)
    exact hq

/-! ## Submitting and waiting -/

theorem quiet_submitExport (hp : (w.slot i).phase ≠ .free) {slot : JobSlot}
    (hs : slot.submit = (w.slot i).submit) : Quiet w (submitExport os i slot w) := by
  unfold submitExport
  dsimp only
  have hq : Quiet w (w.setSlot i { slot with phase := .submitted }) := .setSlot fun _ => ⟨hp, hs⟩
  have hslot {r : Request} : (((w.setSlot i { slot with phase := .submitted }).ask os r).2.slot i) =
      { slot with phase := .submitted } := by
    simp [World.slot, World.setSlot, World.ask]
  split <;> rename_i heq <;> obtain ⟨-, rfl⟩ := Prod.mk.inj heq
  · exact (hq.trans (.ask os _ _)).trans (.setErr _ _)
  · refine (hq.trans (.ask os _ _)).trans (.setSlot fun _ => ?_)
    rw [show (World.slot _ i) = _ from hslot]
    exact ⟨by simp, rfl⟩

theorem quiet_submitAccepted (hp : (w.slot i).phase ≠ .free)
    (h : submitAccepted os i w = .ok w') : Quiet w w' := by
  unfold submitAccepted at h
  dsimp only at h
  split at h
  · obtain ⟨w₁, h₁, h⟩ := bind_eq_ok h
    obtain rfl := Except.ok.inj h
    have hslot : w₁.slot i = w.slot i := by rw [World.slot, askOrAbort_dev h₁]; rfl
    exact (Quiet.askOrAbort h₁).trans (quiet_submitExport (hslot ▸ hp) (by rw [hslot]))
  · obtain rfl := Except.ok.inj h
    exact quiet_submitExport hp rfl

theorem quiet_strelaJobSubmit {r : Bool} (h : strelaJobSubmit os job w = .ok (r, w')) :
    Quiet w w' := by
  obtain ⟨⟨slot, w₁⟩, hget, hrest⟩ := bind_eq_ok h
  obtain ⟨hq, hsome⟩ := quiet_strelaJobSlotGet hget
  cases slot with
  | none =>
    obtain ⟨-, rfl⟩ := Prod.mk.inj (Except.ok.inj hrest)
    exact hq
  | some i =>
    obtain ⟨rfl, hp⟩ := hsome i rfl
    dsimp only at hrest
    split at hrest <;> rename_i heq <;> obtain ⟨-, rfl⟩ := Prod.mk.inj heq
    · obtain ⟨-, rfl⟩ := Prod.mk.inj (Except.ok.inj hrest)
      exact (Quiet.ask os _ _).trans (.setErr _ _)
    · obtain ⟨w₂, h₂, hrest⟩ := bind_eq_ok hrest
      obtain ⟨-, rfl⟩ := Prod.mk.inj (Except.ok.inj hrest)
      exact (Quiet.ask os _ _).trans (quiet_submitAccepted (ne_free_of_submittable hp) h₂)

theorem quiet_strelaJobUpdate {timeout : ℤ} (h : strelaJobUpdate os i timeout w = .ok w') :
    Quiet w w' := by
  unfold strelaJobUpdate at h
  dsimp only at h
  split at h
  · rename_i hp
    have hne : (w.slot i).phase ≠ .free := by
      rintro he
      rw [he] at hp
      cases hp
    split at h
    · split at h <;> rename_i heq <;> obtain ⟨-, rfl⟩ := Prod.mk.inj heq
      · obtain rfl := Except.ok.inj h
        split
        · exact (Quiet.ask os _ w).trans (.setErr _ _)
        · exact .ask os _ w
      · split at h
        · exact Except.ok.inj h ▸ .ask os _ w
        · split at h <;> rename_i heq <;> obtain ⟨-, rfl⟩ := Prod.mk.inj heq
          · obtain rfl := Except.ok.inj h
            exact ((Quiet.ask os _ w).trans (.ask os _ _)).trans (.setErr _ _)
          · obtain rfl := Except.ok.inj h
            exact ((Quiet.ask os _ w).trans (.ask os _ _)).trans (.setSlot fun _ => ⟨hne, rfl⟩)
    · exact Except.ok.inj h ▸ .refl w
  · cases h

theorem quiet_strelaJobPoll {r : JobState} (h : strelaJobPoll os job w = .ok (r, w')) :
    Quiet w w' := by
  obtain ⟨⟨slot, w₁⟩, h₁, h⟩ := bind_eq_ok h
  have hq := (quiet_strelaJobSlotGet h₁).1
  cases slot with
  | none =>
    obtain ⟨-, rfl⟩ := Prod.mk.inj (Except.ok.inj h)
    exact hq
  | some i =>
    obtain ⟨w₂, h₂, h⟩ := bind_eq_ok h
    obtain ⟨-, rfl⟩ := Prod.mk.inj (Except.ok.inj h)
    exact hq.trans (quiet_strelaJobUpdate h₂)

theorem quiet_strelaJobWait {r : Bool} {timeout : ℤ}
    (h : strelaJobWait os job timeout w = .ok (r, w')) : Quiet w w' := by
  obtain ⟨⟨slot, w₁⟩, h₁, h⟩ := bind_eq_ok h
  have hq := (quiet_strelaJobSlotGet h₁).1
  cases slot with
  | none =>
    obtain ⟨-, rfl⟩ := Prod.mk.inj (Except.ok.inj h)
    exact hq
  | some i =>
    obtain ⟨w₂, h₂, h⟩ := bind_eq_ok h
    obtain ⟨-, rfl⟩ := Prod.mk.inj (Except.ok.inj h)
    exact hq.trans (quiet_strelaJobUpdate h₂)

theorem quiet_strelaJobFd {r : ℤ} (h : strelaJobFd job w = .ok (r, w')) : Quiet w w' := by
  obtain ⟨⟨slot, w₁⟩, h₁, h⟩ := bind_eq_ok h
  have hq := (quiet_strelaJobSlotGet h₁).1
  cases slot with
  | none =>
    obtain ⟨-, rfl⟩ := Prod.mk.inj (Except.ok.inj h)
    exact hq
  | some i =>
    obtain ⟨-, rfl⟩ := Prod.mk.inj (Except.ok.inj h)
    exact hq

end Strela.Lib
