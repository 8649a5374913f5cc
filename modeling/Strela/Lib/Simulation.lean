import Strela.Lib.Slots
import Strela.Foundation.Simulation

/-! # Calls as steps of the table

Every public call follows the steps of the table of slots, whether it returns or
aborts. A resubmission that closes its descriptor and then fails to export a new
one is the only call that needs the step that loses it.
-/

namespace Strela.Lib

open Foundation Strela.Allocator

/-- A program run on the given slots follows their steps. -/
abbrev Tracks (os : Os) (stale : Prop) {α : Type} (out : α → Slots) (s : Slots) : Exec α → Prop :=
  Follows (SlotStep os stale) (fun log s' => s'.log = log) out s

variable {A : Abi} {os : Os} {stale : Prop} {α : Type} {out : α → Slots} {w : World} {i : SlotId}

@[simp] theorem slots_setErr (e : ℤ) : (w.setErr e).slots = w.slots := rfl

/-! ## Kernels and buffers -/

theorem checkKernel_slots (kernel : Kernel) : (checkKernel kernel w).slots = w.slots := by
  unfold checkKernel
  split <;> rfl

theorem strelaSync_tracks {s : Slots} (hs : s = w.slots) (handle flags : U32)
    (offsetWords words : ℕ) :
    Tracks os stale World.slots s (.ok (strelaSync A os handle flags offsetWords words w)) := by
  subst hs
  unfold strelaSync
  split
  · have hs := @SlotStep.synced os stale w.slots handle flags (A.mul offsetWords wordSize)
      (A.mul words wordSize)
    split <;> rename_i heq <;> obtain ⟨-, rfl⟩ := Prod.mk.inj heq
    · exact .last hs
    · exact .last hs
  · exact .of_eq rfl

theorem strelaKernelAlloc_tracks :
    Tracks os stale (fun p => p.2.slots) w.slots (strelaKernelAlloc A w) := by
  unfold strelaKernelAlloc
  split
  · dsimp only
    split
    · split
      · exact .of_eq rfl
      · exact .stopped rfl
    · exact .of_eq rfl
  · exact .of_eq rfl

theorem strelaKernelSet_tracks (kernel : Kernel) (data : ℕ) :
    Tracks os stale World.slots w.slots (.ok (strelaKernelSet A os kernel data w)) := by
  unfold strelaKernelSet
  dsimp only
  rw [← checkKernel_slots kernel]
  generalize checkKernel kernel w = w₁
  split
  · exact strelaSync_tracks (by rfl) ..
  · exact .of_eq rfl

theorem strelaBufferAlloc_tracks (sizeWords : ℕ) :
    Tracks os stale (fun p => p.2.slots) w.slots (strelaBufferAlloc A sizeWords w) := by
  unfold strelaBufferAlloc
  split
  · dsimp only
    split
    · cases freeListAlloc A w.heap (A.mul sizeWords wordSize) 64 with
      | none => exact .stopped rfl
      | some p =>
        simp only [World.orAbort, ok_bind]
        split
        · unfold internalPtrToBufferOffset
          split
          · exact .of_eq rfl
          · exact .stopped rfl
        · exact .of_eq rfl
    · exact .of_eq rfl
  · exact .of_eq rfl

theorem strelaBufferFromPtr_tracks (ptr : ℕ) :
    Tracks os stale (fun _ => w.slots) w.slots (strelaBufferFromPtr A ptr w) := by
  unfold strelaBufferFromPtr internalPtrToBufferOffset
  split
  · split
    · simp only [ok_bind]
      split
      · exact .stopped rfl
      · exact .of_eq rfl
    · exact .of_eq rfl
  · exact .of_eq rfl

theorem withBuffer_tracks (buffer : Buffer) {act : ℕ → World → Exec World}
    (hact : ∀ ptr, Tracks os stale World.slots w.slots (act ptr w)) :
    Tracks os stale World.slots w.slots (withBuffer A buffer act w) := by
  unfold withBuffer strelaBufferToPtr
  split
  · split
    · exact .of_eq rfl
    · split
      · exact .stopped rfl
      · exact hact _
  · exact .of_eq rfl

theorem strelaBufferFree_tracks (buffer : Buffer) :
    Tracks os stale World.slots w.slots (strelaBufferFree A buffer w) := by
  apply withBuffer_tracks buffer
  intro ptr
  cases freeListFree A w.heap ptr with
  | none => exact .stopped rfl
  | some h => exact .of_eq rfl

theorem strelaBufferSync_tracks (buffer : Buffer) (flags : U32) (offset count : ℕ) :
    Tracks os stale World.slots w.slots
      (.ok (strelaBufferSync A os buffer flags offset count w)) := by
  unfold strelaBufferSync
  dsimp only
  split
  · have hok := ok_setErr_of_ne (w := w) (e := errBadArg) (by decide)
    rw [hok]
    exact .of_eq rfl
  · split
    · exact strelaSync_tracks rfl ..
    · exact .of_eq rfl

/-! ## Slots -/

theorem ask_eq {r : Request} {x : Reply} (h : os w.log r = x) :
    w.ask os r = (x, (w.ask os r).2) := Prod.ext h rfl

theorem askOrAbort_tracks {r : Request} {s : Slots} (jobs : SlotId → JobSlot)
    (h : SlotStep os stale s ⟨jobs, (w.slots.tell os r).log⟩) :
    Tracks os stale (fun w' => ⟨jobs, w'.log⟩) s (w.askOrAbort os r) := by
  unfold World.askOrAbort
  split <;> rename_i heq <;> obtain ⟨-, rfl⟩ := Prod.mk.inj heq
  · exact .head h (.stopped rfl)
  · exact .last h

theorem askOrAbort_of_ok {r : Request} {v : ℤ} (h : os w.log r = .ok v) :
    w.askOrAbort os r = .ok (w.ask os r).2 := by
  simp [World.askOrAbort, World.ask, h]

theorem askOrAbort_of_error {r : Request} {e : ℕ+} (h : os w.log r = .error e) :
    w.askOrAbort os r = (w.ask os r).2.abort := by
  simp [World.askOrAbort, World.ask, h]

theorem askOrAbort_dev {r : Request} {w' : World} (h : w.askOrAbort os r = .ok w') :
    w'.dev = w.dev := by
  unfold World.askOrAbort at h
  split at h <;> rename_i heq <;> obtain ⟨-, rfl⟩ := Prod.mk.inj heq
  · cases h
  · obtain rfl := Except.ok.inj h
    rfl

theorem askOrAbort_log {r : Request} {w' : World} (h : w.askOrAbort os r = .ok w') :
    ∃ v, os w.log r = .ok v ∧ w'.log = w.log ++ [⟨r, .ok v⟩] := by
  cases ho : os w.log r with
  | error e =>
    rw [askOrAbort_of_error ho] at h
    cases h
  | ok v =>
    rw [askOrAbort_of_ok ho] at h
    obtain rfl := Except.ok.inj h
    exact ⟨v, rfl, by rw [World.ask, ho]⟩

theorem waitFence_dev {slot : JobSlot} {w' : World} (h : waitFence os i slot w = .ok w') :
    w'.dev = w.dev := by
  unfold waitFence at h
  split at h <;> exact askOrAbort_dev h

theorem closeFence_dev {slot : JobSlot} {w' : World} (h : closeFence os i slot w = .ok w') :
    w'.dev = w.dev := by
  unfold closeFence at h
  split at h
  · exact askOrAbort_dev h
  · obtain rfl := Except.ok.inj h
    rfl

theorem destroySyncobj_dev {slot : JobSlot} {w' : World} (h : destroySyncobj os i slot w = .ok w') :
    w'.dev = w.dev := by
  unfold destroySyncobj at h
  split at h
  · exact askOrAbort_dev h
  · obtain rfl := Except.ok.inj h
    rfl

theorem strelaJobSlotFinish_tracks :
    Tracks os stale (fun w' => ⟨w.dev.jobs, w'.log⟩) w.slots (strelaJobSlotFinish os i w) := by
  unfold strelaJobSlotFinish
  dsimp only
  split
  · exact .of_eq rfl
  · rename_i hp
    rw [not_not] at hp
    refine .bind (fun w' => ⟨w.dev.jobs, w'.log⟩) ?_ fun w' _ => .of_eq rfl
    unfold waitFence
    split
    · exact askOrAbort_tracks _ (.polled hp)
    · exact askOrAbort_tracks _ (.waited hp)

theorem strelaJobSlotFinish_slot {w' : World} (h : strelaJobSlotFinish os i w = .ok w') :
    ((w'.slot i).phase = .free ↔ (w.slot i).phase = .free) ∧
      (w'.slot i).fenceFd = (w.slot i).fenceFd ∧ (w'.slot i).submit = (w.slot i).submit ∧
      ∀ slot, Function.update w'.dev.jobs i slot = Function.update w.dev.jobs i slot := by
  unfold strelaJobSlotFinish at h
  dsimp only at h
  split at h
  · obtain rfl := Except.ok.inj h
    exact ⟨Iff.rfl, rfl, rfl, fun _ => rfl⟩
  · rename_i hp
    rw [not_not] at hp
    obtain ⟨w₁, h₁, h⟩ := bind_eq_ok h
    obtain rfl := Except.ok.inj h
    simp [World.slot, World.setSlot, waitFence_dev h₁, show (w.dev.jobs i).phase = _ from hp]

theorem destroySyncobj_tracks {s : Slots} {slot : JobSlot} (hlog : s.log = w.log)
    (hp : (s.jobs i).phase ≠ .free) (hfd : (s.jobs i).fenceFd = -1)
    (ho : (s.jobs i).submit.outSyncobj = slot.submit.outSyncobj) :
    Tracks os stale (fun w' => ⟨Function.update s.jobs i .released, w'.log⟩) s
      (destroySyncobj os i slot w) := by
  unfold destroySyncobj
  split
  · have hs := @SlotStep.destroyed os stale s i hp hfd
    refine askOrAbort_tracks _ ?_
    simpa only [Slots.tell, Slots.set, World.slots, hlog, ho] using hs
  · rename_i hz
    rw [not_not, ← ho] at hz
    have hs := @SlotStep.emptied os stale s i hp hfd hz
    refine .last ?_
    simpa only [Slots.set, hlog] using hs

/-- What the table shows of a slot once its descriptor is closed. -/
def JobSlot.unfenced (slot : JobSlot) : JobSlot :=
  if slot.fenceFd ≠ -1 then { slot with phase := .submitted, fenceFd := -1 } else slot

@[simp] theorem JobSlot.unfenced_fenceFd (slot : JobSlot) : slot.unfenced.fenceFd = -1 := by
  unfold unfenced
  split
  · rfl
  · tauto

@[simp] theorem JobSlot.unfenced_submit (slot : JobSlot) : slot.unfenced.submit = slot.submit := by
  unfold unfenced
  split <;> rfl

theorem JobSlot.unfenced_phase {slot : JobSlot} (h : slot.phase ≠ .free) :
    slot.unfenced.phase ≠ .free := by
  unfold unfenced
  split
  · simp
  · exact h

theorem closeFence_tracks {s : Slots} {slot : JobSlot} (hlog : s.log = w.log)
    (hp : (s.jobs i).phase ≠ .free) (hfd : (s.jobs i).fenceFd = slot.fenceFd) :
    Tracks os stale (fun w' => ⟨Function.update s.jobs i (s.jobs i).unfenced, w'.log⟩) s
      (closeFence os i slot w) := by
  unfold closeFence
  rw [← hfd]
  split
  · rename_i hn
    have hs := @SlotStep.closed os stale s i hp hn
    refine askOrAbort_tracks _ ?_
    simpa only [Slots.tell, Slots.set, Slots.closeRequest, World.slots, hlog, JobSlot.unfenced,
      if_pos hn] using hs
  · rename_i hn
    refine .of_eq ?_
    simp only [JobSlot.unfenced, if_neg hn, Function.update_eq_self, ← hlog]

theorem strelaJobSlotRelease_tracks (i : SlotId) (w : World) :
    Tracks os stale World.slots w.slots (strelaJobSlotRelease os i w) := by
  unfold strelaJobSlotRelease
  split
  · by_cases hp : (w.slot i).phase = .free
    · have hf : strelaJobSlotFinish os i w = .ok w := by simp [strelaJobSlotFinish, hp]
      simp only [hf, ok_bind, hp, ne_eq, not_true_eq_false, if_false]
      exact .of_eq rfl
    · refine .bind _ strelaJobSlotFinish_tracks fun w₁ h₁ => ?_
      obtain ⟨hfree, hfd, hsub, hup⟩ := strelaJobSlotFinish_slot h₁
      have hp₁ : (w₁.slot i).phase ≠ .free := mt hfree.mp hp
      simp only [hp₁, ne_eq, not_false_eq_true, if_true]
      refine .bind _ (closeFence_tracks rfl hp hfd.symm) fun w₂ h₂ => ?_
      have hd₂ := closeFence_dev h₂
      refine .bind _ (destroySyncobj_tracks rfl ?_ ?_ ?_) fun w₃ h₃ => .of_eq ?_
      · simpa [World.slot] using JobSlot.unfenced_phase hp
      · simp
      · rw [hsub]
        simp [World.slot]
      · have hd₃ := destroySyncobj_dev h₃
        simp [World.slots, World.setSlot, hd₃, hd₂, hup]
  · exact .stopped rfl

theorem strelaJobSlotRelease_of_free (hi : w.dev.initialized = true)
    (hp : (w.slot i).phase = .free) : strelaJobSlotRelease os i w = .ok w := by
  simp [strelaJobSlotRelease, strelaJobSlotFinish, hi, hp]

theorem releaseEach_tracks (is : List SlotId) (w : World) :
    Tracks os stale World.slots w.slots (releaseEach os is w) := by
  induction is generalizing w with
  | nil => exact .of_eq rfl
  | cons i is ih => exact .bind _ (strelaJobSlotRelease_tracks i w) fun w' _ => ih w'

theorem strelaJobFreeAll_tracks (w : World) :
    Tracks os stale World.slots w.slots (strelaJobFreeAll os w) := by
  unfold strelaJobFreeAll
  split
  · exact releaseEach_tracks _ w
  · exact .of_eq rfl

/-! ## Jobs -/

theorem initialized_of_ok (hw : w.ok = true) : w.dev.initialized = true := by
  simp only [World.ok, Bool.and_eq_true] at hw
  exact hw.1

theorem findFree_phase (h : w.findFree = some i) : (w.slot i).phase = .free := by
  simpa using List.find?_some h

theorem strelaJobSlotGet_of_ok {job : JobHandle} {phases : SlotPhase → Bool} (hw : w.ok = true)
    (hv : job.valid = true) (hi : job.handle = i) (hp : phases (w.slot i).phase = true) :
    strelaJobSlotGet job phases w = .ok (some i, w) := by
  have hh : job.handle < 16 := hi ▸ i.isLt
  obtain rfl : (⟨job.handle, hh⟩ : SlotId) = i := Fin.ext hi
  simp [strelaJobSlotGet, hw, hh, hv, hp]

theorem strelaJobSlotGet_cases (job : JobHandle) (phases : SlotPhase → Bool) (w : World) :
    (∃ i : SlotId, strelaJobSlotGet job phases w = .ok (some i, w) ∧ w.ok = true ∧
      job.valid = true ∧ job.handle = i ∧ phases (w.slot i).phase = true) ∨
    ∃ w', strelaJobSlotGet job phases w = .ok (none, w') ∧ w'.slots = w.slots ∧ w'.ok = false ∧
      w'.dev = { w.dev with errnum := w'.dev.errnum } := by
  have hbad : (w.setErr errBadArg).ok = false := ok_setErr_of_ne (by decide)
  by_cases hw : w.ok = true
  · by_cases hh : job.handle < 16
    · by_cases hv : job.valid = true ∧ phases (w.slot ⟨job.handle, hh⟩).phase = true
      · exact .inl ⟨⟨job.handle, hh⟩, strelaJobSlotGet_of_ok hw hv.1 rfl hv.2, hw, hv.1, rfl, hv.2⟩
      · refine .inr ⟨w.setErr errBadArg, ?_, rfl, hbad, rfl⟩
        have hv' : ¬ job.valid = true ∨ ¬ phases (w.slot ⟨job.handle, hh⟩).phase = true := by tauto
        simp [strelaJobSlotGet, hw, hh, hbad, -Bool.not_eq_true, hv']
    · exact .inr ⟨w.setErr errBadArg, by simp [strelaJobSlotGet, hw, hh, hbad], rfl, hbad, rfl⟩
  · rw [Bool.not_eq_true] at hw
    exact .inr ⟨w, strelaJobSlotGet_of_not_ok hw job phases, rfl, hw, rfl⟩

theorem strelaJobFree_tracks (job : JobHandle) (w : World) :
    Tracks os stale World.slots w.slots (strelaJobFree os job w) := by
  unfold strelaJobFree
  rcases strelaJobSlotGet_cases job (fun _ => true) w with ⟨i, h, -⟩ | ⟨w', h, hs, -⟩
  · rw [h]
    exact strelaJobSlotRelease_tracks i w
  · rw [h]
    exact .of_eq hs.symm

/-- A configuration fills the first free slot, or finds out that no sync object can be had, or
does not get that far. -/
theorem strelaJobConfig_cases (os : Os) (kernel : Kernel) (conf : Conf) (w : World) :
    (∃ i h, (w.ok = true ∧ kernel.accepted = true ∧ w.findFree = some i ∧
        os w.log (.syncobjCreate i) = .ok h) ∧
      strelaJobConfig os kernel conf w = .ok (⟨true, i⟩, (w.ask os (.syncobjCreate i)).2.setSlot i
        { w.slot i with
          phase := .configured
          fenceFd := -1
          submit := confSubmit w.dev kernel conf (BitVec.ofInt 32 h) })) ∨
    (∃ i e, w.findFree = some i ∧ os w.log (.syncobjCreate i) = .error e ∧
      strelaJobConfig os kernel conf w =
        .ok (.none, (w.ask os (.syncobjCreate i)).2.setErr e)) ∨
    ((w.ok = false ∨ kernel.accepted = false ∨ w.findFree = none) ∧
      ∃ w', strelaJobConfig os kernel conf w = .ok (.none, w') ∧ w'.slots = w.slots ∧
        w'.dev = { w.dev with errnum := w'.dev.errnum }) := by
  cases hw : w.ok with
  | false => exact .inr (.inr ⟨.inl rfl, w, strelaJobConfig_of_not_ok hw kernel conf, rfl, rfl⟩)
  | true =>
    cases hk : kernel.accepted with
    | false =>
      have hbad : (w.setErr errBadArg).ok = false := ok_setErr_of_ne (by decide)
      exact .inr (.inr ⟨.inr (.inl rfl), w.setErr errBadArg,
        by simp [strelaJobConfig, checkKernel, hw, hk, hbad], rfl, rfl⟩)
    | true =>
      cases hf : w.findFree with
      | none =>
        exact .inr (.inr ⟨.inr (.inr rfl), w.setErr errNoMem,
          by simp [strelaJobConfig, checkKernel, hw, hk, hf], rfl, rfl⟩)
      | some i =>
        cases ho : os w.log (.syncobjCreate i) with
        | ok h =>
          refine .inl ⟨i, h, ⟨rfl, rfl, rfl, ho⟩, ?_⟩
          have hw' : (w.ask os (.syncobjCreate i)).2.ok = true := hw
          simp [strelaJobConfig, checkKernel, syncobjCreate, hw, hk, hf, World.ask, ho] at hw' ⊢
          simp [hw']
          rfl
        | error e =>
          refine .inr (.inl ⟨i, e, rfl, ho, ?_⟩)
          have he : ((w.ask os (.syncobjCreate i)).2.setErr e).ok = false :=
            ok_setErr_of_ne (by exact_mod_cast e.ne_zero)
          have hr : strelaJobSlotRelease os i ((w.ask os (.syncobjCreate i)).2.setErr e) =
              .ok ((w.ask os (.syncobjCreate i)).2.setErr e) :=
            strelaJobSlotRelease_of_free (show w.dev.initialized = true from initialized_of_ok hw)
              (findFree_phase hf)
          simp only [World.ask, ho] at he hr ⊢
          simp [strelaJobConfig, checkKernel, syncobjCreate, hw, hk, hf, World.ask, ho, he, hr]

theorem strelaJobConfig_tracks (kernel : Kernel) (conf : Conf) (w : World) :
    Tracks os stale (fun p => p.2.slots) w.slots (strelaJobConfig os kernel conf w) := by
  rcases strelaJobConfig_cases os kernel conf w with
    ⟨i, h, ⟨-, -, hf, ho⟩, he⟩ | ⟨i, e, -, ho, he⟩ | ⟨-, w', he, hs, -⟩
  · rw [he]
    exact .last (.configured (findFree_phase hf) ho rfl rfl rfl)
  · rw [he]
    exact .last (.createFailed ho)
  · rw [he]
    exact .of_eq hs.symm

/-- The job is done, the driver takes it again, and its new descriptor cannot be exported after
the old one is closed. -/
def StaleResubmit (os : Os) (w : World) (job : JobHandle) : Prop :=
  w.ok = true ∧ job.valid = true ∧ ∃ i : SlotId, job.handle = i ∧ (w.slot i).phase = .done ∧
    (∃ v, os w.log (w.slots.submitRequest i) = .ok v) ∧
    (∃ v, os (w.slots.submitted os i).log (w.slots.closeRequest i) = .ok v) ∧
    ∃ e, os (w.slots.reclaimed os i).log (w.slots.exportRequest i) = .error e

theorem submitExport_ok {slot : JobSlot} {fd : ℤ}
    (h : os w.log (.handleToFd i slot.submit.outSyncobj) = .ok fd) :
    (submitExport os i slot w).slots =
      (w.slots.tell os (.handleToFd i slot.submit.outSyncobj)).set i
      { slot with phase := .submitted, fenceFd := fd } := by
  simp [submitExport, World.ask, World.setSlot, World.slots, Slots.set, Slots.tell, h]

theorem submitExport_error {slot : JobSlot} {e : ℕ+}
    (h : os w.log (.handleToFd i slot.submit.outSyncobj) = .error e) :
    (submitExport os i slot w).slots =
      (w.slots.tell os (.handleToFd i slot.submit.outSyncobj)).set i
      { slot with phase := .submitted } := by
  simp [submitExport, World.ask, World.setSlot, World.setErr, World.slots, Slots.set, Slots.tell, h]

theorem submitExport_not_ok {slot : JobSlot} {e : ℕ+}
    (h : os w.log (.handleToFd i slot.submit.outSyncobj) = .error e) :
    (submitExport os i slot w).ok = false := by
  have he := ok_setErr_of_ne (w := ((w.setSlot i { slot with phase := .submitted }).ask os
    (.handleToFd i slot.submit.outSyncobj)).2) (by exact_mod_cast e.ne_zero : (e : ℤ) ≠ 0)
  rw [submitExport, ask_eq (w := w.setSlot i _) h]
  exact he

theorem submitAccepted_tracks (hp : submittable (w.slot i).phase = true)
    {v : ℤ} (ho : os w.log (w.slots.submitRequest i) = .ok v)
    (hst : (w.slot i).phase = .done →
      (∃ v, os (w.slots.submitted os i).log (w.slots.closeRequest i) = .ok v) →
      (∃ e, os (w.slots.reclaimed os i).log (w.slots.exportRequest i) = .error e) → stale) :
    Tracks os stale World.slots w.slots
      (submitAccepted os i (w.ask os (w.slots.submitRequest i)).2) := by
  have hslot : (w.ask os (w.slots.submitRequest i)).2.slot i = w.slot i := rfl
  simp only [submitAccepted, hslot]
  split
  · rename_i hd
    have hr := @SlotStep.reclaimed os stale w.slots i v hd ho
    cases hc : os (w.slots.submitted os i).log (w.slots.closeRequest i) with
    | error e =>
      rw [askOrAbort_of_error hc]
      exact .head hr (.stopped rfl)
    | ok c =>
      rw [askOrAbort_of_ok hc, ok_bind]
      cases he : os (w.slots.reclaimed os i).log (w.slots.exportRequest i) with
      | ok fd =>
        refine .head hr (.last ?_)
        rw [submitExport_ok he]
        have hx := @SlotStep.exported os stale ((w.slots.reclaimed os i).set i
          { w.slot i with phase := .submitted, fenceFd := -1 }) i fd
        simp only [Slots.set, Slots.exportRequest, Function.update_self, Slots.tell,
          Function.update_idem] at hx
        exact hx trivial trivial he
      | error e =>
        refine .last ?_
        rw [submitExport_error he]
        exact .lost (hst hd ⟨c, hc⟩ ⟨e, he⟩) hd ho he
  · rename_i hd
    have hc : (w.slot i).phase = .configured := by simpa [submittable, hd] using hp
    refine .last ?_
    cases he : os (w.slots.submitted os i).log (w.slots.exportRequest i) with
    | ok fd =>
      rw [submitExport_ok he]
      exact .accepted hc ho he
    | error e =>
      rw [submitExport_error he]
      exact .unexported hc ho he

theorem ne_free_of_submittable {p : SlotPhase} (h : submittable p = true) : p ≠ .free := by
  rintro rfl
  cases h

theorem strelaJobSubmit_tracks (job : JobHandle) (w : World)
    (hst : StaleResubmit os w job → stale) :
    Tracks os stale (fun p => p.2.slots) w.slots (strelaJobSubmit os job w) := by
  unfold strelaJobSubmit
  rcases strelaJobSlotGet_cases job submittable w with ⟨i, h, hw, hv, hi, hp⟩ | ⟨w', h, hs, -⟩
  · rw [h, ok_bind]
    have hreq : Request.strelaSubmit i (w.slot i).submit = w.slots.submitRequest i := rfl
    simp only [hreq]
    cases ho : os w.log (w.slots.submitRequest i) with
    | error e =>
      rw [ask_eq ho]
      exact .last (.submitFailed (ne_free_of_submittable hp) ho)
    | ok v =>
      rw [ask_eq ho]
      have ha : Tracks os stale World.slots w.slots
          (submitAccepted os i (w.ask os (w.slots.submitRequest i)).2) :=
        submitAccepted_tracks hp ho fun hd hc he => hst ⟨hw, hv, i, hi, hd, ⟨v, ho⟩, hc, he⟩
      exact .bind _ ha fun w' _ => .of_eq rfl
  · rw [h]
    exact .of_eq hs.symm

theorem strelaJobUpdate_tracks (timeout : ℤ) (w : World) :
    Tracks os stale World.slots w.slots (strelaJobUpdate os i timeout w) := by
  unfold strelaJobUpdate
  dsimp only
  split
  · rename_i hin
    split
    · rename_i hd
      have hp : (w.slot i).phase = .submitted := by simpa [inDriver, hd] using hin
      have hpoll : Request.poll i (w.slot i).fenceFd timeout = w.slots.pollRequest i timeout := rfl
      have hinfo : Request.fileInfo i (w.slot i).fenceFd = w.slots.infoRequest i := rfl
      simp only [hpoll, hinfo]
      cases ho : os w.log (w.slots.pollRequest i timeout) with
      | error e =>
        rw [ask_eq ho]
        dsimp only
        split <;> exact .last (.polled hp)
      | ok ready =>
        rw [ask_eq ho]
        dsimp only
        split
        · exact .last (.polled hp)
        · rename_i hr
          cases hf : os (w.slots.tell os (w.slots.pollRequest i timeout)).log
              (w.slots.infoRequest i) with
          | error e =>
            rw [ask_eq hf]
            exact .last (.uninspected hp ho hr hf)
          | ok status =>
            rw [ask_eq hf]
            exact .last (.completed hp ho hr hf)
    · exact .of_eq rfl
  · exact .stopped rfl

theorem strelaJobPoll_tracks (job : JobHandle) (w : World) :
    Tracks os stale (fun p => p.2.slots) w.slots (strelaJobPoll os job w) := by
  unfold strelaJobPoll
  rcases strelaJobSlotGet_cases job inDriver w with ⟨i, h, -⟩ | ⟨w', h, hs, -⟩
  · rw [h, ok_bind]
    exact .bind _ (strelaJobUpdate_tracks 0 w) fun w' _ => .of_eq rfl
  · rw [h]
    exact .of_eq hs.symm

theorem strelaJobWait_tracks (job : JobHandle) (timeout : ℤ) (w : World) :
    Tracks os stale (fun p => p.2.slots) w.slots (strelaJobWait os job timeout w) := by
  unfold strelaJobWait
  rcases strelaJobSlotGet_cases job inDriver w with ⟨i, h, -⟩ | ⟨w', h, hs, -⟩
  · rw [h, ok_bind]
    exact .bind _ (strelaJobUpdate_tracks timeout w) fun w' _ => .of_eq rfl
  · rw [h]
    exact .of_eq hs.symm

theorem strelaJobFd_tracks (job : JobHandle) (w : World) :
    Tracks os stale (fun p => p.2.slots) w.slots (strelaJobFd job w) := by
  unfold strelaJobFd
  rcases strelaJobSlotGet_cases job inDriver w with ⟨i, h, -⟩ | ⟨w', h, hs, -⟩
  · rw [h]
    exact .of_eq rfl
  · rw [h]
    exact .of_eq hs.symm

theorem strelaConfig_tracks (kernel : Kernel) (conf : Conf) (w : World) :
    Tracks os stale World.slots w.slots (strelaConfig os kernel conf w) := by
  have hc : ∀ w : World, Tracks os stale World.slots w.slots
      (strelaJobConfig os kernel conf w >>= fun p =>
        .ok { p.2 with dev := { p.2.dev with backwardCompatJob := p.1 } }) := by
    intro w
    exact .bind _ (strelaJobConfig_tracks kernel conf w) fun _ _ => .of_eq rfl
  unfold strelaConfig
  split
  · exact .bind _ (strelaJobFree_tracks _ w) fun w' _ => hc w'
  · exact hc w

theorem strelaExecute_tracks (w : World)
    (hst : StaleResubmit os w w.dev.backwardCompatJob → stale) :
    Tracks os stale (fun p => p.2.slots) w.slots (strelaExecute os w) := by
  unfold strelaExecute
  refine .bind _ (strelaJobSubmit_tracks _ w hst) fun p₁ _ => ?_
  refine .bind _ (strelaJobWait_tracks _ 2000 p₁.2) fun p₂ _ => ?_
  refine .bind _ (strelaJobPoll_tracks _ p₂.2) fun p₃ _ => ?_
  dsimp only
  split
  · exact .of_eq rfl
  · exact .stopped rfl

def Call.Stale (os : Os) (w : World) : Call → Prop
  | .jobSubmit job => StaleResubmit os w job
  | .execute => StaleResubmit os w w.dev.backwardCompatJob
  | _ => False

/-- Every call follows the steps of the table. -/
theorem exec_tracks (A : Abi) (c : Call) (w : World) (hst : c.Stale os w → stale) :
    Tracks os stale World.slots w.slots (c.exec A os w) := by
  cases c with
  | kernelAlloc => exact .map strelaKernelAlloc_tracks
  | kernelSet kernel data => exact strelaKernelSet_tracks kernel data
  | kernelFree kernel => exact .of_eq (checkKernel_slots kernel).symm
  | kernelFreeAll =>
    refine .of_eq ?_
    unfold strelaKernelFreeAll
    split <;> rfl
  | bufferAlloc sizeWords => exact .map (strelaBufferAlloc_tracks sizeWords)
  | bufferFromPtr ptr => exact .map (strelaBufferFromPtr_tracks ptr)
  | bufferSetData buffer ptr =>
    unfold Call.exec strelaBufferSetData
    apply withBuffer_tracks buffer
    intro _
    exact .of_eq rfl
  | bufferGetData buffer ptr =>
    unfold Call.exec strelaBufferGetData
    apply withBuffer_tracks buffer
    intro _
    exact .of_eq rfl
  | bufferFree buffer => exact strelaBufferFree_tracks buffer
  | bufferFreeAll =>
    refine .of_eq ?_
    unfold strelaBufferFreeAll
    split <;> rfl
  | bufferFlush buffer offset count =>
    unfold Call.exec strelaBufferFlush
    dsimp only
    split
    · exact strelaBufferSync_tracks ..
    · exact .of_eq rfl
  | bufferInval buffer offset count =>
    unfold Call.exec strelaBufferInval
    dsimp only
    split
    · rw [← slots_setErr errBadArg]
      exact strelaBufferSync_tracks ..
    · exact strelaBufferSync_tracks ..
  | jobConfig kernel conf => exact .map (strelaJobConfig_tracks kernel conf w)
  | jobFree job => exact strelaJobFree_tracks job w
  | jobFreeAll => exact strelaJobFreeAll_tracks w
  | jobSubmit job => exact .map (strelaJobSubmit_tracks job w hst)
  | jobPoll job => exact .map (strelaJobPoll_tracks job w)
  | jobWait job timeout => exact .map (strelaJobWait_tracks job timeout w)
  | jobFd job => exact .map (strelaJobFd_tracks job w)
  | config kernel conf => exact strelaConfig_tracks kernel conf w
  | execute => exact .map (strelaExecute_tracks w hst)

/-! ## Runs -/

inductive Action
  | call (c : Call)
  | resetErr

/-- The calls of a program on a device that was just initialized. -/
def libLts (A : Abi) (os : Os) : Lts World Action where
  start w := w.dev.initialized = true ∧ (∀ i, w.slot i = .zero) ∧ w.log = []
  step
    | w, .call c, w' => c.exec A os w = .ok w'
    | w, .resetErr, w' => w' = strelaDevResetErr w

def World.after (A : Abi) (os : Os) (w : World) (c : Call) : World :=
  match c.exec A os w with
  | .ok w' => w'
  | .error _ => w

theorem exec_after {c : Call} (hc : (c.exec A os w).isOk = true) :
    c.exec A os w = .ok (w.after A os c) := by
  cases hx : c.exec A os w with
  | error log =>
    rw [hx] at hc
    cases hc
  | ok w' => rw [World.after, hx]

theorem reach_after (h : (libLts A os).Reach w) {c : Call} (hc : (c.exec A os w).isOk = true) :
    (libLts A os).Reach (w.after A os c) := h.step (a := .call c) (exec_after hc)

theorem slots_resetErr : (strelaDevResetErr w).slots = w.slots := by
  unfold strelaDevResetErr
  split <;> rfl

theorem slots_start (hz : ∀ i, w.slot i = .zero) (hl : w.log = []) :
    w.slots = ⟨fun _ => .zero, []⟩ := by
  rw [World.slots, hl, show w.dev.jobs = fun _ => .zero from funext hz]

def emptyConf : Conf := ⟨fun _ => 0, fun _ => 0, fun _ => 1, fun _ => 0, fun _ => 0⟩

def readyWorld : World where
  dev := { failedDev with errnum := 0, backwardCompatJob := .none, jobs := fun _ => .zero }
  mem := fun _ => 0
  log := []

theorem readyWorld_start : (libLts A os).start readyWorld := ⟨rfl, fun _ => rfl, rfl⟩

section Keeps

variable {P : Slots → Prop} (hP : ∀ s s', P s → SlotStep os stale s s' → P s')

include hP

/-- What every step of the table keeps, every action of the program keeps. -/
theorem step_keeps {a : Action} {w' : World} (hst : ∀ c, a = .call c → c.Stale os w → stale)
    (h : (libLts A os).step w a w') (hw : P w.slots) : P w'.slots := by
  cases a with
  | call c =>
    have ht := exec_tracks A c w (hst c rfl)
    rw [show c.exec A os w = .ok w' from h] at ht
    exact keeps_of_step hP ht hw
  | resetErr =>
    obtain rfl : w' = strelaDevResetErr w := h
    rwa [slots_resetErr]

theorem abort_keeps {c : Call} {log : List Event} (hst : c.Stale os w → stale)
    (h : c.exec A os w = .error log) (hw : P w.slots) : ∃ s, P s ∧ s.log = log := by
  have ht := exec_tracks A c w hst
  rw [h] at ht
  obtain ⟨s, hs, hl⟩ := ht
  exact ⟨s, keeps_of_step hP hs hw, hl⟩

end Keeps

end Strela.Lib
