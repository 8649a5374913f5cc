import Strela.Lib.Job
import Strela.Foundation.Transition

/-! # The public calls and the recorded error

Every public call on a device, and what each does once the device has an error.
All but two of them do nothing at all then: invalidating an unaligned range
records its own error over the first, and `strela_config` drops the job it
configured before.
-/

namespace Strela.Lib

open Foundation Strela.Allocator

inductive Call
  | kernelAlloc
  | kernelSet (kernel : Kernel) (data : ℕ)
  | kernelFree (kernel : Kernel)
  | kernelFreeAll
  | bufferAlloc (sizeWords : ℕ)
  | bufferFromPtr (ptr : ℕ)
  | bufferSetData (buffer : Buffer) (ptr : ℕ)
  | bufferGetData (buffer : Buffer) (ptr : ℕ)
  | bufferFree (buffer : Buffer)
  | bufferFreeAll
  | bufferFlush (buffer : Buffer) (offset count : ℕ)
  | bufferInval (buffer : Buffer) (offset count : ℕ)
  | jobConfig (kernel : Kernel) (conf : Conf)
  | jobFree (job : JobHandle)
  | jobFreeAll
  | jobSubmit (job : JobHandle)
  | jobPoll (job : JobHandle)
  | jobWait (job : JobHandle) (timeout : ℤ)
  | jobFd (job : JobHandle)
  | config (kernel : Kernel) (conf : Conf)
  | execute

variable (A : Abi) (os : Os)

def Call.exec : Call → World → Exec World
  | kernelAlloc, w => (strelaKernelAlloc A w).map Prod.snd
  | kernelSet kernel data, w => .ok (strelaKernelSet A os kernel data w)
  | kernelFree kernel, w => .ok (strelaKernelFree kernel w)
  | kernelFreeAll, w => .ok (strelaKernelFreeAll A w)
  | bufferAlloc sizeWords, w => (strelaBufferAlloc A sizeWords w).map Prod.snd
  | bufferFromPtr ptr, w => (strelaBufferFromPtr A ptr w).map fun _ => w
  | bufferSetData buffer ptr, w => strelaBufferSetData A buffer ptr w
  | bufferGetData buffer ptr, w => strelaBufferGetData A buffer ptr w
  | bufferFree buffer, w => strelaBufferFree A buffer w
  | bufferFreeAll, w => .ok (strelaBufferFreeAll A w)
  | bufferFlush buffer offset count, w => .ok (strelaBufferFlush A os buffer offset count w)
  | bufferInval buffer offset count, w => .ok (strelaBufferInval A os buffer offset count w)
  | jobConfig kernel conf, w => (strelaJobConfig os kernel conf w).map Prod.snd
  | jobFree job, w => strelaJobFree os job w
  | jobFreeAll, w => strelaJobFreeAll os w
  | jobSubmit job, w => (strelaJobSubmit os job w).map Prod.snd
  | jobPoll job, w => (strelaJobPoll os job w).map Prod.snd
  | jobWait job timeout, w => (strelaJobWait os job timeout w).map Prod.snd
  | jobFd job, w => (strelaJobFd job w).map Prod.snd
  | config kernel conf, w => strelaConfig os kernel conf w
  | execute, w => (strelaExecute os w).map Prod.snd

/-! ## Calls on a device with an error -/

/-- The call returns, makes no ioctl, and leaves the device and the memory as they were. -/
def Call.Inert (c : Call) (w : World) : Prop :=
  ∃ w', c.exec A os w = .ok w' ∧ w'.dev = w.dev ∧ w'.mem = w.mem ∧ w'.ioctls = w.ioctls

/-- The ranges `strela_buffer_inval` refuses. -/
def unaligned (offset count : ℕ) : Bool :=
  !isAligned (A.mul offset wordSize) cachelineSize ||
    !isAligned (A.mul count wordSize) cachelineSize

/-- The calls that change a device whatever error it has. -/
def Call.Overwrites (w : World) : Call → Prop
  | .bufferInval _ offset count => unaligned A offset count = true ∧ w.dev.errnum ≠ errBadArg
  | .config _ _ => w.dev.backwardCompatJob ≠ .none
  | _ => False

variable {A os} {w : World} {e : ℤ}

@[simp] theorem ok_setErr_of_ne (he : e ≠ 0) : (w.setErr e).ok = false := by
  simp [World.ok, World.setErr, he]

theorem checkKernel_of_not_ok (hw : w.ok = false) (kernel : Kernel) : checkKernel kernel w = w := by
  simp [checkKernel, hw]

theorem strelaBufferSync_of_not_ok (hw : w.ok = false) (buffer : Buffer) (flags : U32)
    (offset count : ℕ) : strelaBufferSync A os buffer flags offset count w = w := by
  simp [strelaBufferSync, hw]

theorem strelaJobSlotGet_of_not_ok (hw : w.ok = false) (job : JobHandle)
    (phases : SlotPhase → Bool) : strelaJobSlotGet job phases w = .ok (none, w) := by
  simp [strelaJobSlotGet, hw]

theorem strelaJobConfig_of_not_ok (hw : w.ok = false) (kernel : Kernel) (conf : Conf) :
    strelaJobConfig os kernel conf w = .ok (.none, w) := by
  simp [strelaJobConfig, checkKernel, hw]

theorem strelaJobFree_of_not_ok (hw : w.ok = false) (job : JobHandle) :
    strelaJobFree os job w = .ok w := by
  simp [strelaJobFree, strelaJobSlotGet_of_not_ok hw]

theorem strelaConfig_of_not_ok (hw : w.ok = false) (kernel : Kernel) (conf : Conf) :
    strelaConfig os kernel conf w =
      .ok { w with dev := { w.dev with backwardCompatJob := .none } } := by
  simp [strelaConfig, strelaJobFree_of_not_ok hw, strelaJobConfig_of_not_ok hw]

theorem strelaExecute_of_not_ok (hw : w.ok = false) :
    strelaExecute os w = .ok (.failed, w) := by
  simp [strelaExecute, strelaJobSubmit, strelaJobWait, strelaJobPoll,
    strelaJobSlotGet_of_not_ok hw]

theorem strelaBufferInval_of_not_ok (hw : w.ok = false) (buffer : Buffer) (offset count : ℕ) :
    strelaBufferInval A os buffer offset count w =
      if unaligned A offset count then w.setErr errBadArg else w := by
  unfold strelaBufferInval unaligned
  dsimp only
  split
  · exact strelaBufferSync_of_not_ok (ok_setErr_of_ne (by decide)) ..
  · exact strelaBufferSync_of_not_ok hw ..

theorem exec_of_not_ok (A : Abi) (os : Os) (hw : w.ok = false) (c : Call)
    (hi : ∀ b o n, c ≠ .bufferInval b o n) (hc : ∀ k f, c ≠ .config k f) :
    c.exec A os w = .ok w := by
  cases c with
  | kernelAlloc => simp [Call.exec, strelaKernelAlloc, hw]
  | kernelSet | kernelFree =>
    simp [Call.exec, strelaKernelSet, strelaKernelFree, checkKernel_of_not_ok hw, hw]
  | kernelFreeAll => simp [Call.exec, strelaKernelFreeAll, hw]
  | bufferAlloc | bufferFromPtr | bufferFreeAll =>
    simp [Call.exec, strelaBufferAlloc, strelaBufferFromPtr, strelaBufferFreeAll, hw]
  | bufferSetData | bufferGetData | bufferFree =>
    simp [Call.exec, strelaBufferSetData, strelaBufferGetData, strelaBufferFree, withBuffer, hw]
  | bufferFlush =>
    simp [Call.exec, strelaBufferFlush, strelaBufferSync_of_not_ok hw]
  | bufferInval b o n => exact absurd rfl (hi b o n)
  | jobConfig => simp [Call.exec, strelaJobConfig_of_not_ok hw]
  | jobFree => exact strelaJobFree_of_not_ok hw _
  | jobFreeAll => simp [Call.exec, strelaJobFreeAll, hw]
  | jobSubmit | jobPoll | jobWait | jobFd =>
    simp [Call.exec, strelaJobSubmit, strelaJobPoll, strelaJobWait, strelaJobFd,
      strelaJobSlotGet_of_not_ok hw]
  | config k f => exact absurd rfl (hc k f)
  | execute => simp [Call.exec, strelaExecute_of_not_ok hw]

/-- On a device with an error a call is inert exactly if it is not one of the two that overwrite
part of the device. -/
theorem inert_iff (hw : w.ok = false) (c : Call) : c.Inert A os w ↔ ¬ c.Overwrites A w := by
  by_cases hi : ∃ b o n, c = .bufferInval b o n
  · obtain ⟨b, o, n, rfl⟩ := hi
    simp only [Call.Inert, Call.exec, strelaBufferInval_of_not_ok hw, Except.ok.injEq,
      exists_eq_left', Call.Overwrites]
    cases unaligned A o n with
    | false => simp
    | true =>
      simp only [if_true, true_and, not_not, World.setErr, World.ioctls, and_true]
      constructor
      · intro h
        exact (congrArg Dev.errnum h).symm
      · intro h
        rw [← h]
  by_cases hc : ∃ k f, c = .config k f
  · obtain ⟨k, f, rfl⟩ := hc
    simp only [Call.Inert, Call.exec, strelaConfig_of_not_ok hw, Except.ok.injEq,
      exists_eq_left', Call.Overwrites, not_not, World.ioctls, and_true]
    constructor
    · intro h
      exact (congrArg Dev.backwardCompatJob h).symm
    · intro h
      rw [← h]
  · have he := exec_of_not_ok A os hw c (fun b o n h => hi ⟨b, o, n, h⟩)
      (fun k f h => hc ⟨k, f, h⟩)
    have ho : ¬ c.Overwrites A w := by
      cases c with
      | bufferInval b o n => exact absurd ⟨b, o, n, rfl⟩ hi
      | config k f => exact absurd ⟨k, f, rfl⟩ hc
      | _ => exact id
    exact iff_of_true ⟨w, he, rfl, rfl, rfl⟩ ho

def failedDev : Dev where
  fd := 3
  tensorsBoHandle := 2
  tensorsBoMap := 0x20000
  kernelsBoHandle := 1
  kernelsBoMap := 0x10000
  backwardCompatJob := ⟨true, 0⟩
  initialized := true
  errnum := errNoMem
  kernelPool := ⟨0x10000, 0xA000, 320, 0x10000⟩
  bufferFreeList := ⟨0x20000, 0x3200000, 0, 0x20000, .findFirst⟩
  jobs := fun i =>
    if i = 0 then ⟨.configured, { Submit.zero with outSyncobj := 1 }, -1, 0⟩ else .zero

def failedWorld : World := ⟨failedDev, fun _ => 0, []⟩

theorem inert_iff_failedWorld :
    (Call.bufferInval ⟨true, 16, 64⟩ 16 16).Inert Abi.arm32 (fun _ _ => .ok 0) failedWorld ∧
    ¬ (Call.config ⟨true, 0⟩ ⟨fun _ => 0, fun _ => 0, fun _ => 1, fun _ => 0, fun _ => 0⟩).Inert
      Abi.arm32 (fun _ _ => .ok 0) failedWorld := by
  have hw : failedWorld.ok = false := by decide
  refine ⟨(inert_iff hw _).mpr fun h => ?_, fun h => (inert_iff hw _).mp h ?_⟩
  · exact absurd h.1 (by decide)
  · exact (by decide : failedDev.backwardCompatJob ≠ .none)

/-- Invalidating one word past a cache line replaces the first error by its own. -/
theorem not_inert_failedWorld :
    ¬ ∀ (A : Abi) (os : Os) (w : World) (c : Call), w.ok = false → c.Inert A os w := by
  intro h
  obtain ⟨w', he, hd, -⟩ := h Abi.arm32 (fun _ _ => .ok 0) failedWorld
    (.bufferInval ⟨true, 16, 64⟩ 1 16) (by decide)
  obtain rfl := Except.ok.inj he
  have herr : (-1 : ℤ) = -2 := congrArg Dev.errnum hd
  exact absurd herr (by decide)

end Strela.Lib
