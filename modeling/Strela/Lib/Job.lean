import Strela.Lib.Memory

/-! # Jobs

Sixteen slots hold the jobs of a device. A slot is filled by `strela_job_config`,
may be submitted again and again, and is emptied by the release that closes its
fence descriptor and destroys its sync object.
-/

namespace Strela.Lib

open Foundation

/-- `strela_conf`, one field for each column. -/
structure Conf where
  inpOffset : Fin 4 → ℕ
  inpCount : Fin 4 → ℕ
  inpStride : Fin 4 → ℕ
  outOffset : Fin 4 → ℕ
  outCount : Fin 4 → ℕ

inductive JobState | pending | ok | failed
  deriving DecidableEq, Repr

def eintr : ℕ+ := Nat.toPNat' 4

def Submit.zero : Submit :=
  ⟨⟨0, 0, 0⟩, fun _ => ⟨0, 0, 0, 0⟩, fun _ => ⟨0, 0, 0⟩, 0, 0, 0, 0⟩

def JobSlot.zero : JobSlot := ⟨.free, Submit.zero, 0, 0⟩

def JobSlot.released : JobSlot := { JobSlot.zero with fenceFd := -1 }

variable (os : Os)

/-! ## Slots -/

/-- Wait until a submitted job is out of the driver. -/
def waitFence (i : SlotId) (slot : JobSlot) (w : World) : Exec World :=
  if slot.fenceFd ≠ -1 then w.askOrAbort os (.poll i slot.fenceFd (-1))
  else w.askOrAbort os (.syncobjWait i slot.submit.outSyncobj)

def strelaJobSlotFinish (i : SlotId) (w : World) : Exec World :=
  let slot := w.slot i
  if slot.phase ≠ .submitted then .ok w
  else do
    let w ← waitFence os i slot w
    .ok (w.setSlot i { slot with phase := .done })

def closeFence (i : SlotId) (slot : JobSlot) (w : World) : Exec World :=
  if slot.fenceFd ≠ -1 then w.askOrAbort os (.close i slot.fenceFd) else .ok w

def destroySyncobj (i : SlotId) (slot : JobSlot) (w : World) : Exec World :=
  if slot.submit.outSyncobj ≠ 0 then
    w.askOrAbort os (.syncobjDestroy i slot.submit.outSyncobj)
  else .ok w

def strelaJobSlotRelease (i : SlotId) (w : World) : Exec World :=
  if w.dev.initialized then do
    let w ← strelaJobSlotFinish os i w
    let slot := w.slot i
    if slot.phase ≠ .free then do
      let w ← closeFence os i slot w
      let w ← destroySyncobj os i slot w
      .ok (w.setSlot i .released)
    else .ok w
  else w.abort

def releaseEach : List SlotId → World → Exec World
  | [], w => .ok w
  | i :: is, w => do
    let w ← strelaJobSlotRelease os i w
    releaseEach is w

def strelaJobFreeAll (w : World) : Exec World :=
  if w.ok then releaseEach os (List.finRange 16) w else .ok w

def World.findFree (w : World) : Option SlotId :=
  (List.finRange 16).find? fun i => (w.slot i).phase == .free

/-- What `strela_job_config` asks the driver to run. -/
def confSubmit (dev : Dev) (kernel : Kernel) (conf : Conf) (syncobj : U32) : Submit where
  config := ⟨dev.kernelsBoHandle, BitVec.ofNat 32 (kernel.handle * kernelSize),
    BitVec.ofNat 32 kernelSize⟩
  inputs i := ⟨dev.tensorsBoHandle, BitVec.ofNat 32 (conf.inpOffset i),
    BitVec.ofNat 32 (conf.inpCount i), BitVec.ofNat 32 (conf.inpStride i)⟩
  outputs i := ⟨dev.tensorsBoHandle, BitVec.ofNat 32 (conf.outOffset i),
    BitVec.ofNat 32 (conf.outCount i)⟩
  outSyncobj := syncobj
  flags := 0
  inSyncobj := 0
  pad := 0

def syncobjCreate (i : SlotId) (w : World) : U32 × World :=
  if w.ok then
    match w.ask os (.syncobjCreate i) with
    | (.error e, w) => (0, w.setErr e)
    | (.ok handle, w) => (BitVec.ofInt 32 handle, w)
  else (0, w)

def strelaJobConfig (kernel : Kernel) (conf : Conf) (w : World) : Exec (JobHandle × World) :=
  let w := checkKernel kernel w
  let job := if w.ok then w.findFree else none
  let w := if w.ok ∧ job = none then w.setErr errNoMem else w
  match job with
  | some i =>
    let (syncobj, w) := syncobjCreate os i w
    if w.ok then
      .ok (⟨true, i⟩, w.setSlot i
        { w.slot i with
          phase := .configured
          fenceFd := -1
          submit := confSubmit w.dev kernel conf syncobj })
    else (strelaJobSlotRelease os i w).map fun w => (.none, w)
  -- The device has an error by now, so that no sync object is created.
  | none => .ok (.none, w)

/-- The slot of a job in one of the given phases, unless the device has an error by then. -/
def strelaJobSlotGet (job : JobHandle) (phases : SlotPhase → Bool) (w : World) :
    Exec (Option SlotId × World) :=
  let (slot, w) :=
    if w.ok then
      if h : job.handle < 16 then
        if ¬ job.valid ∨ ¬ phases (w.slot ⟨job.handle, h⟩).phase then (none, w.setErr errBadArg)
        else (some ⟨job.handle, h⟩, w)
      else (none, w.setErr errBadArg)
    else (none, w)
  if slot.isSome = w.ok then .ok (slot, w) else w.abort

def strelaJobFree (job : JobHandle) (w : World) : Exec World := do
  let (slot, w) ← strelaJobSlotGet job (fun _ => true) w
  match slot with
  | some i => strelaJobSlotRelease os i w
  | none => .ok w

/-! ## Submitting -/

def submittable (p : SlotPhase) : Bool := p == .configured || p == .done

def inDriver (p : SlotPhase) : Bool := p == .submitted || p == .done

/-- The end of `strela_job_submit`: the fence of the job is exported. -/
def submitExport (i : SlotId) (slot : JobSlot) (w : World) : World :=
  let w := w.setSlot i { slot with phase := .submitted }
  match w.ask os (.handleToFd i slot.submit.outSyncobj) with
  | (.error e, w) => w.setErr e
  | (.ok fd, w) => w.setSlot i { slot with phase := .submitted, fenceFd := fd }

/-- The rest of `strela_job_submit` once the driver has taken the job. -/
def submitAccepted (i : SlotId) (w : World) : Exec World := do
  let slot := w.slot i
  if slot.phase = .done then
    let w ← w.askOrAbort os (.close i slot.fenceFd)
    .ok (submitExport os i slot w)
  else .ok (submitExport os i slot w)

def strelaJobSubmit (job : JobHandle) (w : World) : Exec (Bool × World) := do
  let (slot, w) ← strelaJobSlotGet job submittable w
  match slot with
  | none => .ok (w.ok, w)
  | some i =>
    let w ←
      match w.ask os (.strelaSubmit i (w.slot i).submit) with
      | (.error e, w) => .ok (w.setErr e)
      | (.ok _, w) => submitAccepted os i w
    .ok (w.ok, w)

def strelaJobUpdate (i : SlotId) (timeout : ℤ) (w : World) : Exec World :=
  let slot := w.slot i
  if inDriver slot.phase then
    if slot.phase ≠ .done then
      match w.ask os (.poll i slot.fenceFd timeout) with
      | (.error e, w) => .ok (if e ≠ eintr then w.setErr e else w)
      | (.ok ready, w) =>
        if ready = 0 then .ok w
        else
          match w.ask os (.fileInfo i slot.fenceFd) with
          | (.error e, w) => .ok (w.setErr e)
          | (.ok status, w) => .ok (w.setSlot i { slot with status, phase := .done })
    else .ok w
  else w.abort

def strelaJobPoll (job : JobHandle) (w : World) : Exec (JobState × World) := do
  let (slot, w) ← strelaJobSlotGet job inDriver w
  match slot with
  | none => .ok (.failed, w)
  | some i =>
    let w ← strelaJobUpdate os i 0 w
    let slot := w.slot i
    .ok (if slot.phase ≠ .done then .pending else if slot.status > 0 then .ok else .failed, w)

def strelaJobWait (job : JobHandle) (timeout : ℤ) (w : World) : Exec (Bool × World) := do
  let (slot, w) ← strelaJobSlotGet job inDriver w
  match slot with
  | none => .ok (false, w)
  | some i =>
    let w ← strelaJobUpdate os i timeout w
    .ok (w.ok && (w.slot i).phase == .done, w)

def strelaJobFd (job : JobHandle) (w : World) : Exec (ℤ × World) := do
  let (slot, w) ← strelaJobSlotGet job inDriver w
  match slot with
  | none => .ok (-1, w)
  | some i => .ok ((w.slot i).fenceFd, w)

/-! ## Configuring and executing one job -/

def strelaConfig (kernel : Kernel) (conf : Conf) (w : World) : Exec World := do
  let w ←
    if w.dev.backwardCompatJob.valid then strelaJobFree os w.dev.backwardCompatJob w else .ok w
  let (job, w) ← strelaJobConfig os kernel conf w
  .ok { w with dev := { w.dev with backwardCompatJob := job } }

def strelaExecute (w : World) : Exec (JobState × World) := do
  let job := w.dev.backwardCompatJob
  let (_, w) ← strelaJobSubmit os job w
  let (_, w) ← strelaJobWait os job 2000 w
  let (state, w) ← strelaJobPoll os job w
  if state ≠ .pending then .ok (state, w) else w.abort

end Strela.Lib
