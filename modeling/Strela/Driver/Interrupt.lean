import Strela.Driver.Lifecycle

/-! # Completion interrupts

On real hardware a completion is a pending bit of the control register, which
stays set until the driver clears it. The hard handler clears one bit and
latches the status, the thread later hands the latched status to
`strela_job_phase_done`. Every bit is modelled with the jobs whose command
raised it, so that a completion can be compared with the job it is credited to.
-/

namespace Strela.Driver

open Foundation

/-- The two pending bits, each as the jobs that raised it; a bit is set if there is one. -/
structure Status where
  config : List JobId
  exec : List JobId
  deriving DecidableEq, Repr

def Status.clear : Status := ⟨[], []⟩

inductive Thread
  | asleep
  | woken
  | serving (status : Status)
  deriving DecidableEq, Repr

/-- A completion that `strela_job_phase_done` acted on: its phase, the job that was active, and the
jobs that raised the interrupt. -/
structure Credit where
  phase : Phase
  job : JobId
  raisers : List JobId
  deriving DecidableEq, Repr

structure Machine where
  dev : Device
  running : Option (JobId × Phase)
  ctrl : Status
  irqStatus : Status
  thread : Thread
  credits : List Credit

namespace Machine

def probed : Machine := ⟨.probed, none, .clear, .clear, .asleep, []⟩

/-- The phase the device runs after a step of the driver: `LOAD_CONFIG` starts one, and
`strela_hw_stop` ends it, leaving the pending bits alone. -/
def runningAfter (running : Option (JobId × Phase)) : Event → Option (JobId × Phase)
  | .runJob j => some (j, .config)
  | .hwStop | .finiHwStop => none
  | _ => running

/-- The device ends the phase it runs and raises the interrupt for it. -/
def complete (m : Machine) (j : JobId) : Phase → Machine
  | .config => { m with running := none, ctrl := { m.ctrl with config := j :: m.ctrl.config } }
  | .exec => { m with running := none, ctrl := { m.ctrl with exec := j :: m.ctrl.exec } }

def strelaIrqHandler (m : Machine) : Machine :=
  let status := m.ctrl
  if status.config ≠ [] then
    { m with ctrl := { status with config := [] }, irqStatus := status, thread := .woken }
  else if status.exec ≠ [] then
    { m with ctrl := { status with exec := [] }, irqStatus := status, thread := .woken }
  else m

def irqThreadRead (m : Machine) : Machine :=
  { m with thread := .serving m.irqStatus, irqStatus := .clear }

/-- `strela_job_phase_done`, with `START_EXEC` for the job that it moves on. -/
def phaseDone (m : Machine) (p : Phase) (raisers : List JobId) : Machine :=
  match m.dev.active with
  | none => m
  | some j =>
    if (m.dev.jobs j).phase ≠ p then m
    else
      { m with
        dev := m.dev.strelaJobPhaseDone p
        running := if p = .config then some (j, .exec) else m.running
        credits := ⟨p, j, raisers⟩ :: m.credits }

/-- The rest of `strela_irq_thread_fn`, for the status it took. -/
def irqThreadServe (m : Machine) (status : Status) : Machine :=
  let m := { m with thread := .asleep }
  if status.config ≠ [] then m.phaseDone .config status.config
  else if status.exec ≠ [] then m.phaseDone .exec status.exec
  else m

end Machine

inductive MachineEvent
  | driver (e : Event)
  | complete
  | irqHandler
  | irqThreadRead
  | irqThreadServe
  deriving DecidableEq, Repr

/-- Completions reach the driver through the interrupt only, and there is no second hard handler
before the thread has returned. -/
inductive MachineStep : Machine → MachineEvent → Machine → Prop
  | driver {m : Machine} {e : Event} {d : Device} : (∀ p, e ≠ .phaseDone p) →
      DeviceStep m.dev e d →
      MachineStep m (.driver e) { m with dev := d, running := Machine.runningAfter m.running e }
  | complete {m : Machine} {j : JobId} {p : Phase} : m.running = some (j, p) →
      MachineStep m .complete (m.complete j p)
  | irqHandler {m : Machine} : m.thread = .asleep → MachineStep m .irqHandler m.strelaIrqHandler
  | irqThreadRead {m : Machine} : m.thread = .woken → MachineStep m .irqThreadRead m.irqThreadRead
  | irqThreadServe {m : Machine} {status : Status} : m.thread = .serving status →
      MachineStep m .irqThreadServe (m.irqThreadServe status)

def machineLts : Lts Machine MachineEvent where
  start m := m = .probed
  step := MachineStep

/-- Every completion the driver acted on was raised by a command written for the job it went to. -/
def Machine.Credited (m : Machine) : Prop := ∀ c ∈ m.credits, c.job ∈ c.raisers

variable {m m' : Machine} {e : MachineEvent} {j last : JobId} {p : Phase} {d d' : Device}

/-! ## The device seen alone -/

theorem phaseDone_dev (m : Machine) (p : Phase) (raisers : List JobId) :
    (m.phaseDone p raisers).dev = m.dev.strelaJobPhaseDone p := by
  unfold Machine.phaseDone Device.strelaJobPhaseDone
  cases m.dev.active with
  | none => rfl
  | some j =>
    dsimp only
    split <;> rfl

/-- Forgetting the hardware leaves a run of the driver. -/
theorem device_of_reach (hr : machineLts.Reach m) : deviceLts.Reach m.dev := by
  induction hr with
  | start h => exact .start (h ▸ rfl)
  | step _ hst ih =>
    cases hst with
    | driver _ hd => exact ih.step hd
    | @complete j p h => cases p <;> exact ih
    | irqHandler =>
      unfold Machine.strelaIrqHandler
      dsimp only
      split
      · exact ih
      split
      · exact ih
      · exact ih
    | irqThreadRead => exact ih
    | @irqThreadServe status h =>
      unfold Machine.irqThreadServe
      dsimp only
      split
      · rw [phaseDone_dev]
        exact ih.step .phaseDone
      split
      · rw [phaseDone_dev]
        exact ih.step .phaseDone
      · exact ih

/-! ## A completion of an earlier job -/

/-- The first job's configuration completes as its timeout fires; its interrupt is served after the
second job has started. -/
def lateInterrupt : Machine :=
  let m := { Machine.probed with
    dev := Device.probed.strelaRunJob 0, running := some (0, .config) }
  let m := m.complete 0 .config
  let m := { m with dev := { m.dev with handlers := [.called] } }
  let m := { m with dev := { m.dev.schedStop with handlers := [.stopped] } }
  let m := { m with dev := { m.dev.clearActive with handlers := [.cleared] } }
  let m := { m with dev := { m.dev.strelaHwStop with handlers := [.halted] }, running := none }
  let m := { m with dev := { m.dev.schedStart with handlers := [] } }
  let m := { m with dev := m.dev.strelaRunJob 1, running := some (1, .config) }
  m.strelaIrqHandler.irqThreadRead.irqThreadServe ⟨[0], []⟩

theorem reach_lateInterrupt : machineLts.Reach lateInterrupt := by
  have h₁ : machineLts.Reach { Machine.probed with
      dev := Device.probed.strelaRunJob 0, running := some (0, .config) } := by
    refine .step (.start rfl) (.driver (e := .runJob 0) (by simp)
      (.runJob rfl (fun i hi => ?_) (fun h hm => ?_) id))
    · cases hi
    · cases hm
  have h₂ := h₁.step (.complete rfl)
  have h₃ := h₂.step (.driver (by simp) (.timedoutJob (j := 0) rfl))
  have h₄ := h₃.step (.driver (by simp) (@DeviceStep.stop _ [] [] rfl))
  have h₅ := h₄.step (.driver (by simp) (@DeviceStep.clear _ [] [] rfl))
  have h₆ := h₅.step (.driver (by simp) (@DeviceStep.hwStop _ [] [] rfl))
  have h₇ := h₆.step (.driver (by simp) (@DeviceStep.start _ [] [] rfl))
  have h₈ := h₇.step (.driver (by simp) (.runJob (j := 1) rfl (fun i hi => ?_) (fun h hm => ?_) id))
  · have h₉ := (h₈.step (.irqHandler rfl)).step (.irqThreadRead rfl)
    exact h₉.step (@MachineStep.irqThreadServe _ ⟨[0], []⟩ rfl)
  · rcases eq_or_ne i 0 with rfl | hne
    · exact fun h => nomatch h
    · simp [Device.update, Device.schedStart, Device.strelaHwStop, Device.clearActive,
        Device.schedStop, Machine.complete, Device.strelaRunJob, Device.probed, JobRecord.queued,
        hne] at hi
  · cases hm

/-- The second job is moved on to execution by the interrupt of the first. -/
theorem not_credited_lateInterrupt : ¬ ∀ m, machineLts.Reach m → m.Credited := by
  intro h
  have hc := h _ reach_lateInterrupt
  have hm : (⟨.config, 1, [0]⟩ : Credit) ∈ lateInterrupt.credits := by decide
  exact absurd (hc _ hm) (by decide)

/-! ## When completions are credited rightly -/

/-- The status that is on its way to `strela_job_phase_done`. -/
def Machine.held (m : Machine) : Status :=
  match m.thread with
  | .asleep => .clear
  | .woken => m.irqStatus
  | .serving status => status

/-- A job is started only when no pending bit is left and no configuration interrupt is latched. -/
def NoneLeft (m : Machine) (e : MachineEvent) : Prop :=
  ∀ j, e = .driver (.runJob j) → m.ctrl = .clear ∧ m.held.config = []

/-- Everything that can still be credited comes from the last job started. -/
structure Current (m : Machine) (last : JobId) : Prop where
  active : ∀ j, m.dev.active = some j → j = last
  running : ∀ j p, m.running = some (j, p) → j = last
  ctrlConfig : ∀ j ∈ m.ctrl.config, j = last
  ctrlExec : ∀ j ∈ m.ctrl.exec, j = last
  heldConfig : ∀ j ∈ m.held.config, j = last
  heldExec : m.held.config = [] → (∀ j ∈ m.held.exec, j = last) ∨
    ∀ j, m.dev.active = some j → (m.dev.jobs j).phase = .config
  credited : m.Credited

theorem DeviceStep.active_eq {e : Event} (hst : DeviceStep d e d') (hp : ∀ p, e ≠ .phaseDone p)
    (hr : ∀ j, e ≠ .runJob j) (ha : d'.active = some j) :
    d.active = some j ∧ (d'.jobs j).phase = (d.jobs j).phase := by
  have update (i : JobId) (f : JobRecord → JobRecord) (hf : ∀ r, (f r).phase = r.phase) :
      ((d.update i f).jobs j).phase = (d.jobs j).phase := by
    rcases eq_or_ne j i with rfl | hne
    · simp [Device.update, hf]
    · simp [Device.update, hne]
  cases hst with
  | runJob => exact absurd rfl (hr _)
  | phaseDone => exact absurd rfl (hp _)
  | finish => exact ⟨ha, update _ (fun r => { r with finished := some .done }) fun _ => rfl⟩
  | freeJob | finiFree => exact ⟨ha, update _ (fun r => { r with freed := true }) fun _ => rfl⟩
  | timedoutJob | finiWait | finiSched | finiHwStop | hwStop | finiTake | finiReturn =>
    exact ⟨ha, rfl⟩
  | stop =>
    refine ⟨ha, ?_⟩
    simp only [Device.schedStop, JobRecord.detach]
    split <;> rfl
  | start =>
    refine ⟨ha, ?_⟩
    simp only [Device.schedStart, JobRecord.cancel]
    split <;> rfl
  | clear | finiClear => cases ha
  | @finiSignal j signaled h =>
    cases signaled with
    | true => exact ⟨ha, rfl⟩
    | false => exact ⟨ha, update _ (fun r => { r with signals := r.signals + 1 }) fun _ => rfl⟩

namespace Current

theorem driver (hc : Current m last) {e : Event} (hp : ∀ p, e ≠ .phaseDone p)
    (hr : ∀ j, e ≠ .runJob j) (hst : DeviceStep m.dev e d) :
    Current { m with dev := d, running := Machine.runningAfter m.running e } last where
  active j hj := hc.active j (hst.active_eq hp hr hj).1
  running j p hj := by
    refine hc.running j p ?_
    cases e with
    | runJob i => exact absurd rfl (hr i)
    | hwStop | finiHwStop => cases hj
    | _ => exact hj
  ctrlConfig := hc.ctrlConfig
  ctrlExec := hc.ctrlExec
  heldConfig := hc.heldConfig
  heldExec hn := by
    apply (hc.heldExec hn).imp_right
    intro h j hj
    obtain ⟨ha, hph⟩ := hst.active_eq hp hr hj
    exact hph.trans (h j ha)
  credited := hc.credited

theorem runJob (hc : Current m last) (hctrl : m.ctrl = .clear) (hheld : m.held.config = [])
    (hst : DeviceStep m.dev (.runJob j) d) :
    Current { m with dev := d, running := some (j, .config) } j := by
  cases hst
  refine ⟨fun i hi => (Option.some.inj hi).symm, fun i p hi => ?_, ?_, ?_, ?_, fun _ => .inr ?_,
    hc.credited⟩
  · exact (congrArg Prod.fst (Option.some.inj hi)).symm
  · simp [hctrl, Status.clear]
  · simp [hctrl, Status.clear]
  · intro i hi
    have hi' : i ∈ m.held.config := hi
    rw [hheld] at hi'
    cases hi'
  · intro i hi
    obtain rfl := Option.some.inj hi
    simp [Device.strelaRunJob, Device.update]

theorem complete (hc : Current m last) (hr : m.running = some (j, p)) :
    Current (m.complete j p) last := by
  have hj := hc.running j p hr
  have cons {js : List JobId} (h : ∀ i ∈ js, i = last) : ∀ i ∈ j :: js, i = last := by
    intro i hi
    rcases List.mem_cons.mp hi with rfl | hi
    · exact hj
    · exact h i hi
  cases p with
  | config =>
    exact { hc with
      running := fun _ _ h => by cases h
      ctrlConfig := cons hc.ctrlConfig }
  | exec =>
    exact { hc with
      running := fun _ _ h => by cases h
      ctrlExec := cons hc.ctrlExec }

theorem strelaIrqHandler (hc : Current m last) : Current m.strelaIrqHandler last := by
  unfold Machine.strelaIrqHandler
  dsimp only
  split
  · exact { hc with
      ctrlConfig := fun i hi => by cases hi
      heldConfig := hc.ctrlConfig
      heldExec := fun _ => .inl hc.ctrlExec }
  split
  · exact { hc with
      ctrlExec := fun i hi => by cases hi
      heldConfig := hc.ctrlConfig
      heldExec := fun _ => .inl hc.ctrlExec }
  · exact hc

theorem irqThreadRead (hc : Current m last) (ht : m.thread = .woken) :
    Current m.irqThreadRead last := by
  have hheld : m.irqThreadRead.held = m.held := by
    simp [Machine.irqThreadRead, Machine.held, ht]
  exact { hc with
    heldConfig := by
      rw [hheld]
      exact hc.heldConfig
    heldExec := by
      rw [hheld]
      exact hc.heldExec }

/-- A completion raised by the current job alone, or dropped for its phase, is credited rightly. -/
theorem phaseDone (hc : Current m last) (ht : m.thread = .asleep) {raisers : List JobId}
    (hne : raisers ≠ []) (hr : (∀ i ∈ raisers, i = last) ∨
      ∀ i, m.dev.active = some i → (m.dev.jobs i).phase ≠ p) :
    Current (m.phaseDone p raisers) last := by
  unfold Machine.phaseDone
  cases ha : m.dev.active with
  | none => exact hc
  | some j =>
    have hj := hc.active j ha
    dsimp only
    split
    · exact hc
    · rename_i hp
      have hr : ∀ i ∈ raisers, i = last := hr.resolve_right fun h => hp (h j ha)
      have hmem : j ∈ raisers := by
        obtain ⟨i, hi⟩ := List.exists_mem_of_ne_nil _ hne
        rw [hj, ← hr i hi]
        exact hi
      have hact : ∀ i, (m.dev.strelaJobPhaseDone p).active = some i → i = last := by
        intro i hi
        unfold Device.strelaJobPhaseDone at hi
        rw [ha] at hi
        dsimp only at hi
        rw [if_neg hp] at hi
        cases p with
        | config => exact hc.active i hi
        | exec => cases hi
      exact {
        active := hact
        running := by
          intro i q hi
          dsimp only at hi
          split at hi
          · obtain rfl := congrArg Prod.fst (Option.some.inj hi)
            exact hj
          · exact hc.running i q hi
        ctrlConfig := hc.ctrlConfig
        ctrlExec := hc.ctrlExec
        heldConfig := hc.heldConfig
        heldExec := fun _ => .inl fun i hi => by
          have hi' : i ∈ m.held.exec := hi
          simp [Machine.held, ht, Status.clear] at hi'
        credited := by
          intro c hcr
          rcases List.mem_cons.mp hcr with rfl | hcr
          · exact hmem
          · exact hc.credited c hcr }

theorem irqThreadServe (hc : Current m last) {status : Status} (ht : m.thread = .serving status) :
    Current (m.irqThreadServe status) last := by
  have hheld : m.held = status := by simp [Machine.held, ht]
  have hasleep : Current { m with thread := .asleep } last :=
    { hc with
      heldConfig := fun i hi => by cases hi
      heldExec := fun _ => .inl fun i hi => by cases hi }
  unfold Machine.irqThreadServe
  dsimp only
  split
  · rename_i hn
    exact hasleep.phaseDone rfl hn (.inl fun i hi => hc.heldConfig i (hheld ▸ hi))
  split
  · rename_i hz hn
    rw [ne_eq, not_not] at hz
    refine hasleep.phaseDone rfl hn ?_
    rcases hc.heldExec (hheld ▸ hz) with h | h
    · exact .inl fun i hi => h i (hheld ▸ hi)
    · -- The current job is still being configured, so the stale completion is dropped.
      refine .inr fun i hi he => ?_
      rw [h i hi] at he
      cases he
  · exact hasleep

theorem step (hc : Current m last) (hn : NoneLeft m e) (hst : MachineStep m e m') :
    ∃ last, Current m' last := by
  cases hst with
  | @driver e d hp hd =>
    by_cases hr : ∃ j, e = .runJob j
    · obtain ⟨j, rfl⟩ := hr
      obtain ⟨hctrl, hheld⟩ := hn j rfl
      exact ⟨j, hc.runJob hctrl hheld hd⟩
    · exact ⟨last, hc.driver hp (fun j he => hr ⟨j, he⟩) hd⟩
  | complete hr => exact ⟨last, hc.complete hr⟩
  | irqHandler => exact ⟨last, hc.strelaIrqHandler⟩
  | irqThreadRead ht => exact ⟨last, hc.irqThreadRead ht⟩
  | irqThreadServe ht => exact ⟨last, hc.irqThreadServe ht⟩

end Current

/-- In every run that starts jobs only with no earlier interrupt left to serve, completions are
credited to the jobs that raised them. -/
theorem credited_of_noneLeft (hr : (machineLts.restrict NoneLeft).Reach m) : m.Credited := by
  have hc : ∃ last, Current m last := by
    refine hr.invariant (P := fun m => ∃ last, Current m last) ?_ ?_
    · rintro m rfl
      refine ⟨0, ?_, ?_, ?_, ?_, ?_, ?_, ?_⟩
      all_goals simp [Machine.probed, Device.probed, Machine.held, Status.clear, Machine.Credited]
    · rintro m e m' - ⟨last, hc⟩ ⟨hn, hst⟩
      exact hc.step hn hst
  obtain ⟨last, hc⟩ := hc
  exact hc.credited

def Machine.served (m : Machine) (j : JobId) (p : Phase) : Machine :=
  (m.complete j p).strelaIrqHandler.irqThreadRead.irqThreadServe
    (match p with | .config => ⟨[j], []⟩ | .exec => ⟨[], [j]⟩)

theorem reach_served (hr : (machineLts.restrict NoneLeft).Reach m) (hrun : m.running = some (j, p))
    (hctrl : m.ctrl = .clear) (ht : m.thread = .asleep) :
    (machineLts.restrict NoneLeft).Reach (m.served j p) := by
  have other {m : Machine} {e : MachineEvent} (h : ∀ e', e ≠ .driver e') : NoneLeft m e :=
    fun _ he => absurd he (h _)
  have h₁ := hr.step ⟨other (by simp), .complete hrun⟩
  have h₂ := h₁.step ⟨other (by simp), .irqHandler (by cases p <;> exact ht)⟩
  have h₃ := h₂.step ⟨other (by simp), .irqThreadRead (by
    cases p <;> simp [Machine.complete, Machine.strelaIrqHandler, hctrl, Status.clear])⟩
  refine h₃.step ⟨other (by simp), .irqThreadServe ?_⟩
  cases p <;> simp [Machine.complete, Machine.strelaIrqHandler, Machine.irqThreadRead, hctrl,
    Status.clear]

/-- The first job times out while it executes; the second runs to its end. -/
def timedOut : Machine :=
  let m := { Machine.probed with
    dev := Device.probed.strelaRunJob 0, running := some (0, .config) }
  let m := m.served 0 .config
  let m := { m with dev := { m.dev with handlers := [.called] } }
  let m := { m with dev := { m.dev.schedStop with handlers := [.stopped] } }
  let m := { m with dev := { m.dev.clearActive with handlers := [.cleared] } }
  let m := { m with dev := { m.dev.strelaHwStop with handlers := [.halted] }, running := none }
  let m := { m with dev := { m.dev.schedStart with handlers := [] } }
  let m := { m with dev := m.dev.strelaRunJob 1, running := some (1, .config) }
  (m.served 1 .config).served 1 .exec

theorem credited_of_noneLeft_timedOut :
    timedOut.credits = [⟨.exec, 1, [1]⟩, ⟨.config, 1, [1]⟩, ⟨.config, 0, [0]⟩] ∧
      (timedOut.dev.jobs 0).finished = some .canceled ∧ timedOut.Credited := by
  have other {m : Machine} {e : Event} (h : ∀ j, e ≠ .runJob j) : NoneLeft m (.driver e) :=
    fun j he => absurd (MachineEvent.driver.inj he) (h j)
  have h₁ : (machineLts.restrict NoneLeft).Reach { Machine.probed with
      dev := Device.probed.strelaRunJob 0, running := some (0, .config) } := by
    refine .step (.start rfl) ⟨fun _ _ => ⟨rfl, rfl⟩, .driver (e := .runJob 0) (by simp)
      (.runJob rfl (fun i hi => ?_) (fun h hm => ?_) id)⟩
    · cases hi
    · cases hm
  have h₂ := reach_served h₁ rfl rfl rfl
  have h₃ := h₂.step ⟨other (by simp), .driver (by simp) (.timedoutJob (j := 0) rfl)⟩
  have h₄ := h₃.step ⟨other (by simp), .driver (by simp) (@DeviceStep.stop _ [] [] rfl)⟩
  have h₅ := h₄.step ⟨other (by simp), .driver (by simp) (@DeviceStep.clear _ [] [] rfl)⟩
  have h₆ := h₅.step ⟨other (by simp), .driver (by simp) (@DeviceStep.hwStop _ [] [] rfl)⟩
  have h₇ := h₆.step ⟨other (by simp), .driver (by simp) (@DeviceStep.start _ [] [] rfl)⟩
  have h₈ := h₇.step ⟨fun _ _ => ⟨rfl, rfl⟩,
    .driver (by simp) (.runJob (j := 1) rfl (fun i hi => ?_) (fun h hm => ?_) id)⟩
  · have h₉ := reach_served (reach_served h₈ rfl rfl rfl) rfl rfl rfl
    exact ⟨by decide, by decide, credited_of_noneLeft h₉⟩
  · rcases eq_or_ne i 0 with rfl | hne
    · exact fun h => nomatch h
    · simp [Machine.served, Machine.complete, Machine.strelaIrqHandler, Machine.irqThreadRead,
        Machine.irqThreadServe, Machine.phaseDone, Machine.probed, Status.clear, Device.update,
        Device.schedStart, Device.strelaHwStop, Device.clearActive, Device.schedStop,
        Device.strelaRunJob, Device.strelaJobPhaseDone, Device.probed, JobRecord.queued, hne] at hi
  · cases hm

end Strela.Driver
