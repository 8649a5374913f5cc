import Mathlib.Logic.Function.Basic
import Strela.Foundation.Transition

/-! # The life of a job

Four contexts edit `sdev->active` and the hardware fences: the scheduler's
worker, the completion interrupt, the timeout worker and removal. Each section
under `sdev->lock` is one step, and the steps of all four interleave. Of the
scheduler only what the driver relies on is fixed: it starts a job when every
earlier one is finished, and not while a timeout handler has it stopped or once
it is torn down. Timeouts come at any moment, for any job that was started.
-/

namespace Strela.Driver

open Foundation

abbrev JobId := ℕ

inductive Phase | config | exec
  deriving DecidableEq, Repr

inductive Outcome | done | canceled
  deriving DecidableEq, Repr

/-- A job as driver and scheduler see it. `attached` says that the scheduler waits on its hardware
fence, `signals` counts the calls that signalled it. -/
structure JobRecord where
  started : Bool
  attached : Bool
  phase : Phase
  signals : ℕ
  finished : Option Outcome
  freed : Bool
  deriving DecidableEq, Repr

/-- A job that was submitted and no more. -/
def JobRecord.queued : JobRecord := ⟨false, false, .config, 0, none, false⟩

namespace JobRecord

/-- `drm_sched_stop` detaches the jobs whose hardware fence has not signalled. -/
def detach (r : JobRecord) : JobRecord :=
  if r.started ∧ r.signals = 0 then { r with attached := false } else r

/-- `drm_sched_start` finishes the detached jobs with `-ECANCELED`. -/
def cancel (r : JobRecord) : JobRecord :=
  if r.started ∧ ¬ r.attached ∧ ¬ r.freed ∧ r.finished = none then
    { r with finished := some .canceled }
  else r

end JobRecord

/-- Where a timeout handler stands, named by what it has done. -/
inductive Handler | called | stopped | cleared | halted
  deriving DecidableEq, Repr

/-- Where `strela_job_fini` stands. -/
inductive Removal
  | live
  | waited
  | torn
  | cleared
  | retiring
  | checked (j : JobId) (signaled : Bool)
  | settled (j : JobId)
  | gone
  deriving DecidableEq, Repr

def Removal.Torn : Removal → Prop
  | .live | .waited => False
  | _ => True

/-- Removal has taken the active job off the device. -/
def Removal.Off : Removal → Prop
  | .live | .waited | .torn => False
  | _ => True

structure Device where
  jobs : JobId → JobRecord
  active : Option JobId
  pending : List JobId
  handlers : List Handler
  removal : Removal
  warned : Bool

namespace Device

def update (d : Device) (j : JobId) (f : JobRecord → JobRecord) : Device :=
  { d with jobs := Function.update d.jobs j (f (d.jobs j)) }

def strelaRunJob (d : Device) (j : JobId) : Device :=
  let d := { d with warned := d.warned || d.active.isSome }
  let d := d.update j fun r => { r with started := true, attached := true, phase := .config }
  { d with active := some j, pending := d.pending ++ [j] }

def strelaJobPhaseDone (d : Device) (finishedPhase : Phase) : Device :=
  match d.active with
  | none => d
  | some j =>
    if (d.jobs j).phase ≠ finishedPhase then d
    else
      match finishedPhase with
      | .config => d.update j fun r => { r with phase := .exec }
      | .exec =>
        { d.update j fun r => { r with signals := r.signals + 1 } with active := none }

/-- The locked half of `strela_job_abort`. -/
def clearActive (d : Device) : Device := { d with active := none }

/-- The check of `strela_hw_stop`, made outside the lock. -/
def strelaHwStop (d : Device) : Device := { d with warned := d.warned || d.active.isSome }

def schedStop (d : Device) : Device := { d with jobs := fun j => (d.jobs j).detach }

def schedStart (d : Device) : Device := { d with jobs := fun j => (d.jobs j).cancel }

end Device

inductive Event
  | runJob (j : JobId)
  | phaseDone (p : Phase)
  | finish (j : JobId)
  | freeJob (j : JobId)
  | timedoutJob (j : JobId)
  | stop
  | clear
  | hwStop
  | start
  | finiWait
  | finiSched
  | finiClear
  | finiHwStop
  | finiTake (j : JobId)
  | finiSignal (j : JobId)
  | finiFree (j : JobId)
  | finiReturn
  deriving DecidableEq, Repr

open Device in
/-- One step of one context. -/
inductive DeviceStep : Device → Event → Device → Prop
  | runJob {d : Device} {j : JobId} : (d.jobs j).started = false →
      (∀ i, (d.jobs i).started = true → (d.jobs i).finished ≠ none) →
      (∀ h ∈ d.handlers, h = .called) → ¬ d.removal.Torn →
      DeviceStep d (.runJob j) (d.strelaRunJob j)
  | phaseDone {d : Device} {p : Phase} : DeviceStep d (.phaseDone p) (d.strelaJobPhaseDone p)
  | finish {d : Device} {j : JobId} : (d.jobs j).started = true → (d.jobs j).attached = true →
      0 < (d.jobs j).signals → (d.jobs j).finished = none →
      DeviceStep d (.finish j) (d.update j fun r => { r with finished := some .done })
  | freeJob {d : Device} {j : JobId} : j ∈ d.pending → (d.jobs j).finished ≠ none →
      DeviceStep d (.freeJob j)
        { d.update j fun r => { r with freed := true } with pending := d.pending.erase j }
  | timedoutJob {d : Device} {j : JobId} : (d.jobs j).started = true →
      DeviceStep d (.timedoutJob j) { d with handlers := .called :: d.handlers }
  | stop {d : Device} {pre post : List Handler} : d.handlers = pre ++ .called :: post →
      DeviceStep d .stop { d.schedStop with handlers := pre ++ .stopped :: post }
  | clear {d : Device} {pre post : List Handler} : d.handlers = pre ++ .stopped :: post →
      DeviceStep d .clear { d.clearActive with handlers := pre ++ .cleared :: post }
  | hwStop {d : Device} {pre post : List Handler} : d.handlers = pre ++ .cleared :: post →
      DeviceStep d .hwStop { d.strelaHwStop with handlers := pre ++ .halted :: post }
  | start {d : Device} {pre post : List Handler} : d.handlers = pre ++ .halted :: post →
      DeviceStep d .start { d.schedStart with handlers := pre ++ post }
  -- `cancel_delayed_work_sync` waits for the handlers that run at that moment.
  | finiWait {d : Device} : d.removal = .live → d.handlers = [] →
      DeviceStep d .finiWait { d with removal := .waited }
  | finiSched {d : Device} : d.removal = .waited →
      DeviceStep d .finiSched { d with removal := .torn }
  | finiClear {d : Device} : d.removal = .torn →
      DeviceStep d .finiClear { d.clearActive with removal := .cleared }
  | finiHwStop {d : Device} : d.removal = .cleared →
      DeviceStep d .finiHwStop { d.strelaHwStop with removal := .retiring }
  | finiTake {d : Device} {j : JobId} {rest : List JobId} : d.removal = .retiring →
      d.pending = j :: rest →
      DeviceStep d (.finiTake j)
        { d with pending := rest, removal := .checked j (decide (0 < (d.jobs j).signals)) }
  | finiSignal {d : Device} {j : JobId} {signaled : Bool} : d.removal = .checked j signaled →
      DeviceStep d (.finiSignal j)
        { (if signaled then d else d.update j fun r => { r with signals := r.signals + 1 }) with
          removal := .settled j }
  | finiFree {d : Device} {j : JobId} : d.removal = .settled j →
      DeviceStep d (.finiFree j)
        { d.update j fun r => { r with freed := true } with removal := .retiring }
  | finiReturn {d : Device} : d.removal = .retiring → d.pending = [] →
      DeviceStep d .finiReturn { d with removal := .gone }

def Device.probed : Device := ⟨fun _ => .queued, none, [], [], .live, false⟩

def deviceLts : Lts Device Event where
  start d := d = .probed
  step := DeviceStep

/-! ## The invariant -/

/-- The scheduler has been given the job and has not finished it. -/
def JobRecord.Open (r : JobRecord) : Prop := r.started = true ∧ r.finished = none

structure JobRecord.OnDevice (r : JobRecord) : Prop where
  unfinished : r.Open
  unfreed : r.freed = false
  unsignalled : r.signals = 0

/-- Nothing happens to a job before it is started, and its fence signals once at most. -/
structure JobRecord.Sound (r : JobRecord) : Prop where
  fresh : r.started = false → r.finished = none ∧ r.freed = false ∧ r.signals = 0
  signals : r.signals ≤ 1

/-- The handler has taken the active job off the device and not yet restarted the scheduler. -/
def Handler.Off (h : Handler) : Prop := h = .cleared ∨ h = .halted

/-- What ties the active job, the fences, the handlers and removal together. -/
structure Settled (d : Device) : Prop where
  sound : ∀ j, (d.jobs j).Sound
  active : ∀ j, d.active = some j → (d.jobs j).OnDevice
  single : ∀ i j, (d.jobs i).Open → (d.jobs j).Open → i = j
  handlers : ∀ h ∈ d.handlers, h.Off → d.active = none
  removal : d.removal.Off → d.active = none
  checked : ∀ j, d.removal = .checked j false → (d.jobs j).signals = 0
  retired : ∀ j, d.removal = .settled j ∨ (∃ b, d.removal = .checked j b) ∨ j ∈ d.pending →
    (d.jobs j).started = true
  warned : d.warned = false

namespace JobRecord

variable {r : JobRecord}

@[simp] theorem detach_started : r.detach.started = r.started := by unfold detach; split <;> rfl
@[simp] theorem detach_finished : r.detach.finished = r.finished := by unfold detach; split <;> rfl
@[simp] theorem detach_freed : r.detach.freed = r.freed := by unfold detach; split <;> rfl
@[simp] theorem detach_signals : r.detach.signals = r.signals := by unfold detach; split <;> rfl

@[simp] theorem cancel_started : r.cancel.started = r.started := by unfold cancel; split <;> rfl
@[simp] theorem cancel_signals : r.cancel.signals = r.signals := by unfold cancel; split <;> rfl

theorem cancel_of_not_started (h : r.started = false) : r.cancel = r := by
  simp [cancel, h]

theorem open_of_cancel (h : r.cancel.Open) : r.Open := by
  unfold cancel at h
  split at h
  · cases h.2
  · exact h

theorem Sound.detach (h : r.Sound) : r.detach.Sound :=
  ⟨by simpa using h.fresh, by simpa using h.signals⟩

theorem OnDevice.detach (h : r.OnDevice) : r.detach.OnDevice :=
  ⟨by simpa [Open] using h.unfinished, by simpa using h.unfreed, by simpa using h.unsignalled⟩

theorem Sound.cancel (h : r.Sound) : r.cancel.Sound := by
  refine ⟨fun hn => ?_, by simpa using h.signals⟩
  rw [cancel_started] at hn
  rw [cancel_of_not_started hn]
  exact h.fresh hn

end JobRecord

variable {d d' : Device} {i j : JobId} {e : Event} {p : Phase} {f : JobRecord → JobRecord}
  {jobs : JobId → JobRecord} {pre post : List Handler}

namespace Settled

open Device

/-- Records may change as long as no job reopens and the active one stays fit for the device. -/
theorem withJobs (hs : Settled d) (hsound : ∀ j, (jobs j).Sound)
    (hopen : ∀ j, (jobs j).Open → (d.jobs j).Open)
    (hstarted : ∀ j, (d.jobs j).started = true → (jobs j).started = true)
    (hactive : ∀ j, d.active = some j → (jobs j).OnDevice)
    (hchecked : ∀ j, d.removal = .checked j false → (jobs j).signals = 0) :
    Settled { d with jobs := jobs } where
  sound := hsound
  active := hactive
  single i j hi hj := hs.single i j (hopen i hi) (hopen j hj)
  handlers := hs.handlers
  removal := hs.removal
  checked := hchecked
  retired j hj := hstarted j (hs.retired j hj)
  warned := hs.warned

theorem update (hs : Settled d) (hsound : (f (d.jobs j)).Sound)
    (hopen : (f (d.jobs j)).Open → (d.jobs j).Open)
    (hstarted : (d.jobs j).started = true → (f (d.jobs j)).started = true)
    (hactive : d.active = some j → (f (d.jobs j)).OnDevice)
    (hchecked : d.removal = .checked j false → (f (d.jobs j)).signals = 0) :
    Settled (d.update j f) := by
  have pointwise {P : JobId → JobRecord → Prop} (h : P j (f (d.jobs j))) (hP : ∀ i, P i (d.jobs i))
      (i : JobId) : P i ((d.update j f).jobs i) := by
    by_cases hij : i = j
    · subst hij
      simpa [Device.update] using h
    · simpa [Device.update, hij] using hP i
  exact hs.withJobs (pointwise hsound hs.sound)
    (pointwise (P := fun i r => r.Open → (d.jobs i).Open) hopen fun _ h => h)
    (pointwise (P := fun i r => (d.jobs i).started = true → r.started = true) hstarted fun _ h => h)
    (pointwise (P := fun i r => d.active = some i → r.OnDevice) hactive hs.active)
    (pointwise (P := fun i r => d.removal = .checked i false → r.signals = 0) hchecked hs.checked)

theorem withHandler (hs : Settled d) {h h' : Handler} (he : d.handlers = pre ++ h :: post)
    (hoff : h'.Off → d.active = none) : Settled { d with handlers := pre ++ h' :: post } :=
  { hs with
    handlers := by
      intro k hk hk'
      rcases List.mem_append.mp hk with hk | hk
      · exact hs.handlers k (he ▸ List.mem_append_left _ hk) hk'
      rcases List.mem_cons.mp hk with rfl | hk
      · exact hoff hk'
      · exact hs.handlers k (he ▸ List.mem_append_right _ (List.mem_cons_of_mem _ hk)) hk' }

theorem withPending (hs : Settled d) {pending : List JobId} (h : ∀ j ∈ pending, j ∈ d.pending) :
    Settled { d with pending } :=
  { hs with
    retired := by
      intro j hj
      apply hs.retired j
      rcases hj with hj | hj | hj
      · exact .inl hj
      · exact .inr (.inl hj)
      · exact .inr (.inr (h j hj)) }

theorem withRemoval (hs : Settled d) {removal : Removal} (hoff : removal.Off → d.active = none)
    (hchecked : ∀ j, removal = .checked j false → (d.jobs j).signals = 0)
    (hretired : ∀ j, removal = .settled j ∨ (∃ b, removal = .checked j b) →
      (d.jobs j).started = true) : Settled { d with removal } :=
  { hs with
    removal := hoff
    checked := hchecked
    retired := by
      intro j hj
      rcases hj with hj | hj | hj
      · exact hretired j (.inl hj)
      · exact hretired j (.inr hj)
      · exact hs.retired j (.inr (.inr hj)) }

theorem clearActive (hs : Settled d) : Settled d.clearActive :=
  { hs with
    active := by
      intro j hj
      cases hj
    handlers := fun _ _ _ => rfl
    removal := fun _ => rfl }

theorem strelaHwStop (hs : Settled d) (ha : d.active = none) : Settled d.strelaHwStop :=
  { hs with warned := by simp [Device.strelaHwStop, ha, hs.warned] }

theorem schedStop (hs : Settled d) : Settled d.schedStop :=
  hs.withJobs (fun j => (hs.sound j).detach) (fun j => by simp [JobRecord.Open]) (fun j => by simp)
    (fun j hj => (hs.active j hj).detach) (fun j hj => by simpa using hs.checked j hj)

theorem schedStart (hs : Settled d) (ha : d.active = none) : Settled d.schedStart :=
  hs.withJobs (fun j => (hs.sound j).cancel) (fun j => JobRecord.open_of_cancel)
    (fun j => by simp) (fun j hj => by simp [ha] at hj) (fun j hj => by simpa using hs.checked j hj)

/-- A completion moves the active job on, or signals its fence and takes it off the device. -/
theorem strelaJobPhaseDone (hs : Settled d) (p : Phase) : Settled (d.strelaJobPhaseDone p) := by
  unfold Device.strelaJobPhaseDone
  cases ha : d.active with
  | none => exact hs
  | some j =>
    obtain ⟨⟨hst, hfin⟩, hfree, hsig⟩ := hs.active j ha
    have hnot : ∀ i, d.removal ≠ .checked i false := fun i hi => by
      have := hs.removal (by rw [hi]; trivial)
      rw [this] at ha
      cases ha
    dsimp only
    split
    · exact hs
    · cases p with
      | config =>
        exact hs.update ⟨(hs.sound j).fresh, (hs.sound j).signals⟩ id id
          (fun _ => ⟨⟨hst, hfin⟩, hfree, hsig⟩) (fun h => absurd h (hnot j))
      | exec =>
        refine hs.clearActive.update (j := j) (f := fun r => { r with signals := r.signals + 1 })
          ⟨fun hn => ?_, ?_⟩ id id (fun h => ?_) fun h => absurd h (hnot j)
        · simp [Device.clearActive, hst] at hn
        · simp [Device.clearActive, hsig]
        · cases h

theorem strelaRunJob (hs : Settled d) (hj : (d.jobs j).started = false)
    (hall : ∀ i, (d.jobs i).started = true → (d.jobs i).finished ≠ none)
    (hh : ∀ h ∈ d.handlers, h = .called) (hr : ¬ d.removal.Torn) : Settled (d.strelaRunJob j) := by
  have hnone : d.active = none := by
    cases ha : d.active with
    | none => rfl
    | some i =>
      obtain ⟨hst, hfin⟩ := (hs.active i ha).unfinished
      exact absurd hfin (hall i hst)
  obtain ⟨hfin, hfree, hsig⟩ := (hs.sound j).fresh hj
  have hself : (d.strelaRunJob j).jobs j = ⟨true, true, .config, 0, none, false⟩ := by
    simp [Device.strelaRunJob, Device.update, hfin, hfree, hsig]
  have hother {i : JobId} (hi : i ≠ j) : (d.strelaRunJob j).jobs i = d.jobs i := by
    simp [Device.strelaRunJob, Device.update, hi]
  -- Every other job is finished, so the new one is the only one open.
  have honly {i : JobId} (hi : ((d.strelaRunJob j).jobs i).Open) : i = j := by
    by_contra hne
    rw [hother hne] at hi
    exact hall i hi.1 hi.2
  have hoff : ¬ d.removal.Off := fun h => hr (by
    revert h
    cases d.removal <;> simp [Removal.Off, Removal.Torn])
  refine ⟨fun i => ?_, fun i hi => ?_, fun i k hi hk => (honly hi).trans (honly hk).symm,
    fun h hm hc => ?_, fun h => absurd h hoff, fun i hi => ?_, fun i hi => ?_, ?_⟩
  · by_cases hij : i = j
    · subst hij
      rw [hself]
      exact ⟨fun h => absurd h (by decide), Nat.zero_le 1⟩
    · rw [hother hij]
      exact hs.sound i
  · obtain rfl := Option.some.inj hi
    rw [hself]
    exact ⟨⟨rfl, rfl⟩, rfl, rfl⟩
  · obtain rfl := hh h hm
    rcases hc with hc | hc <;> cases hc
  · have hd : d.removal.Off := by
      rw [show d.removal = .checked i false from hi]
      trivial
    exact absurd hd hoff
  · by_cases hij : i = j
    · subst hij
      rw [hself]
    · rw [hother hij]
      apply hs.retired i
      rcases hi with hi | hi | hi
      · exact .inl hi
      · exact .inr (.inl hi)
      · refine .inr (.inr ?_)
        rcases List.mem_append.mp hi with hi | hi
        · exact hi
        · exact absurd (List.mem_singleton.mp hi) hij
  · simp [Device.strelaRunJob, Device.update, hnone, hs.warned]

theorem settle {signaled : Bool} (hs : Settled d) (hr : d.removal = .checked j signaled) :
    Settled { d with removal := .settled j } := by
  apply hs.withRemoval (fun _ => hs.removal (by rw [hr]; trivial)) (fun _ h => by cases h)
  intro i hi
  rcases hi with hi | ⟨b, hi⟩
  · exact (Removal.settled.inj hi) ▸ hs.retired j (.inr (.inl ⟨_, hr⟩))
  · cases hi

theorem step (hs : Settled d) (hst : DeviceStep d e d') : Settled d' := by
  cases hst with
  | runJob hj hall hh hr => exact hs.strelaRunJob hj hall hh hr
  | phaseDone => exact hs.strelaJobPhaseDone _
  | @finish j hst _ hsig _ =>
    refine hs.update ⟨fun h => by simp [hst] at h, (hs.sound j).signals⟩ (fun h => by cases h.2) id
      (fun ha => ?_) (hs.checked j)
    -- A signalled job is off the device.
    have := (hs.active j ha).unsignalled
    omega
  | @freeJob j hp hfin =>
    have hst := hs.retired j (.inr (.inr hp))
    refine (hs.update (f := fun r => { r with freed := true })
      ⟨fun h => by simp [hst] at h, (hs.sound j).signals⟩ id id (fun ha => ?_)
      (hs.checked j)).withPending fun i hi => List.mem_of_mem_erase hi
    exact absurd (hs.active j ha).unfinished.2 hfin
  | timedoutJob =>
    exact { hs with
      handlers := by
        intro h hm hc
        rcases List.mem_cons.mp hm with rfl | hm
        · rcases hc with hc | hc <;> cases hc
        · exact hs.handlers h hm hc }
  | stop he =>
    exact hs.schedStop.withHandler he fun h => by rcases h with h | h <;> cases h
  | clear he => exact hs.clearActive.withHandler he fun _ => rfl
  | hwStop he =>
    have ha := hs.handlers .cleared (he ▸ List.mem_append_right _ List.mem_cons_self) (.inl rfl)
    exact (hs.strelaHwStop ha).withHandler he fun _ => ha
  | @start pre post he =>
    have ha := hs.handlers .halted (he ▸ List.mem_append_right _ List.mem_cons_self) (.inr rfl)
    exact { hs.schedStart ha with handlers := fun _ _ _ => ha }
  | finiWait hr _ => exact hs.withRemoval (fun h => h.elim) (fun _ h => by cases h) (by simp)
  | finiSched hr => exact hs.withRemoval (fun h => h.elim) (fun _ h => by cases h) (by simp)
  | finiClear hr =>
    exact hs.clearActive.withRemoval (fun _ => rfl) (fun _ h => by cases h) (by simp)
  | finiHwStop hr =>
    have ha := hs.removal (by rw [hr]; trivial)
    exact (hs.strelaHwStop ha).withRemoval (fun _ => ha) (fun _ h => by cases h) (by simp)
  | @finiTake j rest hr hp =>
    have ha := hs.removal (by rw [hr]; trivial)
    have hj : j ∈ d.pending := hp ▸ List.mem_cons_self
    have hrest : ∀ i ∈ rest, i ∈ d.pending := fun i hi => hp ▸ List.mem_cons_of_mem _ hi
    refine (hs.withPending hrest).withRemoval (fun _ => ha) (fun i hi => ?_) (fun i hi => ?_)
    · simp only [Removal.checked.injEq, decide_eq_false_iff_not] at hi
      obtain ⟨rfl, hz⟩ := hi
      simpa using hz
    · rcases hi with hi | ⟨b, hi⟩
      · cases hi
      · obtain rfl := (Removal.checked.inj hi).1
        exact hs.retired j (.inr (.inr hj))
  | @finiSignal j signaled hr =>
    have ha := hs.removal (by rw [hr]; trivial)
    have hst := hs.retired j (.inr (.inl ⟨_, hr⟩))
    cases signaled with
    | true => exact hs.settle hr
    | false =>
      have hz := hs.checked j hr
      refine (hs.settle hr).update (j := j) (f := fun r => { r with signals := r.signals + 1 })
        ⟨fun h => by simp [hst] at h, by simp [hz]⟩ id id (fun h => ?_) (fun h => by cases h)
      rw [show d.active = some j from h] at ha
      cases ha
  | @finiFree j hr =>
    have ha := hs.removal (by rw [hr]; trivial)
    have hst := hs.retired j (.inl hr)
    have hs₁ : Settled { d with removal := .retiring } :=
      hs.withRemoval (fun _ => ha) (fun _ h => by cases h) (by simp)
    refine hs₁.update (j := j) (f := fun r => { r with freed := true })
      ⟨fun h => by simp [hst] at h, (hs.sound j).signals⟩ id id (fun h => ?_) (fun h => by cases h)
    rw [show d.active = some j from h] at ha
    cases ha
  | finiReturn hr hp =>
    have ha := hs.removal (by rw [hr]; trivial)
    exact hs.withRemoval (fun _ => ha) (fun _ h => by cases h) (by simp)

end Settled

theorem settled_of_reach (hr : deviceLts.Reach d) : Settled d := by
  refine hr.invariant (P := Settled) ?_ fun d e d' _ hs hst => hs.step hst
  rintro d rfl
  refine ⟨fun j => ⟨fun _ => ⟨rfl, rfl, rfl⟩, Nat.zero_le _⟩, fun j h => ?_, fun i j h => ?_,
    fun h hm => ?_, fun h => h.elim, fun j h => ?_, fun j h => ?_, rfl⟩
  · cases h
  · cases h.1
  · cases hm
  · cases h
  · simp [Device.probed] at h

/-- Between any two steps the active job is the one that was started and not finished, nor is it
freed; no job is finished or freed while active; each fence signals at most once; and no check for
a job left on the device has fired. -/
theorem reach_lifecycle (hr : deviceLts.Reach d) :
    (∀ j, d.active = some j → (d.jobs j).started = true ∧ (d.jobs j).finished = none ∧
      (d.jobs j).freed = false ∧
      ∀ i, (d.jobs i).started = true → (d.jobs i).finished = none → i = j) ∧
    (∀ j, (d.jobs j).finished ≠ none ∨ (d.jobs j).freed = true → d.active ≠ some j) ∧
    (∀ j, (d.jobs j).signals ≤ 1) ∧ d.warned = false := by
  have hs := settled_of_reach hr
  refine ⟨fun j hj => ?_, fun j hj ha => ?_, fun j => (hs.sound j).signals, hs.warned⟩
  · obtain ⟨⟨hst, hfin⟩, hfree, -⟩ := hs.active j hj
    exact ⟨hst, hfin, hfree, fun i hi hf => hs.single i j ⟨hi, hf⟩ ⟨hst, hfin⟩⟩
  · obtain ⟨⟨-, hfin⟩, hfree, -⟩ := hs.active j ha
    rcases hj with hj | hj
    · exact hj hfin
    · rw [hfree] at hj
      cases hj

/-- The first job completes after its timeout fired, the second has started by the time the handler
stops the scheduler, and is canceled. -/
def photoFinish : Device :=
  let d := Device.probed.strelaRunJob 0
  let d := { d with handlers := [.called] }
  let d := (d.strelaJobPhaseDone .config).strelaJobPhaseDone .exec
  let d := (d.update 0 fun r => { r with finished := some .done }).strelaRunJob 1
  let d := { d.schedStop with handlers := [.stopped] }
  let d := { d.clearActive with handlers := [.cleared] }
  let d := { d.strelaHwStop with handlers := [.halted] }
  { d.schedStart with handlers := [] }

theorem reach_photoFinish : deviceLts.Reach photoFinish := by
  have h₁ : deviceLts.Reach (Device.probed.strelaRunJob 0) := by
    refine .step (.start rfl) (.runJob rfl (fun i hi => ?_) (fun h hm => ?_) id)
    · cases hi
    · cases hm
  have h₂ := h₁.step (.timedoutJob (j := 0) rfl)
  have h₃ := (h₂.step (.phaseDone (p := .config))).step (.phaseDone (p := .exec))
  have h₄ := h₃.step (.finish (j := 0) rfl rfl (by decide) rfl)
  have h₅ := h₄.step (.runJob (j := 1) rfl (fun i hi => ?_) (fun h hm => ?_) id)
  · have h₆ := h₅.step (@DeviceStep.stop _ [] [] rfl)
    have h₇ := h₆.step (@DeviceStep.clear _ [] [] rfl)
    have h₈ := h₇.step (@DeviceStep.hwStop _ [] [] rfl)
    exact h₈.step (@DeviceStep.start _ [] [] rfl)
  · rcases eq_or_ne i 0 with rfl | hne
    · exact fun h => nomatch h
    · simp [Device.update, Device.strelaJobPhaseDone, Device.strelaRunJob, Device.probed,
        JobRecord.queued, hne] at hi
  · simpa [Device.update, Device.strelaJobPhaseDone, Device.strelaRunJob, Device.probed] using hm

theorem reach_lifecycle_photoFinish : (photoFinish.jobs 0).finished = some .done ∧
    (photoFinish.jobs 1).finished = some .canceled ∧ (photoFinish.jobs 0).signals ≤ 1 ∧
    photoFinish.warned = false :=
  ⟨by decide, by decide, (reach_lifecycle reach_photoFinish).2.2.1 0,
    (reach_lifecycle reach_photoFinish).2.2.2⟩

end Strela.Driver
