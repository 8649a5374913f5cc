import Strela.Driver.Simulator

/-! # The simulated device at work

`strela_run_job` queues the work item of the simulated device. Its worker reads
the active job once, under the lock, and keeps using the pointer through its
waits and copies while the scheduler, the timeout handler and removal go on. A
queued item runs once however often it is queued, and no two instances run at
the same time. What stops the worker is `strela_hw_stop`, which raises
`sim_abort` and then waits for it.
-/

namespace Strela.Driver

open Foundation

/-- Where an instance of the worker stands, named by what it does next. -/
inductive SimPc
  | entered
  | configWait (job : JobId)
  | configDone (job : JobId)
  | columnWait (job : JobId) (i : Fin 4) (fed : Bool)
  | column (job : JobId) (i : Fin 4) (fed : Bool)
  | execDone (job : JobId)
  | returning
  deriving DecidableEq, Repr

/-- The job an instance has a pointer to and is not done with. -/
def SimPc.job : SimPc → Option JobId
  | .entered | .returning => none
  | .configWait j | .configDone j | .columnWait j _ _ | .column j _ _ | .execDone j => some j

inductive Stopper | timedoutJob | jobFini
  deriving DecidableEq, Repr

/-- Where such a call stands, named by what it has done. -/
inductive HwStop | checked | raised | dequeued
  deriving DecidableEq, Repr

/-- The device with its worker. A queued or running instance carries the job it was queued for;
`copied` are the columns done for each job. -/
structure SimDevice where
  device : Device
  simAbort : Bool
  queued : Option JobId
  worker : Option (JobId × SimPc)
  stops : List (Stopper × HwStop)
  copied : JobId → List (Fin 4)
  mem : Mem

inductive SimEvent
  | sched (e : Event)
  | runJob (j : JobId)
  | hwStop (c : Stopper)
  | raise
  | dequeue
  | flush
  | begin
  | work
  | memory (m : Mem)

namespace SimDevice

/-- `queue_work` does nothing if the item is queued already. -/
def queueWork (s : SimDevice) (j : JobId) : SimDevice := { s with queued := s.queued.or (some j) }

/-- `strela_hw_start` for the configuration phase. -/
def strelaHwStart (s : SimDevice) (j : JobId) : SimDevice :=
  { s with simAbort := false }.queueWork j

def goto (s : SimDevice) (owner : JobId) (pc : SimPc) : SimDevice :=
  { s with worker := some (owner, pc) }

def columnLoop (job : JobId) (i : ℕ) (fed : Bool) : SimPc :=
  if h : i < 4 then .columnWait job ⟨i, h⟩ fed else if fed then .execDone job else .returning

variable {w : ℕ} (objs : ObjId → GemObject w) (mapped : ObjId → Bool) (buffers : JobId → Buffers)

/-- One step of the running instance. A wait ends when its timer does, unless `sim_abort` is
raised by then. -/
def strelaSimWork (s : SimDevice) (owner : JobId) : SimPc → Option SimDevice
  | .entered =>
    match s.device.active with
    | none => some (s.goto owner .returning)
    | some j => some (s.goto owner (.configWait j))
  | .configWait j => some (s.goto owner (if s.simAbort then .returning else .configDone j))
  | .configDone j =>
    some ({ s with device := s.device.strelaJobPhaseDone .config }.goto owner (columnLoop j 0 true))
  | .columnWait j i fed => some (s.goto owner (if s.simAbort then .returning else .column j i fed))
  | .column j i fed => do
    let (fed', mem) ← strelaSimBypassColumn objs mapped ((buffers j).inputs i)
      ((buffers j).inputStrides i) ((buffers j).outputs i) s.mem
    some ({ s with mem, copied := Function.update s.copied j (s.copied j ++ [i]) }.goto owner
      (columnLoop j (i + 1) (fed && fed')))
  | .execDone _ =>
    some ({ s with device := s.device.strelaJobPhaseDone .exec }.goto owner .returning)
  | .returning => some { s with worker := none }

def stoppers (s : SimDevice) : List Stopper := s.stops.map Prod.fst

/-- What the scheduler, the timeout handlers and removal do on their own. The last two go on only
when their call of `strela_hw_stop` has returned. -/
def Admits (s : SimDevice) : Event → Prop
  | .runJob _ | .phaseDone _ | .hwStop | .finiHwStop => False
  | .start => s.stoppers.count .timedoutJob < s.device.handlers.count .halted
  | .finiTake _ | .finiReturn => .jobFini ∉ s.stoppers
  | _ => True

end SimDevice

open SimDevice

section System

variable {w : ℕ} (objs : ObjId → GemObject w) (mapped : ObjId → Bool) (buffers : JobId → Buffers)

inductive SimStep : SimDevice → SimEvent → SimDevice → Prop
  | sched {s : SimDevice} {e : Event} {d : Device} : s.Admits e → DeviceStep s.device e d →
      SimStep s (.sched e) { s with device := d }
  | runJob {s : SimDevice} {j : JobId} {d : Device} : DeviceStep s.device (.runJob j) d →
      SimStep s (.runJob j) ({ s with device := d }.strelaHwStart j)
  | hwStop {s : SimDevice} {d : Device} : DeviceStep s.device .hwStop d →
      SimStep s (.hwStop .timedoutJob)
        { s with device := d, stops := (.timedoutJob, .checked) :: s.stops }
  | finiHwStop {s : SimDevice} {d : Device} : DeviceStep s.device .finiHwStop d →
      SimStep s (.hwStop .jobFini) { s with device := d, stops := (.jobFini, .checked) :: s.stops }
  | raise {s : SimDevice} {c : Stopper} {pre post : List (Stopper × HwStop)} :
      s.stops = pre ++ (c, .checked) :: post →
      SimStep s .raise { s with simAbort := true, stops := pre ++ (c, .raised) :: post }
  -- `cancel_work_sync` takes a queued item off its queue and waits for a running one.
  | dequeue {s : SimDevice} {c : Stopper} {pre post : List (Stopper × HwStop)} :
      s.stops = pre ++ (c, .raised) :: post →
      SimStep s .dequeue { s with queued := none, stops := pre ++ (c, .dequeued) :: post }
  | flush {s : SimDevice} {c : Stopper} {pre post : List (Stopper × HwStop)} :
      s.stops = pre ++ (c, .dequeued) :: post → s.worker = none →
      SimStep s .flush { s with stops := pre ++ post }
  | begin {s : SimDevice} {j : JobId} : s.queued = some j → s.worker = none →
      SimStep s .begin ({ s with queued := none }.goto j .entered)
  | work {s s' : SimDevice} {owner : JobId} {pc : SimPc} : s.worker = some (owner, pc) →
      s.strelaSimWork objs mapped buffers owner pc = some s' → SimStep s .work s'
  | memory {s : SimDevice} {m : Mem} : SimStep s (.memory m) { s with mem := m }

def SimDevice.Idle (s : SimDevice) : Prop :=
  s.device = .probed ∧ s.queued = none ∧ s.worker = none ∧ s.stops = [] ∧ s.copied = fun _ => []

def simLts : Lts SimDevice SimEvent where
  start := SimDevice.Idle
  step := SimStep objs mapped buffers

end System

/-! ## The invariant -/

def Removal.Stopping : Removal → Prop
  | .live | .waited | .torn | .cleared => False
  | _ => True

namespace SimDevice

def Held (s : SimDevice) (j : JobId) : Prop :=
  s.queued = some j ∨ ∃ pc, s.worker = some (j, pc) ∧ pc ≠ .returning

def Quiet (s : SimDevice) : Prop := s.queued = none ∧ s.worker = none

/-- The columns done are those the loop counter has passed, and `fed` speaks for them. -/
def Progress (buffers : JobId → Buffers) (copied : List (Fin 4)) (owner : JobId) (fed : Bool)
    (n : ℕ) : Prop :=
  copied = (List.finRange 4).take n ∧
    (fed = true → ∀ i ∈ copied,
      ((buffers owner).outputs i).count ≤ ((buffers owner).inputs i).count)

/-- An instance works on the job it was queued for, and has done what its place says. -/
def AtWork (buffers : JobId → Buffers) (copied : List (Fin 4)) (owner : JobId) : SimPc → Prop
  | .entered => copied = []
  | .configWait j | .configDone j => j = owner ∧ copied = []
  | .columnWait j i fed | .column j i fed => j = owner ∧ Progress buffers copied owner fed i
  | .execDone j => j = owner ∧ Progress buffers copied owner true 4
  | .returning => True

end SimDevice

/-- What keeps the worker on its own job: a job in hand is on the device, and the scheduler goes on
after a stop only when no job is in hand. -/
structure Attributed (buffers : JobId → Buffers) (s : SimDevice) : Prop where
  settled : Settled s.device
  held : ∀ j, s.Held j → (s.device.jobs j).OnDevice
  alone : s.queued ≠ none → ∀ o pc, s.worker = some (o, pc) → pc = .returning
  fresh : ∀ j, (s.device.jobs j).started = false ∨ s.queued = some j → s.copied j = []
  atWork : ∀ o pc, s.worker = some (o, pc) → AtWork buffers (s.copied o) o pc
  counted : s.stoppers.count .timedoutJob ≤ s.device.handlers.count .halted
  retiring : .jobFini ∈ s.stoppers → s.device.removal = .retiring
  dequeued : ∀ p ∈ s.stops, p.2 = .dequeued → s.queued = none
  handlers : s.stoppers.count .timedoutJob < s.device.handlers.count .halted → s.Quiet
  removal : s.device.removal.Stopping → .jobFini ∉ s.stoppers → s.Quiet

/-! ## What the other contexts do to a job in hand -/

section Frame

variable {d d' : Device} {e : Event} {i j : JobId} {s s' : SimDevice} {buffers : JobId → Buffers}

theorem Device.update_jobs_of_ne {f : JobRecord → JobRecord} (h : j ≠ i) :
    (d.update i f).jobs j = d.jobs j := Function.update_of_ne h ..

theorem Device.update_jobs_self {f : JobRecord → JobRecord} :
    (d.update j f).jobs j = f (d.jobs j) := Function.update_self ..

/-- Nothing but a restart of the scheduler and the end of removal takes a job off the device that
has not completed. -/
theorem JobRecord.OnDevice.of_step (hj : (d.jobs j).OnDevice) (h : DeviceStep d e d')
    (hstart : e ≠ .start) (hr : d.removal.Stopping → d.removal = .retiring)
    (hp : ∀ p, e ≠ .phaseDone p) : (d'.jobs j).OnDevice := by
  cases h with
  | runJob hnew hall => exact absurd hj.unfinished.2 (hall j hj.unfinished.1)
  | phaseDone => exact absurd rfl (hp _)
  | @finish i _ _ hsig =>
    have hne : j ≠ i := by
      rintro rfl
      exact absurd hj.unsignalled hsig.ne'
    rwa [Device.update_jobs_of_ne hne]
  | @freeJob i _ hfin =>
    have hne : j ≠ i := by
      rintro rfl
      exact hfin hj.unfinished.2
    dsimp only
    rwa [Device.update_jobs_of_ne hne]
  | stop => exact hj.detach
  | start => exact absurd rfl hstart
  | finiSignal he =>
    rw [he] at hr
    cases hr trivial
  | finiFree he =>
    rw [he] at hr
    cases hr trivial
  | _ => exact hj

theorem Device.update_started {f : JobRecord → JobRecord}
    (hf : ∀ r, r.started = true → (f r).started = true) (hj : (d.jobs j).started = true) :
    ((d.update i f).jobs j).started = true := by
  by_cases hij : j = i
  · subst hij
    rw [update_jobs_self]
    exact hf _ hj
  · rwa [update_jobs_of_ne hij]

theorem Device.strelaJobPhaseDone_cases (d : Device) (p : Phase) : d.strelaJobPhaseDone p = d ∨
    ∃ j, d.active = some j ∧ (d.jobs j).phase = p ∧
      ((p = .config ∧ d.strelaJobPhaseDone p = d.update j fun r => { r with phase := .exec }) ∨
        (p = .exec ∧ d.strelaJobPhaseDone p =
          { d.update j fun r => { r with signals := r.signals + 1 } with active := none })) := by
  unfold strelaJobPhaseDone
  cases ha : d.active with
  | none => exact .inl rfl
  | some j =>
    by_cases hp : (d.jobs j).phase = p
    · right
      refine ⟨j, rfl, hp, ?_⟩
      cases p <;> simp [hp]
    · left
      simp [hp]

theorem DeviceStep.started (h : DeviceStep d e d') (hj : (d.jobs j).started = true) :
    (d'.jobs j).started = true := by
  cases h with
  | runJob =>
    dsimp only [Device.strelaRunJob]
    exact Device.update_started (fun _ _ => rfl) hj
  | @phaseDone p =>
    rcases d.strelaJobPhaseDone_cases p with h | ⟨i, -, -, ⟨-, h⟩ | ⟨-, h⟩⟩ <;> rw [h]
    · exact hj
    · exact Device.update_started (fun _ h => h) hj
    · dsimp only
      exact Device.update_started (fun _ h => h) hj
  | finish => exact Device.update_started (fun _ h => h) hj
  | stop => exact JobRecord.detach_started.trans hj
  | start => exact JobRecord.cancel_started.trans hj
  | freeJob | finiFree =>
    dsimp only
    exact Device.update_started (fun _ h => h) hj
  | finiSignal =>
    dsimp only
    split
    · exact hj
    · exact Device.update_started (fun _ h => h) hj
  | _ => exact hj

theorem DeviceStep.halted (h : DeviceStep d e d') (hstop : e ≠ .hwStop) (hstart : e ≠ .start) :
    d'.handlers.count .halted = d.handlers.count .halted := by
  cases h with
  | @phaseDone p =>
    rcases d.strelaJobPhaseDone_cases p with h | ⟨i, -, -, ⟨-, h⟩ | ⟨-, h⟩⟩ <;> rw [h] <;> rfl
  | stop he =>
    rw [he]
    simp
  | clear he =>
    rw [he]
    simp
  | hwStop => exact absurd rfl hstop
  | start => exact absurd rfl hstart
  | timedoutJob => simp
  | finiSignal => dsimp only; split <;> rfl
  | _ => rfl

theorem DeviceStep.stopping (h : DeviceStep d e d') (he : e ≠ .finiHwStop)
    (hd : d'.removal.Stopping) : d.removal.Stopping := by
  cases h with
  | @phaseDone p =>
    rcases d.strelaJobPhaseDone_cases p with h | ⟨i, -, -, ⟨-, h⟩ | ⟨-, h⟩⟩ <;>
      rw [h] at hd <;> exact hd
  | finiHwStop => exact absurd rfl he
  | finiTake hr | finiSignal hr | finiFree hr | finiReturn hr => rw [hr]; trivial
  | finiWait | finiSched | finiClear => exact hd.elim
  | _ => exact hd

theorem DeviceStep.retiring (h : DeviceStep d e d') (ht : ∀ j, e ≠ .finiTake j)
    (hr : e ≠ .finiReturn) (hd : d.removal = .retiring) : d'.removal = .retiring := by
  cases h with
  | @phaseDone p =>
    rcases d.strelaJobPhaseDone_cases p with h | ⟨i, -, -, ⟨-, h⟩ | ⟨-, h⟩⟩ <;> rw [h] <;> exact hd
  | finiWait he | finiSched he | finiClear he | finiSignal he =>
    rw [hd] at he
    cases he
  | finiHwStop | finiFree => rfl
  | finiTake => exact absurd rfl (ht _)
  | finiReturn => exact absurd rfl hr
  | _ => exact hd

theorem DeviceStep.halted_start (h : DeviceStep d .start d') :
    d.handlers.count .halted = d'.handlers.count .halted + 1 := by
  cases h with
  | start he =>
    rw [he]
    simp [Nat.add_assoc]

end Frame

/-! ## Steps -/

namespace Attributed

variable {d : Device} {e : Event} {j o : JobId} {pc pc' : SimPc} {c : Stopper} {s s' : SimDevice}
  {buffers : JobId → Buffers} {pre post : List (Stopper × HwStop)}

/-- While an instance is about, removal has at most called `strela_hw_stop`. -/
theorem retiring_of_busy (hs : Attributed buffers s) (hb : ¬ s.Quiet)
    (hr : s.device.removal.Stopping) : s.device.removal = .retiring := by
  by_contra hne
  exact hb (hs.removal hr fun h => hne (hs.retiring h))

theorem not_quiet_of_held (h : s.Held j) : ¬ s.Quiet := by
  rintro ⟨hq, hw⟩
  rcases h with h | ⟨pc, h, -⟩
  · rw [hq] at h
    cases h
  · rw [hw] at h
    cases h

theorem sched (hs : Attributed buffers s) (ha : s.Admits e) (h : DeviceStep s.device e d) :
    Attributed buffers { s with device := d } := by
  have hstop : e ≠ .hwStop := by rintro rfl; exact ha
  have hfini : e ≠ .finiHwStop := by rintro rfl; exact ha
  have hle : s.stoppers.count .timedoutJob ≤ d.handlers.count .halted ∧
      d.handlers.count .halted ≤ s.device.handlers.count .halted := by
    by_cases he : e = .start
    · subst he
      have hlt : s.stoppers.count .timedoutJob < s.device.handlers.count .halted := ha
      have := h.halted_start
      omega
    · rw [h.halted hstop he]
      exact ⟨hs.counted, le_rfl⟩
  constructor
  · exact hs.settled.step h
  · intro j hj
    have hb : ¬ s.Quiet := not_quiet_of_held hj
    refine (hs.held j hj).of_step h ?_ (hs.retiring_of_busy hb) ?_
    · rintro rfl
      exact hb (hs.handlers ha)
    · rintro p rfl
      exact ha
  · exact hs.alone
  · intro j hj
    apply hs.fresh j
    rcases hj with hj | hj
    · left
      by_contra hst
      rw [h.started (by simpa using hst)] at hj
      cases hj
    · exact .inr hj
  · exact hs.atWork
  · exact hle.1
  · intro hmem
    refine h.retiring ?_ ?_ (hs.retiring hmem)
    · rintro j rfl
      exact ha hmem
    · rintro rfl
      exact ha hmem
  · exact hs.dequeued
  · intro hlt
    exact hs.handlers (hlt.trans_le hle.2)
  · intro hr hn
    exact hs.removal (h.stopping hfini hr) hn

/-- The scheduler starts a job when nothing is in hand and nothing is being stopped. -/
theorem stops_eq_nil (hs : Attributed buffers s) (hh : ∀ h ∈ s.device.handlers, h = .called)
    (hr : ¬ s.device.removal.Torn) : s.stops = [] := by
  rw [← List.map_eq_nil_iff (f := Prod.fst), List.eq_nil_iff_forall_not_mem]
  intro c hc
  cases c with
  | timedoutJob =>
    have hpos : 0 < s.stoppers.count .timedoutJob := List.count_pos_iff.mpr hc
    have hhalted := List.count_pos_iff.mp (hpos.trans_le hs.counted)
    cases hh _ hhalted
  | jobFini =>
    apply hr
    rw [hs.retiring hc]
    trivial

theorem runJob (hs : Attributed buffers s) (h : DeviceStep s.device (.runJob j) d) :
    Attributed buffers ({ s with device := d }.strelaHwStart j) := by
  have hset := hs.settled.step h
  have hhalted := h.halted (by simp) (by simp)
  have hstopping := h.stopping (by simp)
  have hstarted {i : JobId} (hi : (d.jobs i).started = false) :
      (s.device.jobs i).started = false := by
    by_contra hst
    rw [h.started (by simpa using hst)] at hi
    cases hi
  cases h with
  | runJob hnew hall hh hr =>
    have hfree (i : JobId) : ¬ s.Held i := by
      intro hi
      obtain ⟨hst, hfin⟩ := (hs.held i hi).unfinished
      exact hall i hst hfin
    have hq : s.queued = none := by
      cases hq : s.queued with
      | none => rfl
      | some i => exact absurd (.inl hq) (hfree i)
    have hw (o : JobId) (pc : SimPc) (h : s.worker = some (o, pc)) : pc = .returning := by
      by_contra hne
      exact hfree o (.inr ⟨pc, h, hne⟩)
    have hstops := hs.stops_eq_nil hh hr
    constructor
    · exact hset
    · rintro i (hi | ⟨pc, hi, hne⟩)
      · have hij : j = i := by simpa [strelaHwStart, queueWork, hq] using hi
        subst hij
        exact hset.active j rfl
      · exact absurd (hw i pc hi) hne
    · intro _ o pc hpc
      exact hw o pc hpc
    · rintro i (hi | hi)
      · exact hs.fresh i (.inl (hstarted hi))
      · have hij : j = i := by simpa [strelaHwStart, queueWork, hq] using hi
        subst hij
        exact hs.fresh j (.inl hnew)
    · intro o pc hpc
      obtain rfl := hw o pc hpc
      trivial
    · simp [strelaHwStart, queueWork, stoppers, hstops]
    · simp [strelaHwStart, queueWork, stoppers, hstops]
    · simp [strelaHwStart, queueWork, hstops]
    · intro hlt
      have hpos : 0 < (s.device.strelaRunJob j).handlers.count .halted := Nat.zero_lt_of_lt hlt
      rw [hhalted] at hpos
      cases hh _ (List.count_pos_iff.mp hpos)
    · intro hstop
      refine absurd (hstopping hstop) fun h => hr ?_
      revert h
      cases s.device.removal <;> simp [Removal.Stopping, Removal.Torn]

theorem hwStop (hs : Attributed buffers s) (h : DeviceStep s.device .hwStop d) :
    Attributed buffers { s with device := d, stops := (.timedoutJob, .checked) :: s.stops } := by
  have hset := hs.settled.step h
  cases h with
  | @hwStop pre post he =>
    have hcount : (pre ++ .halted :: post).count .halted =
        s.device.handlers.count .halted + 1 := by
      rw [he]
      simp [Nat.add_assoc]
    constructor
    · exact hset
    · exact hs.held
    · exact hs.alone
    · exact hs.fresh
    · exact hs.atWork
    · change (.timedoutJob :: s.stoppers).count .timedoutJob ≤
        (pre ++ .halted :: post).count .halted
      rw [List.count_cons_self, hcount]
      exact Nat.succ_le_succ hs.counted
    · intro hmem
      rcases List.mem_cons.mp hmem with hmem | hmem
      · cases hmem
      · exact hs.retiring hmem
    · intro p hp hd
      rcases List.mem_cons.mp hp with rfl | hp
      · cases hd
      · exact hs.dequeued p hp hd
    · intro hlt
      change (.timedoutJob :: s.stoppers).count .timedoutJob <
        (pre ++ .halted :: post).count .halted at hlt
      rw [List.count_cons_self, hcount] at hlt
      exact hs.handlers (Nat.lt_of_succ_lt_succ hlt)
    · intro hr hn
      exact hs.removal hr fun h => hn (List.mem_cons_of_mem _ h)

theorem finiHwStop (hs : Attributed buffers s) (h : DeviceStep s.device .finiHwStop d) :
    Attributed buffers { s with device := d, stops := (.jobFini, .checked) :: s.stops } := by
  have hset := hs.settled.step h
  have hcount :
      (Stopper.jobFini :: s.stoppers).count .timedoutJob = s.stoppers.count .timedoutJob :=
    List.count_cons_of_ne (by simp)
  cases h with
  | finiHwStop he =>
    constructor
    · exact hset
    · exact hs.held
    · exact hs.alone
    · exact hs.fresh
    · exact hs.atWork
    · exact hcount.trans_le hs.counted
    · exact fun _ => rfl
    · intro p hp hd
      rcases List.mem_cons.mp hp with rfl | hp
      · cases hd
      · exact hs.dequeued p hp hd
    · intro hlt
      exact hs.handlers (hcount.symm.trans_lt hlt)
    · intro _ hn
      exact absurd List.mem_cons_self hn

theorem withStops (hs : Attributed buffers s) {stops : List (Stopper × HwStop)} {abort : Bool}
    {queued : Option JobId} (hm : stops.map Prod.fst = s.stoppers)
    (hq : queued = s.queued ∨ queued = none) (hd : ∀ p ∈ stops, p.2 = .dequeued → queued = none) :
    Attributed buffers { s with simAbort := abort, queued, stops } := by
  have hqueued {j : JobId} (h : queued = some j) : s.queued = some j := by
    rcases hq with rfl | rfl
    · exact h
    · cases h
  have hquiet (h : s.Quiet) :
      SimDevice.Quiet { s with simAbort := abort, queued, stops } := by
    rcases hq with rfl | rfl
    · exact h
    · exact ⟨rfl, h.2⟩
  have hstoppers : SimDevice.stoppers { s with simAbort := abort, queued, stops } = s.stoppers := hm
  constructor
  · exact hs.settled
  · rintro j (hj | hj)
    · exact hs.held j (.inl (hqueued hj))
    · exact hs.held j (.inr hj)
  · intro hne
    apply hs.alone
    rcases hq with rfl | rfl
    · exact hne
    · exact absurd rfl hne
  · rintro j (hj | hj)
    · exact hs.fresh j (.inl hj)
    · exact hs.fresh j (.inr (hqueued hj))
  · exact hs.atWork
  · rw [hstoppers]
    exact hs.counted
  · rw [hstoppers]
    exact hs.retiring
  · exact hd
  · rw [hstoppers]
    exact fun h => hquiet (hs.handlers h)
  · rw [hstoppers]
    exact fun hr hn => hquiet (hs.removal hr hn)

theorem raise (hs : Attributed buffers s) (h : s.stops = pre ++ (c, .checked) :: post) :
    Attributed buffers { s with simAbort := true, stops := pre ++ (c, .raised) :: post } := by
  refine hs.withStops (by simp [stoppers, h]) (.inl rfl) fun p hp hd => ?_
  apply hs.dequeued p _ hd
  rw [h]
  rcases List.mem_append.mp hp with hp | hp
  · exact List.mem_append_left _ hp
  rcases List.mem_cons.mp hp with rfl | hp
  · cases hd
  · exact List.mem_append_right _ (List.mem_cons_of_mem _ hp)

theorem dequeue (hs : Attributed buffers s) (h : s.stops = pre ++ (c, .raised) :: post) :
    Attributed buffers { s with queued := none, stops := pre ++ (c, .dequeued) :: post } :=
  hs.withStops (by simp [stoppers, h]) (.inr rfl) fun _ _ _ => rfl

theorem flush (hs : Attributed buffers s) (h : s.stops = pre ++ (c, .dequeued) :: post)
    (hw : s.worker = none) : Attributed buffers { s with stops := pre ++ post } := by
  have hquiet : s.Quiet := ⟨hs.dequeued (c, .dequeued) (by simp [h]) rfl, hw⟩
  have hsub : (pre ++ post).Sublist s.stops := by
    rw [h]
    exact (List.Sublist.refl pre).append (List.sublist_cons_self _ _)
  exact { hs with
    counted := ((hsub.map Prod.fst).count_le _).trans hs.counted
    retiring := fun hmem => hs.retiring ((hsub.map Prod.fst).subset hmem)
    dequeued := fun p hp => hs.dequeued p (hsub.subset hp)
    handlers := fun _ => hquiet
    removal := fun _ _ => hquiet }

theorem begin (hs : Attributed buffers s) (hq : s.queued = some j) :
    Attributed buffers ({ s with queued := none }.goto j .entered) := by
  have hbusy : ¬ s.Quiet := not_quiet_of_held (.inl hq)
  constructor
  · exact hs.settled
  · rintro i (hi | ⟨pc, hi, -⟩)
    · cases hi
    · obtain rfl := (Prod.mk.inj (Option.some.inj hi)).1
      exact hs.held j (.inl hq)
  · exact fun hne => absurd rfl hne
  · rintro i (hi | hi)
    · exact hs.fresh i (.inl hi)
    · cases hi
  · rintro o pc hpc
    obtain ⟨rfl, rfl⟩ := Prod.mk.inj (Option.some.inj hpc)
    exact hs.fresh j (.inr hq)
  · exact hs.counted
  · exact hs.retiring
  · exact fun _ _ _ => rfl
  · exact fun h => absurd (hs.handlers h) hbusy
  · exact fun hr hn => absurd (hs.removal hr hn) hbusy

theorem goto (hs : Attributed buffers s) (hw : s.worker = some (o, pc)) (hpc : pc ≠ .returning)
    {mem : Mem} {copied : JobId → List (Fin 4)} (hc : ∀ i, i ≠ o → copied i = s.copied i)
    (ha : AtWork buffers (copied o) o pc') :
    Attributed buffers ({ s with mem, copied }.goto o pc') := by
  have hheld : s.Held o := .inr ⟨pc, hw, hpc⟩
  have hbusy : ¬ s.Quiet := not_quiet_of_held hheld
  have hq : s.queued = none := by
    by_contra hne
    exact hpc (hs.alone hne o pc hw)
  have hst : (s.device.jobs o).started = true := (hs.held o hheld).unfinished.1
  constructor
  · exact hs.settled
  · rintro i (hi | ⟨pc₁, hi, -⟩)
    · exact hs.held i (.inl hi)
    · obtain rfl := (Prod.mk.inj (Option.some.inj hi)).1
      exact hs.held o hheld
  · exact fun hne => absurd hq hne
  · rintro i (hi | hi)
    · have hne : i ≠ o := by
        rintro rfl
        rw [show (s.device.jobs i).started = false from hi] at hst
        cases hst
      exact (hc i hne).trans (hs.fresh i (.inl hi))
    · rw [show s.queued = some i from hi] at hq
      cases hq
  · intro o₁ pc₁ h₁
    obtain ⟨rfl, rfl⟩ := Prod.mk.inj (Option.some.inj h₁)
    exact ha
  · exact hs.counted
  · exact hs.retiring
  · exact hs.dequeued
  · exact fun h => absurd (hs.handlers h) hbusy
  · exact fun hr hn => absurd (hs.removal hr hn) hbusy

theorem phaseDone (hs : Attributed buffers s) (p : Phase) (hp : p = .exec → ∀ j, ¬ s.Held j) :
    Attributed buffers { s with device := s.device.strelaJobPhaseDone p } := by
  have hstep : DeviceStep s.device (.phaseDone p) (s.device.strelaJobPhaseDone p) := .phaseDone
  have hhalted := hstep.halted (by simp) (by simp)
  constructor
  · exact hs.settled.strelaJobPhaseDone p
  · intro j hj
    rcases s.device.strelaJobPhaseDone_cases p with h | ⟨i, -, -, ⟨-, h⟩ | ⟨hexec, -⟩⟩
    · rw [h]
      exact hs.held j hj
    · rw [h]
      by_cases hij : j = i
      · subst hij
        rw [Device.update_jobs_self]
        exact ⟨(hs.held j hj).unfinished, (hs.held j hj).unfreed, (hs.held j hj).unsignalled⟩
      · rw [Device.update_jobs_of_ne hij]
        exact hs.held j hj
    · exact absurd hj (hp hexec j)
  · exact hs.alone
  · intro j hj
    apply hs.fresh j
    rcases hj with hj | hj
    · left
      by_contra hst
      rw [hstep.started (by simpa using hst)] at hj
      cases hj
    · exact .inr hj
  · exact hs.atWork
  · exact hs.counted.trans_eq hhalted.symm
  · intro hmem
    exact hstep.retiring (by simp) (by simp) (hs.retiring hmem)
  · exact hs.dequeued
  · intro hlt
    exact hs.handlers (hlt.trans_eq hhalted)
  · intro hr hn
    exact hs.removal (hstep.stopping (by simp) hr) hn

theorem active_eq (hs : Attributed buffers s) (h : s.Held o) (ha : s.device.active = some j) :
    j = o :=
  hs.settled.single j o (hs.settled.active j ha).unfinished (hs.held o h).unfinished

theorem not_held_returning (hs : Attributed buffers s) (hw : s.worker = some (o, pc))
    (hpc : pc ≠ .returning) (j : JobId) : ¬ (s.goto o .returning).Held j := by
  rintro (hj | ⟨pc', hj, hne⟩)
  · refine hpc (hs.alone ?_ o pc hw)
    rw [show s.queued = some j from hj]
    exact Option.some_ne_none j
  · exact hne (Prod.mk.inj (Option.some.inj hj)).2.symm

theorem finished (hs : Attributed buffers s) (hw : s.worker = some (o, .returning)) :
    Attributed buffers { s with worker := none } := by
  have hbusy : ¬ s.Quiet := fun h => by
    rw [h.2] at hw
    cases hw
  constructor
  · exact hs.settled
  · rintro j (hj | ⟨pc, hj, -⟩)
    · exact hs.held j (.inl hj)
    · cases hj
  · intro _ _ _ h
    cases h
  · exact hs.fresh
  · intro _ _ h
    cases h
  · exact hs.counted
  · exact hs.retiring
  · exact hs.dequeued
  · exact fun h => absurd (hs.handlers h) hbusy
  · exact fun hr hn => absurd (hs.removal hr hn) hbusy

end Attributed

section Work

variable {w : ℕ} {objs : ObjId → GemObject w} {mapped : ObjId → Bool} {buffers : JobId → Buffers}
  {s s' : SimDevice} {o : JobId} {pc : SimPc} {fed fed' : Bool} {i : Fin 4}

theorem strelaSimBypassColumn_fed {inp out : Binding} {stride : U32} {m m' : Mem}
    (h : strelaSimBypassColumn objs mapped inp stride out m = some (fed, m')) :
    fed = decide (out.count ≤ inp.count) := by
  simp only [strelaSimBypassColumn] at h
  split at h
  · exact (Prod.mk.inj (Option.some.inj h)).1.symm
  · obtain ⟨inObj, -, h⟩ := Option.bind_eq_some_iff.mp h
    obtain ⟨outObj, -, h⟩ := Option.bind_eq_some_iff.mp h
    split at h <;> exact (Prod.mk.inj (Option.some.inj h)).1.symm

theorem SimDevice.Progress.next {copied : List (Fin 4)} (h : Progress buffers copied o fed i)
    (hf : fed' = decide (((buffers o).outputs i).count ≤ ((buffers o).inputs i).count)) :
    Progress buffers (copied ++ [i]) o (fed && fed') (i + 1) := by
  have htake : ∀ i : Fin 4, (List.finRange 4).take i ++ [i] = (List.finRange 4).take (i + 1) := by
    decide
  refine ⟨?_, fun hfed k hk => ?_⟩
  · rw [h.1, htake]
  · rw [Bool.and_eq_true, hf, decide_eq_true_eq] at hfed
    rcases List.mem_append.mp hk with hk | hk
    · exact h.2 hfed.1 k hk
    · obtain rfl := List.mem_singleton.mp hk
      exact hfed.2

theorem SimDevice.Progress.atWork {copied : List (Fin 4)} {n : ℕ}
    (h : Progress buffers copied o fed n) (hn : n ≤ 4) :
    AtWork buffers copied o (columnLoop o n fed) := by
  unfold columnLoop
  split
  · exact ⟨rfl, h⟩
  · obtain rfl : n = 4 := by omega
    cases fed with
    | true => exact ⟨rfl, h⟩
    | false => trivial

theorem Attributed.work (hs : Attributed buffers s) (hw : s.worker = some (o, pc))
    (h : s.strelaSimWork objs mapped buffers o pc = some s') : Attributed buffers s' := by
  have hat := hs.atWork o pc hw
  cases pc with
  | entered =>
    have hheld : s.Held o := .inr ⟨_, hw, by simp⟩
    cases ha : s.device.active with
    | none =>
      simp only [SimDevice.strelaSimWork, ha, Option.some.injEq] at h
      subst h
      exact hs.goto hw (by simp) (fun _ _ => rfl) trivial
    | some j =>
      simp only [SimDevice.strelaSimWork, ha, Option.some.injEq] at h
      subst h
      exact hs.goto hw (by simp) (fun _ _ => rfl) ⟨hs.active_eq hheld ha, hat⟩
  | configWait j =>
    obtain rfl := Option.some.inj h
    apply hs.goto hw (by simp) (fun _ _ => rfl)
    split
    · trivial
    · exact hat
  | configDone j =>
    obtain rfl := Option.some.inj h
    obtain ⟨rfl, hnone⟩ := hat
    have hprog : Progress buffers (s.copied j) j true 0 := ⟨hnone, by simp [hnone]⟩
    have hs' := hs.phaseDone .config (by simp)
    exact hs'.goto hw (by simp) (fun _ _ => rfl) (hprog.atWork (Nat.zero_le 4))
  | columnWait j i fed =>
    obtain rfl := Option.some.inj h
    apply hs.goto hw (by simp) (fun _ _ => rfl)
    split
    · trivial
    · exact hat
  | column j i fed =>
    obtain ⟨rfl, hprog⟩ := hat
    obtain ⟨⟨fed', m⟩, hcol, h⟩ := Option.bind_eq_some_iff.mp h
    obtain rfl := Option.some.inj h
    apply hs.goto hw (by simp) (fun _ hne => Function.update_of_ne hne ..)
    rw [Function.update_self]
    exact (hprog.next (strelaSimBypassColumn_fed hcol)).atWork i.isLt
  | execDone j =>
    obtain rfl := Option.some.inj h
    have hs' : Attributed buffers (s.goto o .returning) :=
      hs.goto hw (by simp) (fun _ _ => rfl) trivial
    exact hs'.phaseDone .exec fun _ => hs.not_held_returning hw (by simp)
  | returning =>
    obtain rfl := Option.some.inj h
    exact hs.finished hw

theorem attributed_of_reach (h : (simLts objs mapped buffers).Reach s) : Attributed buffers s := by
  apply h.invariant
  · rintro s ⟨hd, hq, hw, hst, hc⟩
    have hset : Settled s.device := settled_of_reach (.start hd)
    constructor
    · exact hset
    · rintro j (hj | ⟨pc, hj, -⟩)
      · rw [hq] at hj
        cases hj
      · rw [hw] at hj
        cases hj
    · exact fun hne => absurd hq hne
    · simp [hc]
    · simp [hw]
    · simp [stoppers, hst]
    · simp [stoppers, hst]
    · simp [hst]
    · exact fun _ => ⟨hq, hw⟩
    · exact fun _ _ => ⟨hq, hw⟩
  · intro s e s' _ hs hstep
    cases hstep with
    | sched ha h => exact hs.sched ha h
    | runJob h => exact hs.runJob h
    | hwStop h => exact hs.hwStop h
    | finiHwStop h => exact hs.finiHwStop h
    | raise h => exact hs.raise h
    | dequeue h => exact hs.dequeue h
    | flush h hw => exact hs.flush h hw
    | begin hq _ => exact hs.begin hq
    | work hw h => exact hs.work hw h
    | memory => exact { hs with }

/-- A completion reported by the worker is credited to the job it was queued for. -/
theorem Attributed.credit (hs : Attributed buffers s) (h : s.Held o) (p : Phase) {j : JobId}
    (hj : j ≠ o) : (s.device.strelaJobPhaseDone p).jobs j = s.device.jobs j := by
  rcases s.device.strelaJobPhaseDone_cases p with heq | ⟨i, ha, -, hcase⟩
  · rw [heq]
  · obtain rfl := hs.active_eq h ha
    rcases hcase with ⟨-, heq⟩ | ⟨-, heq⟩ <;> rw [heq]
    · exact Device.update_jobs_of_ne hj
    · dsimp only
      exact Device.update_jobs_of_ne hj

theorem Device.strelaJobPhaseDone_config_signals (d : Device) (j : JobId) :
    ((d.strelaJobPhaseDone .config).jobs j).signals = (d.jobs j).signals := by
  rcases d.strelaJobPhaseDone_cases .config with heq | ⟨i, -, -, ⟨-, heq⟩ | ⟨h, -⟩⟩
  · rw [heq]
  · rw [heq]
    by_cases hij : j = i
    · subst hij
      rw [update_jobs_self]
    · rw [update_jobs_of_ne hij]
  · cases h

theorem SimDevice.AtWork.job_eq {copied : List (Fin 4)} {j : JobId} (h : AtWork buffers copied o pc)
    (hj : pc.job = some j) : j = o := by
  cases pc with
  | entered | returning => cases hj
  | configWait | configDone | columnWait | column | execDone =>
    obtain rfl := Option.some.inj hj
    exact h.1

theorem strelaSimWork_device (h : s.strelaSimWork objs mapped buffers o pc = some s') :
    s'.device = s.device ∨
      (∃ j, pc = .configDone j ∧ s'.device = s.device.strelaJobPhaseDone .config) ∨
      ∃ j, pc = .execDone j ∧ s'.device = s.device.strelaJobPhaseDone .exec := by
  cases pc with
  | entered =>
    left
    simp only [SimDevice.strelaSimWork] at h
    split at h <;> obtain rfl := Option.some.inj h <;> rfl
  | column j i fed =>
    left
    obtain ⟨r, -, h⟩ := Option.bind_eq_some_iff.mp h
    obtain rfl := Option.some.inj h
    rfl
  | configDone j =>
    obtain rfl := Option.some.inj h
    exact .inr (.inl ⟨j, rfl, rfl⟩)
  | execDone j =>
    obtain rfl := Option.some.inj h
    exact .inr (.inr ⟨j, rfl, rfl⟩)
  | _ =>
    obtain rfl := Option.some.inj h
    exact .inl rfl

/-- The worker uses a job, its own or the active one, only while it is not freed; an instance queued
for one job moves no other on; and it signals a hardware fence only after the four columns of the
job, each of which fed its output. -/
theorem worker_attributed (h : (simLts objs mapped buffers).Reach s) :
    (∀ o pc j, s.worker = some (o, pc) → pc.job = some j ∨ s.device.active = some j →
      (s.device.jobs j).freed = false) ∧
    ∀ o pc s', s.worker = some (o, pc) → s.strelaSimWork objs mapped buffers o pc = some s' →
      (∀ j, j ≠ o → s'.device.jobs j = s.device.jobs j) ∧
      ∀ j, (s'.device.jobs j).signals ≠ (s.device.jobs j).signals →
        s.copied j = List.finRange 4 ∧
          ∀ i, ((buffers j).outputs i).count ≤ ((buffers j).inputs i).count := by
  have hs := attributed_of_reach h
  have hheld {o : JobId} {pc : SimPc} (hw : s.worker = some (o, pc)) (hpc : pc ≠ .returning) :
      s.Held o := .inr ⟨pc, hw, hpc⟩
  constructor
  · rintro o pc j hw (hj | hj)
    · obtain rfl := (hs.atWork o pc hw).job_eq hj
      refine (hs.held j (hheld hw ?_)).unfreed
      rintro rfl
      cases hj
    · exact (hs.settled.active j hj).unfreed
  · intro o pc s' hw hstep
    rcases strelaSimWork_device hstep with hd | ⟨k, rfl, hd⟩ | ⟨k, rfl, hd⟩ <;> rw [hd]
    · exact ⟨fun _ _ => rfl, fun _ hne => absurd rfl hne⟩
    · refine ⟨fun j hj => hs.credit (hheld hw (by simp)) .config hj, fun j hne => ?_⟩
      exact absurd (s.device.strelaJobPhaseDone_config_signals j) hne
    · have hcredit {j : JobId} (hj : j ≠ o) := hs.credit (hheld hw (by simp)) .exec hj
      refine ⟨fun j hj => hcredit hj, fun j hne => ?_⟩
      have hjo : j = o := by
        by_contra hjo
        exact hne (by rw [hcredit hjo])
      subst hjo
      obtain ⟨-, hcopied, hfed⟩ := hs.atWork j _ hw
      refine ⟨hcopied, fun i => hfed rfl i ?_⟩
      rw [hcopied]
      exact List.mem_finRange i

def SimDevice.workFor (objs : ObjId → GemObject w) (mapped : ObjId → Bool)
    (buffers : JobId → Buffers) : ℕ → SimDevice → Option SimDevice
  | 0, s => some s
  | n + 1, s => do
    let (o, pc) ← s.worker
    let s ← s.strelaSimWork objs mapped buffers o pc
    workFor objs mapped buffers n s

theorem SimDevice.reach_workFor {n : ℕ} (hr : (simLts objs mapped buffers).Reach s)
    (h : workFor objs mapped buffers n s = some s') : (simLts objs mapped buffers).Reach s' := by
  induction n generalizing s with
  | zero =>
    obtain rfl := Option.some.inj h
    exact hr
  | succ n ih =>
    obtain ⟨⟨o, pc⟩, hw, h⟩ := Option.bind_eq_some_iff.mp h
    obtain ⟨t, ht, h⟩ := Option.bind_eq_some_iff.mp h
    exact ih (hr.step (.work hw ht)) h

end Work

def wordBuffers : JobId → Buffers := fun _ =>
  ⟨⟨some 0, 0, 1⟩, fun _ => ⟨some 0, 0, 1⟩, fun _ => 1, fun _ => ⟨some 0, 8, 1⟩⟩

def wordObjs : ObjId → GemObject 32 := fun _ => ⟨64, 0x1000⟩

def simIdle : SimDevice := ⟨.probed, false, none, none, [], fun _ => [], fun _ => 0⟩

theorem worker_attributed_wordBuffers : ∃ s s',
    (simLts wordObjs (fun _ => true) wordBuffers).Reach s ∧ s.worker = some (0, .execDone 0) ∧
    s.strelaSimWork wordObjs (fun _ => true) wordBuffers 0 (.execDone 0) = some s' ∧
    (s'.device.jobs 0).signals = 1 ∧ s.copied 0 = List.finRange 4 := by
  let queued := { simIdle with device := simIdle.device.strelaRunJob 0 }.strelaHwStart 0
  let entered := { queued with queued := none }.goto 0 .entered
  have h₁ : (simLts wordObjs (fun _ => true) wordBuffers).Reach queued := by
    refine .step (.start ⟨rfl, rfl, rfl, rfl, rfl⟩) (.runJob (.runJob rfl ?_ ?_ id))
    · intro i hi
      cases hi
    · intro h hm
      cases hm
  have h₂ : (simLts wordObjs (fun _ => true) wordBuffers).Reach entered := h₁.step (.begin rfl rfl)
  have hrun : (entered.workFor wordObjs (fun _ => true) wordBuffers 11).map (fun s => (s.worker,
      (s.strelaSimWork wordObjs (fun _ => true) wordBuffers 0 (.execDone 0)).map
        fun s' => (s'.device.jobs 0).signals, (s.device.jobs 0).signals)) =
      some (some (0, .execDone 0), some 1, 0) := by decide +kernel
  obtain ⟨s, hs, heq⟩ := Option.map_eq_some_iff.mp hrun
  simp only [Prod.mk.injEq] at heq
  obtain ⟨hw, hstep, hzero⟩ := heq
  obtain ⟨s', hs', hone⟩ := Option.map_eq_some_iff.mp hstep
  have hr := reach_workFor h₂ hs
  refine ⟨s, s', hr, hw, hs', hone, ?_⟩
  have hchange : (s'.device.jobs 0).signals ≠ (s.device.jobs 0).signals := by
    rw [hone, hzero]
    decide
  exact (((worker_attributed hr).2 0 _ s' hw hs').2 0 hchange).1

end Strela.Driver
