import Strela.Lib.Simulation

/-! # Configuring and executing one job

What a configured job asks the driver for is what the caller asked for, as far as
the fields of `size_t` fit the 32 bits of the request. Executing the job ends with
its result if the wait sees the fence signal. A signal to the process cuts the
wait short, and then the job is looked at only once more before it must not be
pending.
-/

namespace Strela.Lib

open Foundation Strela.Allocator

variable {os : Os} {w w' : World} {i : SlotId} {job : JobHandle}

/-! ## The bindings of a configured job -/

def Conf.Below (conf : Conf) (n : ℕ) : Prop :=
  ∀ i, (conf.inpOffset i < n ∧ conf.inpCount i < n ∧ conf.inpStride i < n) ∧
    conf.outOffset i < n ∧ conf.outCount i < n

def Submit.Carries (s : Submit) (conf : Conf) : Prop :=
  ∀ i, ((s.inputs i).offset.toNat = conf.inpOffset i ∧ (s.inputs i).count.toNat = conf.inpCount i ∧
      (s.inputs i).stride.toNat = conf.inpStride i) ∧
    (s.outputs i).offset.toNat = conf.outOffset i ∧ (s.outputs i).count.toNat = conf.outCount i

theorem slot_setSlot (w : World) (i : SlotId) (s : JobSlot) : (w.setSlot i s).slot i = s := by
  simp [World.slot, World.setSlot]

theorem toNat_ofNat_iff (n : ℕ) : (BitVec.ofNat 32 n).toNat = n ↔ n < 2 ^ 32 := by
  rw [BitVec.toNat_ofNat]
  constructor
  · intro h
    rw [← h]
    exact Nat.mod_lt _ (by decide)
  · exact Nat.mod_eq_of_lt

theorem confSubmit_carries_iff (dev : Dev) (kernel : Kernel) (conf : Conf) (syncobj : U32) :
    Submit.Carries (confSubmit dev kernel conf syncobj) conf ↔ conf.Below (2 ^ 32) := by
  simp only [Submit.Carries, confSubmit, toNat_ofNat_iff, Conf.Below]

/-- A valid job carries its configuration exactly if every field fits in 32 bits. -/
theorem strelaJobConfig_carries_iff {kernel : Kernel} {conf : Conf}
    (h : strelaJobConfig os kernel conf w = .ok (job, w')) (hv : job.valid = true) :
    ∃ i : SlotId, job.handle = i ∧ (w'.slot i).phase = .configured ∧
      (Submit.Carries (w'.slot i).submit conf ↔ conf.Below (2 ^ 32)) := by
  rcases strelaJobConfig_cases os kernel conf w with
    ⟨i, syncobj, -, he⟩ | ⟨i, e, -, -, he⟩ | ⟨-, w'', he, -⟩
  · obtain ⟨rfl, rfl⟩ := Prod.mk.inj (Except.ok.inj (he.symm.trans h))
    refine ⟨i, rfl, ?_, ?_⟩
    · rw [slot_setSlot]
    · rw [slot_setSlot]
      exact confSubmit_carries_iff _ _ _ _
  · obtain ⟨rfl, -⟩ := Prod.mk.inj (Except.ok.inj (he.symm.trans h))
    cases hv
  · obtain ⟨rfl, -⟩ := Prod.mk.inj (Except.ok.inj (he.symm.trans h))
    cases hv

/-- Columns of four words from the given word of the tensor memory on. -/
def fourWords (offset : ℕ) : Conf :=
  ⟨fun _ => offset, fun _ => 4, fun _ => 1, fun _ => offset, fun _ => 4⟩

theorem fourWords_config (offset : ℕ) : ∃ w' : World,
    strelaJobConfig (fun _ _ => .ok 7) ⟨true, 0⟩ (fourWords offset) readyWorld =
      .ok (⟨true, 0⟩, w') ∧
    (w'.slot 0).submit =
      confSubmit readyWorld.dev ⟨true, 0⟩ (fourWords offset) (BitVec.ofInt 32 7) := by
  refine ⟨_, rfl, ?_⟩
  rfl

theorem strelaJobConfig_carries_iff_fourWords : ∃ w',
    strelaJobConfig (fun _ _ => .ok 7) ⟨true, 0⟩ (fourWords 16) readyWorld = .ok (⟨true, 0⟩, w') ∧
    ∃ i : SlotId, Submit.Carries (w'.slot i).submit (fourWords 16) := by
  obtain ⟨w', hconf, -⟩ := fourWords_config 16
  obtain ⟨i, -, -, hiff⟩ := strelaJobConfig_carries_iff hconf rfl
  refine ⟨w', hconf, i, hiff.mpr ?_⟩
  unfold Conf.Below
  decide

/-- With 64 bits of `size_t` a configuration 16 GiB past the start of the tensor memory gets a valid
job, whose bindings are four words at the start that the driver accepts. -/
theorem conf_truncated_lp64 : (fourWords (2 ^ 32)).Below Abi.lp64.modulus ∧ ∃ w',
    strelaJobConfig (fun _ _ => .ok 7) ⟨true, 0⟩ (fourWords (2 ^ 32)) readyWorld =
      .ok (⟨true, 0⟩, w') ∧
    ¬ Submit.Carries (w'.slot 0).submit (fourWords (2 ^ 32)) ∧
    ∀ i, Driver.strelaBindingCheck (BitVec.ofNat 64 tensorMemorySize)
      ((w'.slot 0).submit.inputs i) = .ok () := by
  obtain ⟨w', hconf, hsubmit⟩ := fourWords_config (2 ^ 32)
  refine ⟨?_, w', hconf, fun h => ?_, ?_⟩
  · unfold Conf.Below
    decide
  · rw [hsubmit, confSubmit_carries_iff] at h
    exact absurd (h 0).1.1 (by decide)
  · rw [hsubmit]
    decide

/-! ## Executing -/

def told (os : Os) (log : List Event) (r : Request) : List Event := log ++ [⟨r, os log r⟩]

def exportLog (os : Os) (i : SlotId) (slot : JobSlot) (log : List Event) : List Event :=
  let log := told os log (.strelaSubmit i slot.submit)
  if slot.phase = .done then told os log (.close i slot.fenceFd) else log

def submitLog (os : Os) (i : SlotId) (slot : JobSlot) (log : List Event) : List Event :=
  told os (exportLog os i slot log) (.handleToFd i slot.submit.outSyncobj)

/-- The job of `strela_config` is submitted, and its fence exported as a descriptor. -/
structure Submits (os : Os) (w : World) (i : SlotId) (fd : ℤ) : Prop where
  ok : w.ok = true
  valid : w.dev.backwardCompatJob.valid = true
  handle : w.dev.backwardCompatJob.handle = i
  phase : submittable (w.slot i).phase = true
  submitted : ∃ v, os w.log (.strelaSubmit i (w.slot i).submit) = .ok v
  exported : os (exportLog os i (w.slot i) w.log)
    (.handleToFd i (w.slot i).submit.outSyncobj) = .ok fd

/-- A look at the fence that finds it signalled and gets the status of the job. -/
def Seen (os : Os) (log : List Event) (i : SlotId) (fd timeout status : ℤ) : Prop :=
  ∃ ready, os log (.poll i fd timeout) = .ok ready ∧ ready ≠ 0 ∧
    os (told os log (.poll i fd timeout)) (.fileInfo i fd) = .ok status

/-- The wait for the submitted job is interrupted, and the look that follows it at once does not get
the status. -/
def Interrupted (os : Os) (w : World) : Prop :=
  ∃ i fd, Submits os w i fd ∧
    os (submitLog os i (w.slot i) w.log) (.poll i fd 2000) = .error eintr ∧
    ∀ status, ¬ Seen os (told os (submitLog os i (w.slot i) w.log) (.poll i fd 2000)) i fd 0 status

variable {t fd status : ℤ}

theorem not_ok_of_errno (w : World) (e : ℕ+) : (w.setErr e).ok = false :=
  ok_setErr_of_ne (by exact_mod_cast e.ne_zero)

theorem strelaJobUpdate_submitted (hp : (w.slot i).phase = .submitted) :
    strelaJobUpdate os i t w =
      match w.ask os (.poll i (w.slot i).fenceFd t) with
      | (.error e, w) => .ok (if e ≠ eintr then w.setErr e else w)
      | (.ok ready, w') =>
        if ready = 0 then .ok w'
        else
          match w'.ask os (.fileInfo i (w.slot i).fenceFd) with
          | (.error e, w) => .ok (w.setErr e)
          | (.ok status, w') => .ok (w'.setSlot i { w.slot i with status, phase := .done }) := by
  simp only [strelaJobUpdate, hp, inDriver]
  rfl

theorem strelaJobUpdate_done (hp : (w.slot i).phase = .done) :
    strelaJobUpdate os i t w = .ok w := by
  simp only [strelaJobUpdate, hp, inDriver]
  rfl

theorem strelaJobUpdate_seen (hp : (w.slot i).phase = .submitted)
    (hs : Seen os w.log i (w.slot i).fenceFd t status) :
    ∃ w', strelaJobUpdate os i t w = .ok w' ∧ w'.ok = w.ok ∧ (w'.slot i).phase = .done := by
  obtain ⟨ready, hpoll, hne, hinfo⟩ := hs
  let w₁ := (w.ask os (.poll i (w.slot i).fenceFd t)).2
  let w₂ := (w₁.ask os (.fileInfo i (w.slot i).fenceFd)).2
  have hinfo₁ : os w₁.log (.fileInfo i (w.slot i).fenceFd) = .ok status := hinfo
  refine ⟨w₂.setSlot i { w.slot i with status, phase := .done }, ?_, rfl, ?_⟩
  · rw [strelaJobUpdate_submitted hp, ask_eq hpoll]
    dsimp only
    rw [if_neg hne, ask_eq hinfo₁]
  · rw [slot_setSlot]

/-- One that does not leaves the job as it is, and there is an error unless the poll timed out or
was interrupted. -/
theorem strelaJobUpdate_unseen (hp : (w.slot i).phase = .submitted)
    (hs : ∀ status, ¬ Seen os w.log i (w.slot i).fenceFd t status) :
    ∃ w', strelaJobUpdate os i t w = .ok w' ∧ w'.slot i = w.slot i ∧
      (w'.ok = false ∧ os w.log (.poll i (w.slot i).fenceFd t) ≠ .error eintr ∨
        os w.log (.poll i (w.slot i).fenceFd t) = .ok 0 ∨
        os w.log (.poll i (w.slot i).fenceFd t) = .error eintr ∧
          w' = (w.ask os (.poll i (w.slot i).fenceFd t)).2) := by
  let w₁ := (w.ask os (.poll i (w.slot i).fenceFd t)).2
  let w₂ := (w₁.ask os (.fileInfo i (w.slot i).fenceFd)).2
  rw [strelaJobUpdate_submitted hp]
  cases hpoll : os w.log (.poll i (w.slot i).fenceFd t) with
  | error e =>
    rw [ask_eq hpoll]
    by_cases he : e = eintr
    · subst he
      exact ⟨w₁, rfl, rfl, .inr (.inr ⟨rfl, rfl⟩)⟩
    · exact ⟨w₁.setErr e, congrArg Except.ok (if_pos he), rfl,
        .inl ⟨not_ok_of_errno w₁ e, fun h => he (Except.error.inj h)⟩⟩
  | ok ready =>
    rw [ask_eq hpoll]
    by_cases hz : ready = 0
    · subst hz
      exact ⟨w₁, rfl, rfl, .inr (.inl rfl)⟩
    · dsimp only
      rw [if_neg hz]
      cases hinfo : os w₁.log (.fileInfo i (w.slot i).fenceFd) with
      | ok status => exact absurd ⟨ready, hpoll, hz, hinfo⟩ (hs status)
      | error e =>
        rw [ask_eq hinfo]
        exact ⟨w₂.setErr e, rfl, rfl, .inl ⟨not_ok_of_errno w₂ e, nofun⟩⟩

/-! ### Waiting and polling -/

section Driver

variable (hw : w.ok = true) (hv : job.valid = true) (hi : job.handle = i)
  (hp : inDriver (w.slot i).phase = true)

include hw hv hi hp

theorem strelaJobWait_of_update (hu : strelaJobUpdate os i t w = .ok w') :
    strelaJobWait os job t w = .ok (w'.ok && (w'.slot i).phase == .done, w') := by
  simp only [strelaJobWait, strelaJobSlotGet_of_ok hw hv hi hp, ok_bind, hu]

theorem strelaJobPoll_of_update (hu : strelaJobUpdate os i 0 w = .ok w') :
    strelaJobPoll os job w =
      .ok (if (w'.slot i).phase ≠ .done then .pending
        else if (w'.slot i).status > 0 then .ok else .failed, w') := by
  simp only [strelaJobPoll, strelaJobSlotGet_of_ok hw hv hi hp, ok_bind, hu]

end Driver

theorem strelaJobPoll_of_not_ok (hw : w.ok = false) :
    strelaJobPoll os job w = .ok (.failed, w) := by
  simp only [strelaJobPoll, strelaJobSlotGet_of_not_ok hw, ok_bind]

theorem strelaJobWait_of_not_ok (hw : w.ok = false) :
    strelaJobWait os job t w = .ok (false, w) := by
  simp only [strelaJobWait, strelaJobSlotGet_of_not_ok hw, ok_bind]

/-! ### Submitting -/

/-- The descriptor of the run before can be closed once the job is submitted again. -/
def ClosesFence (os : Os) (w : World) : Prop :=
  ∀ i, (w.slot i).phase = .done → ∃ v,
    os (told os w.log (.strelaSubmit i (w.slot i).submit)) (.close i (w.slot i).fenceFd) = .ok v

theorem submitAccepted_exports (hc : ClosesFence os w) (i : SlotId) :
    ∃ w', submitAccepted os i (w.ask os (.strelaSubmit i (w.slot i).submit)).2 =
        .ok (submitExport os i (w.slot i) w') ∧
      w'.dev = w.dev ∧ w'.log = exportLog os i (w.slot i) w.log := by
  let w₁ := (w.ask os (.strelaSubmit i (w.slot i).submit)).2
  have hslot : w₁.slot i = w.slot i := rfl
  change ∃ w', submitAccepted os i w₁ = _ ∧ _
  by_cases hd : (w.slot i).phase = .done
  · obtain ⟨v, hv⟩ := hc i hd
    refine ⟨(w₁.ask os (.close i (w.slot i).fenceFd)).2, ?_, rfl, ?_⟩
    · simp only [submitAccepted, hslot, hd, if_true]
      exact congrArg (· >>= _) (askOrAbort_of_ok hv)
    · simp only [exportLog, hd, if_true]
      rfl
  · refine ⟨w₁, ?_, rfl, ?_⟩
    · simp only [submitAccepted, hslot, hd, if_false]
    · simp only [exportLog, hd, if_false]
      rfl

theorem submitExport_exported {slot : JobSlot}
    (h : os w.log (.handleToFd i slot.submit.outSyncobj) = .ok fd) :
    (submitExport os i slot w).ok = w.ok ∧
      (submitExport os i slot w).log = told os w.log (.handleToFd i slot.submit.outSyncobj) ∧
      (submitExport os i slot w).slot i = { slot with phase := .submitted, fenceFd := fd } := by
  rw [submitExport, ask_eq (w := w.setSlot i _) h]
  exact ⟨rfl, rfl, slot_setSlot _ _ _⟩

theorem strelaJobSubmit_of_submits (hc : ClosesFence os w) (hs : Submits os w i fd) :
    ∃ b w', strelaJobSubmit os w.dev.backwardCompatJob w = .ok (b, w') ∧ w'.ok = true ∧
      w'.log = submitLog os i (w.slot i) w.log ∧
      w'.slot i = { w.slot i with phase := .submitted, fenceFd := fd } := by
  obtain ⟨v, ho⟩ := hs.submitted
  obtain ⟨w₂, hacc, hdev, hlog⟩ := submitAccepted_exports hc i
  have hexp : os w₂.log (.handleToFd i (w.slot i).submit.outSyncobj) = .ok fd :=
    hlog ▸ hs.exported
  obtain ⟨hok, hlog', hslot⟩ := submitExport_exported hexp
  refine ⟨(submitExport os i (w.slot i) w₂).ok, submitExport os i (w.slot i) w₂, ?_, ?_, ?_, hslot⟩
  · simp only [strelaJobSubmit, strelaJobSlotGet_of_ok hs.ok hs.valid hs.handle hs.phase, ok_bind]
    rw [ask_eq ho]
    dsimp only
    rw [hacc, ok_bind]
  · rw [hok, World.ok, hdev]
    exact hs.ok
  · rw [hlog', hlog]
    rfl

theorem strelaJobSubmit_of_not_submits (hc : ClosesFence os w)
    (hs : ∀ i fd, ¬ Submits os w i fd) :
    ∃ b w', strelaJobSubmit os w.dev.backwardCompatJob w = .ok (b, w') ∧ w'.ok = false := by
  unfold strelaJobSubmit
  rcases strelaJobSlotGet_cases w.dev.backwardCompatJob submittable w with
    ⟨i, hg, hw, hv, hi, hp⟩ | ⟨w₁, hg, -, hw₁, -⟩
  · rw [hg, ok_bind]
    dsimp only
    cases ho : os w.log (.strelaSubmit i (w.slot i).submit) with
    | error e =>
      rw [ask_eq ho]
      exact ⟨_, _, rfl, not_ok_of_errno _ e⟩
    | ok v =>
      obtain ⟨w₂, hacc, -, hlog⟩ := submitAccepted_exports hc i
      rw [ask_eq ho]
      dsimp only
      rw [hacc, ok_bind]
      refine ⟨_, _, rfl, ?_⟩
      cases he : os w₂.log (.handleToFd i (w.slot i).submit.outSyncobj) with
      | error e => exact submitExport_not_ok he
      | ok fd => exact absurd ⟨hw, hv, hi, hp, ⟨v, ho⟩, hlog ▸ he⟩ (hs i fd)
  · exact ⟨_, w₁, by rw [hg, ok_bind], hw₁⟩

/-! ### The whole -/

/-- If the job is submitted, its fence signals before the wait times out. -/
def SignalsInTime (os : Os) (w : World) : Prop :=
  ∀ i fd, Submits os w i fd →
    os (submitLog os i (w.slot i) w.log) (.poll i fd 2000) ≠ .ok 0

/-- A call that returns, with the result of a job that is not pending. -/
def Finishes (x : Exec (JobState × World)) : Prop :=
  ∃ state w', x = .ok (state, w') ∧ (state = .ok ∨ state = .failed)

def executePoll (os : Os) (job : JobHandle) (w : World) : Exec (JobState × World) := do
  let (state, w) ← strelaJobPoll os job w
  if state ≠ .pending then .ok (state, w) else w.abort

def executeWait (os : Os) (job : JobHandle) (w : World) : Exec (JobState × World) := do
  let (_, w) ← strelaJobWait os job 2000 w
  executePoll os job w

theorem strelaExecute_of_submit {b : Bool}
    (h : strelaJobSubmit os w.dev.backwardCompatJob w = .ok (b, w')) :
    strelaExecute os w = executeWait os w.dev.backwardCompatJob w' := by
  simp only [strelaExecute, h, ok_bind]
  rfl

theorem executePoll_of_not_ok (hw : w.ok = false) : executePoll os job w = .ok (.failed, w) := by
  rw [executePoll, strelaJobPoll_of_not_ok hw]
  rfl

theorem executeWait_of_not_ok (hw : w.ok = false) : executeWait os job w = .ok (.failed, w) := by
  rw [executeWait, strelaJobWait_of_not_ok hw]
  exact executePoll_of_not_ok hw

theorem finishes_failed (w : World) : Finishes (.ok (.failed, w)) := ⟨.failed, w, rfl, .inr rfl⟩

section Driver

variable (hw : w.ok = true) (hv : job.valid = true) (hi : job.handle = i)

include hw hv hi

theorem executeWait_of_update (hp : inDriver (w.slot i).phase = true)
    (hu : strelaJobUpdate os i 2000 w = .ok w') :
    executeWait os job w = executePoll os job w' := by
  rw [executeWait, strelaJobWait_of_update hw hv hi hp hu]
  rfl

/-- Whatever the last look does, it is the phase it leaves the job in that decides. -/
theorem executePoll_finishes_iff (hp : inDriver (w.slot i).phase = true)
    (hu : strelaJobUpdate os i 0 w = .ok w') :
    Finishes (executePoll os job w) ↔ (w'.slot i).phase = .done := by
  rw [executePoll, strelaJobPoll_of_update hw hv hi hp hu, ok_bind]
  constructor
  · rintro ⟨state, w'', h, -⟩
    by_contra hd
    simp [hd, World.abort] at h
  · intro hd
    by_cases hs : (w'.slot i).status > 0
    · exact ⟨.ok, w', by simp [hd, hs], .inl rfl⟩
    · exact ⟨.failed, w', by simp [hd, hs], .inr rfl⟩

/-- A job that is still pending after the wait has its result only if the look after it sees the
fence. -/
theorem executePoll_submitted_iff (hp : (w.slot i).phase = .submitted) :
    Finishes (executePoll os job w) ↔ ∃ status, Seen os w.log i (w.slot i).fenceFd 0 status := by
  have hin : inDriver (w.slot i).phase = true := by rw [hp]; rfl
  constructor
  · intro h
    by_contra hs
    obtain ⟨w', hu, hslot, -⟩ := strelaJobUpdate_unseen hp (not_exists.mp hs)
    have hd := (executePoll_finishes_iff hw hv hi hin hu).mp h
    rw [hslot, hp] at hd
    cases hd
  · rintro ⟨status, hs⟩
    obtain ⟨w', hu, -, hd⟩ := strelaJobUpdate_seen hp hs
    exact (executePoll_finishes_iff hw hv hi hin hu).mpr hd

theorem executeWait_finishes_iff (hp : (w.slot i).phase = .submitted)
    (ht : os w.log (.poll i (w.slot i).fenceFd 2000) ≠ .ok 0) :
    Finishes (executeWait os job w) ↔
      (os w.log (.poll i (w.slot i).fenceFd 2000) = .error eintr →
        ∃ status, Seen os (told os w.log (.poll i (w.slot i).fenceFd 2000)) i
          (w.slot i).fenceFd 0 status) := by
  have hin : inDriver (w.slot i).phase = true := by rw [hp]; rfl
  by_cases hs : ∃ status, Seen os w.log i (w.slot i).fenceFd 2000 status
  · -- The wait sees the fence, and the poll finds the job done.
    obtain ⟨status, hs⟩ := hs
    obtain ⟨w', hu, hok, hd⟩ := strelaJobUpdate_seen hp hs
    have hin' : inDriver (w'.slot i).phase = true := by rw [hd]; rfl
    have hfin : Finishes (executePoll os job w') :=
      (executePoll_finishes_iff (hok.trans hw) hv hi hin' (strelaJobUpdate_done hd)).mpr hd
    rw [executeWait_of_update hw hv hi hin hu]
    refine iff_of_true hfin fun he => ?_
    obtain ⟨ready, hpoll, -⟩ := hs
    cases he.symm.trans hpoll
  · obtain ⟨w', hu, -, ⟨hnot, he⟩ | hz | ⟨he, rfl⟩⟩ := strelaJobUpdate_unseen hp (not_exists.mp hs)
    · rw [executeWait_of_update hw hv hi hin hu, executePoll_of_not_ok hnot]
      exact iff_of_true (finishes_failed w') fun h => absurd h he
    · exact absurd hz ht
    · -- An interrupted wait changes nothing.
      rw [executeWait_of_update hw hv hi hin hu]
      let w₁ := (w.ask os (.poll i (w.slot i).fenceFd 2000)).2
      have hlook : Finishes (executePoll os job w₁) ↔ _ := executePoll_submitted_iff hw hv hi hp
      exact hlook.trans ⟨fun h _ => h, fun h => h he⟩

end Driver

theorem Submits.unique {j : SlotId} {fd' : ℤ} (h : Submits os w i fd) (h' : Submits os w j fd') :
    j = i ∧ fd' = fd := by
  obtain rfl : j = i := Fin.ext (h'.handle.symm.trans h.handle)
  exact ⟨rfl, Except.ok.inj (h'.exported.symm.trans h.exported)⟩

theorem Submits.interrupted_iff (h : Submits os w i fd) :
    Interrupted os w ↔
      os (submitLog os i (w.slot i) w.log) (.poll i fd 2000) = .error eintr ∧
      ∀ status, ¬ Seen os (told os (submitLog os i (w.slot i) w.log) (.poll i fd 2000)) i fd 0
        status := by
  constructor
  · rintro ⟨j, fd', h', hrest⟩
    obtain ⟨rfl, rfl⟩ := h.unique h'
    exact hrest
  · intro hrest
    exact ⟨i, fd, h, hrest⟩

/-- Executing a job whose fence signals in time gives its result exactly if no signal to the process
interrupts the wait, or the look that follows sees the fence. -/
theorem strelaExecute_finishes_iff (hc : ClosesFence os w) (ht : SignalsInTime os w) :
    Finishes (strelaExecute os w) ↔ ¬ Interrupted os w := by
  by_cases hs : ∃ i fd, Submits os w i fd
  · obtain ⟨i, fd, hs⟩ := hs
    obtain ⟨b, w₁, hsub, hok, hlog, hslot⟩ := strelaJobSubmit_of_submits hc hs
    have hphase : (w₁.slot i).phase = .submitted := by rw [hslot]
    have hfd : (w₁.slot i).fenceFd = fd := by rw [hslot]
    have htime : os w₁.log (.poll i (w₁.slot i).fenceFd 2000) ≠ .ok 0 := by
      rw [hlog, hfd]
      exact ht i fd hs
    rw [strelaExecute_of_submit hsub, hs.interrupted_iff,
      executeWait_finishes_iff hok hs.valid hs.handle hphase htime, hlog, hfd, not_and, not_forall]
    simp only [not_not]
  · -- The job is not with the driver, and the device has an error.
    obtain ⟨b, w₁, hsub, hnot⟩ := strelaJobSubmit_of_not_submits hc
      fun i fd h => hs ⟨i, fd, h⟩
    rw [strelaExecute_of_submit hsub, executeWait_of_not_ok hnot]
    refine iff_of_true (finishes_failed w₁) ?_
    rintro ⟨i, fd, h, -⟩
    exact hs ⟨i, fd, h⟩

/-- The wait is interrupted, and the look after it gets the given answer. -/
def interruptingOs (ready : ℤ) : Os
  | _, .poll _ _ timeout => if timeout = 0 then .ok ready else .error eintr
  | _, _ => .ok 1

def oneConfigured : World := failedWorld.setErr 0

theorem closesFence_interruptingOs (ready : ℤ) :
    ClosesFence (interruptingOs ready) oneConfigured := fun _ _ => ⟨1, rfl⟩

theorem signalsInTime_interruptingOs (ready : ℤ) :
    SignalsInTime (interruptingOs ready) oneConfigured := by
  intro i fd _ h
  cases h

theorem submits_oneConfigured (ready : ℤ) :
    Submits (interruptingOs ready) oneConfigured 0 1 where
  ok := rfl
  valid := rfl
  handle := rfl
  phase := rfl
  submitted := ⟨1, rfl⟩
  exported := rfl

/-- The fence had signalled by the time of the interrupt. -/
theorem strelaExecute_finishes_iff_interrupted :
    ClosesFence (interruptingOs 1) oneConfigured ∧
    SignalsInTime (interruptingOs 1) oneConfigured ∧
    Finishes (strelaExecute (interruptingOs 1) oneConfigured) := by
  have hc := closesFence_interruptingOs 1
  have ht := signalsInTime_interruptingOs 1
  refine ⟨hc, ht, (strelaExecute_finishes_iff hc ht).mpr fun h => ?_⟩
  obtain ⟨-, hunseen⟩ := (submits_oneConfigured 1).interrupted_iff.mp h
  exact hunseen 1 ⟨1, rfl, by decide, rfl⟩

/-- It had not, and the assertion fails. -/
theorem strelaExecute_aborts_interrupted :
    ClosesFence (interruptingOs 0) oneConfigured ∧
    SignalsInTime (interruptingOs 0) oneConfigured ∧
    ¬ Finishes (strelaExecute (interruptingOs 0) oneConfigured) := by
  refine ⟨closesFence_interruptingOs 0, signalsInTime_interruptingOs 0, ?_⟩
  rintro ⟨state, w', h, -⟩
  have habort : ∃ log, strelaExecute (interruptingOs 0) oneConfigured = .error log := ⟨_, rfl⟩
  obtain ⟨log, habort⟩ := habort
  cases habort.symm.trans h

end Strela.Lib
