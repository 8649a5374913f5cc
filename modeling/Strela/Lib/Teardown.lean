import Strela.Lib.Results

/-! # The end of a device

`strela_dev_deinit` frees all jobs, removes both mappings and closes the device.
The jobs are freed by a call that does nothing on a device with an error, so that
such a device loses the descriptors in its slots and may be closed under jobs
that still run.
-/

namespace Strela.Lib

open Foundation Strela.Allocator

def kernelMemorySize : ℕ := wordSize * kernelSize * 128

inductive Disposal
  | munmap (base size : ℕ)
  | close (fd : ℤ)
  deriving DecidableEq, Repr

/-- How the system answers them, given all earlier calls. -/
abbrev DisposalOs := List Event → List Disposal → Disposal → Reply

section Deinit

variable (A : Abi) (dos : List Disposal → Disposal → Reply)

def dispose (d : Disposal) (done : List Disposal) : Except (List Disposal) (List Disposal) :=
  match dos done d with
  | .error _ => .error (done ++ [d])
  | .ok _ => .ok (done ++ [d])

def disposeMap (base size : ℕ) (done : List Disposal) : Except (List Disposal) (List Disposal) :=
  if base ≠ 0 ∧ base ≠ mapFailed A then dispose dos (.munmap base size) done else .ok done

def strelaDevDeinitInternal (tensorsBase tensorsSize kernelsBase kernelsSize : ℕ) (deviceFd : ℤ) :
    Except (List Disposal) (List Disposal) := do
  let done ← disposeMap A dos tensorsBase tensorsSize []
  let done ← disposeMap A dos kernelsBase kernelsSize done
  if deviceFd ≠ -1 then dispose dos (.close deviceFd) done else .ok done

end Deinit

def Dev.zero : Dev where
  fd := 0
  tensorsBoHandle := 0
  tensorsBoMap := 0
  kernelsBoHandle := 0
  kernelsBoMap := 0
  backwardCompatJob := .none
  initialized := false
  errnum := 0
  kernelPool := ⟨0, 0, 0, 0⟩
  bufferFreeList := ⟨0, 0, 0, 0, .findFirst⟩
  jobs := fun _ => .zero

/-- The state left, with the parts given back, or the calls made until the program aborts. -/
def strelaDevDeinit (A : Abi) (os : Os) (dos : DisposalOs) (w : World) :
    Except (List Event × List Disposal) (World × List Disposal) :=
  if w.dev.initialized then
    match strelaJobFreeAll os w with
    | .error log => .error (log, [])
    | .ok w =>
      match strelaDevDeinitInternal A (dos w.log) w.dev.tensorsBoMap tensorMemorySize
        w.dev.kernelsBoMap kernelMemorySize w.dev.fd with
      | .error done => .error (w.log, done)
      | .ok done => .ok ({ w with dev := .zero }, done)
  else .ok ({ w with dev := .zero }, [])

/-- Every part of a device was given back once, and its jobs have finished. -/
structure TornDown (status : Statuses) (dev : Dev) (log : List Event) (done : List Disposal) :
    Prop where
  /-- Descriptors were closed only while they were open, each as often as it was exported. -/
  disciplined : Disciplined (fenceLedger log)
  fences : ∀ fd i, (fenceLedger log).count (.take fd i) = (fenceLedger log).count (.give fd i)
  device : done.count (.close dev.fd) = 1
  tensors : done.count (.munmap dev.tensorsBoMap tensorMemorySize) = 1
  kernels : done.count (.munmap dev.kernelsBoMap kernelMemorySize) = 1
  finished : ∀ n < (record log).count, Finished status log n

/-- The device has no error, or else no slot in use has a descriptor or a job still running. -/
def Closable (status : Statuses) (w : World) : Prop :=
  w.ok = true ∨ ∀ i, (w.slot i).phase ≠ .free → (w.slot i).fenceFd = -1 ∧
    ∀ n, (record w.log).latest i = some n → Finished status w.log n

variable {A : Abi} {os : Os} {dos : DisposalOs} {status : Statuses} {w w' : World} {i : SlotId}
  {done : List Disposal}

/-! ## The parts of a device -/

theorem dispose_ok {dos : List Disposal → Disposal → Reply} {d : Disposal} {done' : List Disposal}
    (h : dispose dos d done = .ok done') : done' = done ++ [d] := by
  unfold dispose at h
  split at h
  · cases h
  · exact (Except.ok.inj h).symm

theorem strelaDevDeinitInternal_ok {dos : List Disposal → Disposal → Reply}
    {tensors tensorsSize kernels kernelsSize : ℕ} {fd : ℤ}
    (ht : tensors ≠ 0 ∧ tensors ≠ mapFailed A) (hk : kernels ≠ 0 ∧ kernels ≠ mapFailed A)
    (hfd : fd ≠ -1)
    (h : strelaDevDeinitInternal A dos tensors tensorsSize kernels kernelsSize fd = .ok done) :
    done = [.munmap tensors tensorsSize, .munmap kernels kernelsSize, .close fd] := by
  simp only [strelaDevDeinitInternal, disposeMap, if_pos ht, if_pos hk, if_pos hfd] at h
  cases h₁ : dispose dos (.munmap tensors tensorsSize) [] with
  | error e =>
    rw [h₁] at h
    cases h
  | ok d₁ =>
    rw [h₁] at h
    cases h₂ : dispose dos (.munmap kernels kernelsSize) d₁ with
    | error e =>
      change (dispose dos _ d₁ >>= _) = _ at h
      rw [h₂] at h
      cases h
    | ok d₂ =>
      change (dispose dos _ d₁ >>= _) = _ at h
      rw [h₂] at h
      rw [dispose_ok h, dispose_ok h₂, dispose_ok h₁]
      rfl

/-- What a device was set up with. -/
structure Fixed.SetUp (A : Abi) (f : Fixed) : Prop where
  initialized : f.initialized = true
  fd : f.fd ≠ -1
  tensors : f.tensorsBoMap ≠ 0 ∧ f.tensorsBoMap ≠ mapFailed A
  kernels : f.kernelsBoMap ≠ 0 ∧ f.kernelsBoMap ≠ mapFailed A

theorem setUp_of_reach (h : (devLts A os).Reach w) : w.fixed.SetUp A := by
  refine h.invariant (P := fun w => w.fixed.SetUp A) ?_ ?_
  · exact fun w hw => ⟨hw.initialized, hw.fd, hw.tensors, hw.kernels⟩
  · intro w a w' _ hw hst
    rw [devLts_anchored hst]
    exact ⟨hw.initialized, hw.fd, hw.tensors, hw.kernels⟩

theorem strelaDevDeinit_ok (hw : w.fixed.SetUp A)
    (h : strelaDevDeinit A os dos w = .ok (w', done)) :
    ∃ w₁, strelaJobFreeAll os w = .ok w₁ ∧ w' = { w₁ with dev := .zero } ∧
      done = [.munmap w.dev.tensorsBoMap tensorMemorySize,
        .munmap w.dev.kernelsBoMap kernelMemorySize, .close w.dev.fd] := by
  have hi : w.dev.initialized = true := hw.initialized
  simp only [strelaDevDeinit, hi, if_true] at h
  split at h
  · cases h
  · rename_i w₁ h₁
    have hf : w₁.fixed = w.fixed := (strelaJobFreeAll_releases h₁).1
    have hw₁ : w₁.fixed.SetUp A := hf ▸ hw
    split at h
    · cases h
    · rename_i d hd
      obtain ⟨rfl, rfl⟩ := Prod.mk.inj (Except.ok.inj h)
      have hparts := strelaDevDeinitInternal_ok hw₁.tensors hw₁.kernels hw₁.fd hd
      refine ⟨w₁, h₁, rfl, hparts.trans ?_⟩
      have ht : w₁.dev.tensorsBoMap = w.dev.tensorsBoMap := congrArg Fixed.tensorsBoMap hf
      have hk : w₁.dev.kernelsBoMap = w.dev.kernelsBoMap := congrArg Fixed.kernelsBoMap hf
      have hfd : w₁.dev.fd = w.dev.fd := congrArg Fixed.fd hf
      rw [← ht, ← hk, ← hfd]
      rfl

/-! ## Descriptors and jobs -/

theorem holdsFence_of_eq (hs : FencesOwned w.slots)
    (h : ∀ fd i, (fenceLedger w.log).count (.take fd i) = (fenceLedger w.log).count (.give fd i))
    (hp : (w.slot i).phase ≠ .free) : (w.slot i).fenceFd = -1 := by
  by_contra hfd
  have hh : HoldsFence (w.slots.jobs i) (w.slot i).fenceFd := ⟨hp, rfl, hfd⟩
  have hc : (fenceLedger w.log).count (.take (w.slot i).fenceFd i) =
      (fenceLedger w.log).count (.give (w.slot i).fenceFd i) + 1 := by
    have ht := hs.tallies.count_take (w.slot i).fenceFd i
    rwa [if_pos hh] at ht
  rw [h] at hc
  exact absurd hc (Nat.ne_of_lt (Nat.lt_succ_self _))

theorem fences_of_unfenced (hs : FencesOwned w.slots)
    (h : ∀ i, (w.slot i).phase ≠ .free → (w.slot i).fenceFd = -1) (fd : ℤ) (i : SlotId) :
    (fenceLedger w.log).count (.take fd i) = (fenceLedger w.log).count (.give fd i) := by
  have hc := hs.tallies.count_take fd i
  rw [if_neg] at hc
  · exact hc
  · rintro ⟨hp, rfl, hfd⟩
    exact hfd (h i hp)

/-- The slots alone decide whether descriptors and jobs are left. -/
theorem settled_iff (hos : Signals os status) (hs : Tracked status w.slots)
    (hc : Careful status w.log) :
    ((∀ fd i, (fenceLedger w.log).count (.take fd i) = (fenceLedger w.log).count (.give fd i)) ∧
      ∀ n < (record w.log).count, Finished status w.log n) ↔
    ∀ i, (w.slot i).phase ≠ .free → (w.slot i).fenceFd = -1 ∧
      ∀ n, (record w.log).latest i = some n → Finished status w.log n := by
  constructor
  · rintro ⟨hf, hn⟩ i hp
    refine ⟨holdsFence_of_eq hs.fences hf hp, fun n hl => hn n ?_⟩
    have ha : SlotAttributed status w.log i (w.slot i) := hs.attributed i
    cases hin : inDriver (w.slot i).phase with
    | false =>
      rw [ha.idle hin] at hl
      cases hl
    | true =>
      obtain ⟨m, hm, hst⟩ := ha.running hin
      obtain rfl : m = n := Option.some.inj (hm.symm.trans hl)
      exact (record_lt w.log).1 _ _ hst
  · intro h
    refine ⟨fences_of_unfenced hs.fences fun i hp => (h i hp).1, fun n hn => ?_⟩
    rcases hc.accounted hos hn with hfin | ⟨i, hi⟩
    · exact hfin
    · refine (h i fun hp => ?_).2 n hi
      have hidle : (record w.log).latest i = none :=
        (hs.attributed i).idle (by rw [show (w.slots.jobs i).phase = _ from hp]; rfl)
      rw [hidle] at hi
      cases hi

theorem tornDown_iff (hs : FencesOwned w.slots) {dev : Dev}
    (hdone : done = [.munmap dev.tensorsBoMap tensorMemorySize,
      .munmap dev.kernelsBoMap kernelMemorySize, .close dev.fd]) :
    TornDown status dev w.log done ↔
      (∀ fd i, (fenceLedger w.log).count (.take fd i) = (fenceLedger w.log).count (.give fd i)) ∧
        ∀ n < (record w.log).count, Finished status w.log n := by
  constructor
  · exact fun h => ⟨h.fences, h.finished⟩
  · rintro ⟨hf, hn⟩
    have hne : kernelMemorySize ≠ tensorMemorySize := by decide
    refine ⟨hs.tallies.disciplined, hf, ?_, ?_, ?_, hn⟩
    · simp [hdone]
    · simp [hdone, hne]
    · simp [hdone, hne.symm]

/-- After every run without a resubmission in vain, the end of a device gives back all it has
exactly if it is called without an error, or with nothing left in the slots. -/
theorem reach_tornDown (hos : Signals os status)
    (h : ((devLts A os).restrict (DevAction.Keeps os)).Reach w)
    (hd : strelaDevDeinit A os dos w = .ok (w', done)) :
    TornDown status w.dev w'.log done ↔ Closable status w := by
  obtain ⟨hs, hc⟩ := tracked_of_reach hos h
  obtain ⟨w₁, h₁, rfl, hdone⟩ := strelaDevDeinit_ok (setUp_of_reach h.of_restrict) hd
  have hs₁ : Tracked status w₁.slots := hs.of_tracks hos (strelaJobFreeAll_tracks w) h₁
  have hc₁ : Careful status w₁.log := ((strelaJobFreeAll_cares hos hs).careful hc).1 w₁ h₁
  have hiff := (tornDown_iff hs₁.fences hdone).trans (settled_iff hos hs₁ hc₁)
  obtain ⟨-, -, hfree, hsame⟩ := strelaJobFreeAll_releases h₁
  refine hiff.trans ?_
  cases hok : w.ok with
  | true => exact iff_of_true (fun i hp => absurd (hfree hok i) hp) (.inl hok)
  | false =>
    obtain rfl := hsame hok
    rw [Closable, hok]
    simp

/-- A device on which a job was submitted and a call was then refused. -/
def abandoned : World :=
  ((readyWorld.promptly (.jobConfig ⟨true, 0⟩ emptyConf)).promptly
    (.jobSubmit ⟨true, 0⟩)).promptly (.jobFree ⟨true, 16⟩)

def willingOs : DisposalOs := fun _ _ _ => .ok 0

theorem reach_abandoned : (devLts Abi.arm32 promptOs).Reach abandoned := by
  have h₁ := reach_promptly (.start fresh_readyWorld) (c := .jobConfig ⟨true, 0⟩ emptyConf) rfl
  have h₂ := reach_promptly h₁ (c := .jobSubmit ⟨true, 0⟩) rfl
  exact reach_promptly h₂ rfl

theorem deinit_promptly {w : World} (hok : (strelaDevDeinit Abi.arm32 promptOs willingOs w).isOk) :
    ∃ w' done, strelaDevDeinit Abi.arm32 promptOs willingOs w = .ok (w', done) := by
  cases hx : strelaDevDeinit Abi.arm32 promptOs willingOs w with
  | error e =>
    rw [hx] at hok
    cases hok
  | ok p => exact ⟨p.1, p.2, rfl⟩

/-- Without an error, the device of a job that ran twice is torn down. -/
theorem reach_tornDown_resubmitted : ∃ w' done,
    strelaDevDeinit Abi.arm32 promptOs willingOs resubmitted = .ok (w', done) ∧
      TornDown promptStatus resubmitted.dev w'.log done := by
  obtain ⟨w', done, hd⟩ := deinit_promptly (w := resubmitted) rfl
  refine ⟨w', done, hd, (reach_tornDown promptOs_signals ?_ hd).mpr (.inl rfl)⟩
  exact reach_resubmitted.restrict promptOs_exports.keeps

/-- With an error, the descriptor of the submitted job is never closed. -/
theorem not_tornDown_abandoned :
    ¬ ∀ (A : Abi) (os : Os) (dos : DisposalOs) (status : Statuses) (w w' : World)
      (done : List Disposal), Signals os status → (devLts A os).Reach w →
      strelaDevDeinit A os dos w = .ok (w', done) → TornDown status w.dev w'.log done := by
  intro h
  have hd : ∃ done, strelaDevDeinit Abi.arm32 promptOs willingOs abandoned =
      .ok ({ abandoned with dev := .zero }, done) := ⟨_, rfl⟩
  obtain ⟨done, hd⟩ := hd
  have ht := h _ _ _ _ _ _ _ promptOs_signals reach_abandoned hd
  have hf := ht.fences 3 0
  revert hf
  decide

end Strela.Lib
