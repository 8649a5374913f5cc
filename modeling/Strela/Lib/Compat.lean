import Strela.Lib.Device

/-! # The job of `strela_config`

`strela_config` keeps the handle of the job it configured and frees it before it
configures the next. The handle is a bare index, and four calls leave it behind:
the two that empty every slot, a caller's `strela_job_free` of the same index,
and `strela_config` itself on a device with an error, which frees nothing and
forgets the handle. In every run without them the handle is that of the one slot
that `strela_config` has filled.
-/

namespace Strela.Lib

open Foundation Strela.Allocator

/-- A device, the slots whose job is one of `strela_config`, and the slot that its last successful
call filled. -/
structure ConfigState where
  world : World
  filled : ℕ → Bool
  last : Option ℕ

namespace ConfigState

def compat (s : ConfigState) : JobHandle := s.world.dev.backwardCompatJob

def note (os : Os) (s : ConfigState) (w : World) : DevAction → ConfigState
  | .lib (.call (.config _ _)) =>
    let job := w.dev.backwardCompatJob
    if job.valid then ⟨w, Function.update s.filled job.handle true, some job.handle⟩
    else { s with world := w }
  | .lib (.call (.jobConfig kernel conf)) =>
    match strelaJobConfig os kernel conf s.world with
    | .ok (job, _) =>
      if job.valid then { s with world := w, filled := Function.update s.filled job.handle false }
      else { s with world := w }
    | .error _ => { s with world := w }
  | _ => { s with world := w }

/-- A slot in use whose job is one of `strela_config`. -/
def Filled (s : ConfigState) (i : SlotId) : Prop :=
  (s.world.slot i).phase ≠ .free ∧ s.filled i = true

end ConfigState

def configLts (A : Abi) (os : Os) : Lts ConfigState DevAction where
  start s := Fresh A s.world ∧ s.filled = (fun _ => false) ∧ s.last = none
  step s a s' := (devLts A os).step s.world a s'.world ∧ s' = s.note os s'.world a

/-- The handle is invalid or that of the slot the last successful `strela_config` filled, and no
other slot holds such a job. -/
structure OwnsOne (s : ConfigState) : Prop where
  names : s.compat.valid = true →
    ∃ i : SlotId, s.compat.handle = i ∧ s.Filled i ∧ s.last = some i.val
  only : ∀ i, s.Filled i → s.compat.valid = true ∧ s.compat.handle = i

/-- The actions that do not leave the handle behind. -/
def DevAction.Tends (w : World) : DevAction → Prop
  | .lib (.call (.jobFree job)) => w.dev.backwardCompatJob.valid = true → w.ok = true →
      job.valid = true → job.handle ≠ w.dev.backwardCompatJob.handle
  | .lib (.call .jobFreeAll) => w.dev.backwardCompatJob.valid = true → w.ok = false
  | .lib (.call (.config _ _)) => w.dev.backwardCompatJob.valid = true → w.ok = true
  | .init => w.dev.backwardCompatJob.valid = false
  | _ => True

variable {A : Abi} {os : Os} {s s' : ConfigState} {w w' : World} {i j : SlotId}

/-! ## Steps -/

theorem Filled.of_eq (h : w.slot i = s.world.slot i) :
    ConfigState.Filled { s with world := w } i ↔ s.Filled i := by
  simp only [ConfigState.Filled, h]

theorem used_of_uses (h : w'.uses = w.uses) (i : SlotId) :
    (w'.slot i).phase = .free ↔ (w.slot i).phase = .free := by
  have hi : w'.freeSlots i = w.freeSlots i := congrFun (congrArg Prod.snd h) i
  simpa [World.freeSlots] using congrArg (· = true) hi

theorem OwnsOne.of_uses (hs : OwnsOne s) (h : w.uses = s.world.uses) :
    OwnsOne { s with world := w } := by
  have hc : w.dev.backwardCompatJob = s.compat := congrArg Fixed.backwardCompatJob (fixed_of_uses h)
  have hf (i : SlotId) : ConfigState.Filled { s with world := w } i ↔ s.Filled i :=
    and_congr_left fun _ => not_congr (used_of_uses h i)
  constructor
  · intro hv
    change w.dev.backwardCompatJob.valid = true at hv
    rw [hc] at hv
    obtain ⟨i, hi, hfi, hl⟩ := hs.names hv
    exact ⟨i, by rw [ConfigState.compat, hc, hi], (hf i).mpr hfi, hl⟩
  · intro i hi
    change w.dev.backwardCompatJob.valid = true ∧ w.dev.backwardCompatJob.handle = i
    rw [hc]
    exact hs.only i ((hf i).mp hi)

theorem OwnsOne.of_freed (hs : OwnsOne s) (hf : w.fixed = s.world.fixed)
    (hslot : ∀ i, (w.slot i).phase = .free ∨ w.slot i = s.world.slot i)
    (hkeep : s.compat.valid = true →
      ∀ i : SlotId, s.compat.handle = i → w.slot i = s.world.slot i) :
    OwnsOne { s with world := w } := by
  have hc : w.dev.backwardCompatJob = s.compat := congrArg Fixed.backwardCompatJob hf
  constructor
  · intro hv
    change w.dev.backwardCompatJob.valid = true at hv
    rw [hc] at hv
    obtain ⟨i, hi, hfi, hl⟩ := hs.names hv
    exact ⟨i, by rw [ConfigState.compat, hc, hi], (Filled.of_eq (hkeep hv i hi)).mpr hfi, hl⟩
  · intro i hi
    change w.dev.backwardCompatJob.valid = true ∧ w.dev.backwardCompatJob.handle = i
    rw [hc]
    rcases hslot i with hfree | heq
    · exact absurd hfree hi.1
    · exact hs.only i ((Filled.of_eq heq).mp hi)

theorem OwnsOne.jobConfig {kernel : Kernel} {conf : Conf} {job : JobHandle} (hs : OwnsOne s)
    (h : strelaJobConfig os kernel conf s.world = .ok (job, w)) :
    OwnsOne (s.note os w (.lib (.call (.jobConfig kernel conf)))) := by
  obtain ⟨hf, hd, ⟨i, rfl, hfree, -, hother⟩ | ⟨rfl, hj⟩⟩ := strelaJobConfig_fills h
  · simp only [ConfigState.note, h, if_true]
    have hc : w.dev.backwardCompatJob = s.compat := congrArg Fixed.backwardCompatJob hf
    have hfilled {j : SlotId} (hj : j ≠ i) : ConfigState.Filled
        { s with world := w, filled := Function.update s.filled i false } j ↔ s.Filled j := by
      have hne : (j : ℕ) ≠ i := fun h => hj (Fin.ext h)
      simp only [ConfigState.Filled, hother j hj, Function.update_of_ne hne]
    constructor
    · intro hv
      change w.dev.backwardCompatJob.valid = true at hv
      rw [hc] at hv
      obtain ⟨j, hj, hfj, hl⟩ := hs.names hv
      have hji : j ≠ i := by
        rintro rfl
        exact hfj.1 hfree
      exact ⟨j, by rw [ConfigState.compat, hc, hj], (hfilled hji).mpr hfj, hl⟩
    · intro j hj
      change w.dev.backwardCompatJob.valid = true ∧ w.dev.backwardCompatJob.handle = j
      rw [hc]
      have hji : j ≠ i := by
        rintro rfl
        simp [ConfigState.Filled] at hj
      exact hs.only j ((hfilled hji).mp hj)
  · simp only [ConfigState.note, h, JobHandle.none, Bool.false_eq_true, if_false]
    exact hs.of_uses (uses_of_table (Prod.ext (Prod.ext hf hd) hj))

/-- With no job of its own about, `strela_config` owns the one it configures. -/
theorem OwnsOne.reconfigured {kernel : Kernel} {conf : Conf} {job : JobHandle} {w₁ w₂ : World}
    (hnone : ∀ i, (w₁.slot i).phase ≠ .free → s.filled i = false)
    (h : strelaJobConfig os kernel conf w₁ = .ok (job, w₂)) :
    OwnsOne (s.note os { w₂ with dev := { w₂.dev with backwardCompatJob := job } }
      (.lib (.call (.config kernel conf)))) := by
  obtain ⟨-, -, ⟨i, rfl, -, hused, hother⟩ | ⟨rfl, hjobs⟩⟩ := strelaJobConfig_fills h
  · simp only [ConfigState.note, if_true]
    constructor
    · intro _
      exact ⟨i, rfl, ⟨hused, by simp⟩, rfl⟩
    · intro j hj
      refine ⟨rfl, ?_⟩
      by_contra hne
      have hji : j ≠ i := by
        rintro rfl
        exact hne rfl
      have hval : (j : ℕ) ≠ i := fun h => hji (Fin.ext h)
      have hu : (w₁.slot j).phase ≠ .free := by
        rw [← hother j hji]
        exact hj.1
      have hf : s.filled j = true := by simpa [Function.update_of_ne hval] using hj.2
      rw [hnone j hu] at hf
      cases hf
  · simp only [ConfigState.note, JobHandle.none, Bool.false_eq_true, if_false]
    constructor
    · intro hv
      cases hv
    · intro j hj
      have hu : (w₁.slot j).phase ≠ .free := by
        rw [World.slot, ← hjobs]
        exact hj.1
      have hf := hnone j hu
      rw [show s.filled j = true from hj.2] at hf
      cases hf

theorem OwnsOne.config {kernel : Kernel} {conf : Conf} (hs : OwnsOne s)
    (hc : s.compat.valid = true → s.world.ok = true)
    (h : strelaConfig os kernel conf s.world = .ok w) :
    OwnsOne (s.note os w (.lib (.call (.config kernel conf)))) := by
  obtain ⟨w₁, job, w₂, h₁, h₂, rfl⟩ := strelaConfig_cases h
  refine OwnsOne.reconfigured (fun i hi => ?_) h₂
  by_contra hfi
  rw [Bool.not_eq_false] at hfi
  split at h₁
  · rename_i hv
    obtain ⟨k, hk, -, -⟩ := hs.names hv
    rcases strelaJobFree_cases h₁ with ⟨l, -, -, hl, hr⟩ | ⟨hbad, -⟩
    · -- The handle named the slot just emptied, and no other holds a job of `strela_config`.
      by_cases hil : i = l
      · subst hil
        exact hi hr.freed
      · rw [hr.other i hil] at hi
        exact hil (Fin.ext ((hs.only i ⟨hi, hfi⟩).2.symm.trans hl))
    · have := hbad (hc hv) hv
      have := k.isLt
      have : s.world.dev.backwardCompatJob.handle = k := hk
      omega
  · rename_i hv
    obtain rfl := Except.ok.inj h₁
    exact hv (hs.only i ⟨hi, hfi⟩).1

theorem OwnsOne.step {a : DevAction} (hs : OwnsOne s) (hi : s.world.dev.initialized = true)
    (ha : a.Tends s.world) (h : (configLts A os).step s a s') : OwnsOne s' := by
  obtain ⟨h, hn⟩ := h
  rw [hn]
  generalize s'.world = w at h
  cases a with
  | init =>
    obtain ⟨hf, hfree⟩ := strelaDevInit_releases h
    refine hs.of_freed hf (fun i => .inl (hfree hi i)) fun hc => ?_
    rw [show s.compat.valid = false from ha] at hc
    cases hc
  | lib a =>
    cases a with
    | resetErr =>
      obtain rfl : w = strelaDevResetErr s.world := h
      refine hs.of_uses ?_
      unfold strelaDevResetErr
      split <;> rfl
    | call c =>
      cases c with
      | jobConfig kernel conf =>
        obtain ⟨⟨job, w₁⟩, h₁, rfl⟩ := map_eq_ok h
        exact hs.jobConfig h₁
      | jobFree job =>
        rcases strelaJobFree_cases h with ⟨i, hok, hv, hi, hr⟩ | ⟨-, ht⟩
        · refine hs.of_freed hr.fixed (fun j => ?_) fun hc j hj => ?_
          · by_cases hji : j = i
            · exact .inl (hji ▸ hr.freed)
            · exact .inr (hr.other j hji)
          · refine hr.other j fun hji => ha hc hok hv ?_
            rw [hi, ← hji]
            exact hj.symm
        · exact hs.of_uses (uses_of_table ht)
      | jobFreeAll =>
        obtain ⟨hf, -, hfree, hsame⟩ := strelaJobFreeAll_releases h
        cases hok : s.world.ok with
        | true =>
          refine hs.of_freed hf (fun i => .inl (hfree hok i)) fun hc => ?_
          rw [ha hc] at hok
          cases hok
        | false =>
          obtain rfl := hsame hok
          exact hs
      | config kernel conf => exact hs.config ha h
      | _ => exact hs.of_uses (exec_uses rfl h)

theorem not_ownsOne_of_free (hc : s'.compat = s.compat) (hv : s.compat.valid = true)
    (hfree : ∀ i : SlotId, s.compat.handle = i → (s'.world.slot i).phase = .free) :
    ¬ OwnsOne s' := by
  intro hs'
  obtain ⟨i, hi, hfi, -⟩ := hs'.names (hc ▸ hv)
  exact hfi.1 (hfree i (hc ▸ hi))

/-- Every action that leaves the handle behind breaks the account. -/
theorem OwnsOne.not_step {a : DevAction} (hs : OwnsOne s) (hi : s.world.dev.initialized = true)
    (ha : ¬ a.Tends s.world) (h : (configLts A os).step s a s') : ¬ OwnsOne s' := by
  obtain ⟨h, hn⟩ := h
  rw [hn]
  generalize s'.world = w at h
  cases a with
  | init =>
    obtain ⟨hf, hfree⟩ := strelaDevInit_releases h
    have hv : s.compat.valid = true := by simpa [DevAction.Tends, ConfigState.compat] using ha
    exact not_ownsOne_of_free (congrArg Fixed.backwardCompatJob hf) hv fun i _ => hfree hi i
  | lib a =>
    cases a with
    | resetErr => exact absurd trivial ha
    | call c =>
      cases c with
      | jobFree job =>
        simp only [DevAction.Tends, Classical.not_imp, not_not] at ha
        obtain ⟨hv, hok, hjv, hj⟩ := ha
        rcases strelaJobFree_cases h with ⟨i, -, -, hi, hr⟩ | ⟨hbad, -⟩
        · refine not_ownsOne_of_free (congrArg Fixed.backwardCompatJob hr.fixed) hv fun k hk => ?_
          obtain rfl : i = k := Fin.ext (hi.symm.trans (hj.trans hk))
          exact hr.freed
        · obtain ⟨k, hk, -⟩ := hs.names hv
          have := hbad hok hjv
          have := k.isLt
          have : s.world.dev.backwardCompatJob.handle = k := hk
          omega
      | jobFreeAll =>
        simp only [DevAction.Tends, Classical.not_imp, Bool.not_eq_false] at ha
        obtain ⟨hf, -, hfree, -⟩ := strelaJobFreeAll_releases h
        exact not_ownsOne_of_free (congrArg Fixed.backwardCompatJob hf) ha.1 fun i _ => hfree ha.2 i
      | config kernel conf =>
        simp only [DevAction.Tends, Classical.not_imp, Bool.not_eq_true] at ha
        obtain ⟨k, -, hfk, -⟩ := hs.names ha.1
        have hlost : strelaConfig os kernel conf s.world = _ := strelaConfig_of_not_ok ha.2 ..
        obtain rfl := Except.ok.inj (hlost.symm.trans h)
        exact fun hs' => absurd (hs'.only k hfk).1 Bool.false_ne_true
      | _ => exact absurd trivial ha

/-! ## Runs -/

theorem ownsOne_of_reach
    (h : ((configLts A os).restrict fun s a => a.Tends s.world).Reach s) :
    OwnsOne s ∧ s.world.dev.initialized = true := by
  refine h.invariant (P := fun s => OwnsOne s ∧ s.world.dev.initialized = true) ?_ ?_
  · rintro s ⟨hw, hf, -⟩
    refine ⟨⟨fun hv => ?_, fun i hi => ?_⟩, hw.initialized⟩
    · rw [ConfigState.compat, hw.compat] at hv
      cases hv
    · exact absurd (by rw [hw.slots i]; rfl) hi.1
  · rintro s a s' - ⟨hs, hi⟩ ⟨ha, hst⟩
    exact ⟨hs.step hi ha hst, (congrArg Fixed.initialized (devLts_anchored hst.1)).trans hi⟩

/-- `strela_config` touches no slot that holds a job of another call. -/
theorem OwnsOne.config_other {kernel : Kernel} {conf : Conf} (hs : OwnsOne s)
    (h : strelaConfig os kernel conf s.world = .ok w) (hu : (s.world.slot i).phase ≠ .free)
    (hf : s.filled i = false) : w.slot i = s.world.slot i := by
  obtain ⟨w₁, job, w₂, h₁, h₂, rfl⟩ := strelaConfig_cases h
  have hi₁ : w₁.slot i = s.world.slot i := by
    split at h₁
    · rename_i hv
      rcases strelaJobFree_cases h₁ with ⟨k, -, -, hk, hr⟩ | ⟨-, ht⟩
      · obtain ⟨l, hl, hfl, -⟩ := hs.names hv
        refine hr.other i fun hik => ?_
        obtain rfl : k = l := Fin.ext (hk.symm.trans hl)
        have hfilled : s.filled k = true := hfl.2
        rw [hik, hfilled] at hf
        cases hf
      · exact congrFun (congrArg Prod.snd ht) i
    · obtain rfl := Except.ok.inj h₁
      rfl
  have hi₂ : w₂.slot i = w₁.slot i := by
    obtain ⟨-, -, ⟨k, -, hfree, -, hother⟩ | ⟨-, hj⟩⟩ := strelaJobConfig_fills h₂
    · refine hother i fun hik => hu ?_
      rw [← hi₁, hik]
      exact hfree
    · exact congrFun hj i
  exact hi₂.trans hi₁

/-- In every run whose actions leave the handle of `strela_config` behind in no slot, it owns the
one slot the handle names: it never takes a caller's slot nor holds two. The next action keeps it
so exactly if it is no such action either. -/
theorem reach_ownsOne (h : ((configLts A os).restrict fun s a => a.Tends s.world).Reach s) :
    OwnsOne s ∧ (∀ i j, s.Filled i → s.Filled j → i = j) ∧
    (∀ kernel conf s', (configLts A os).step s (.lib (.call (.config kernel conf))) s' →
      ∀ i, (s.world.slot i).phase ≠ .free → s.filled i = false →
        s'.world.slot i = s.world.slot i) ∧
    ∀ a s', (configLts A os).step s a s' → (OwnsOne s' ↔ a.Tends s.world) := by
  obtain ⟨hs, hi⟩ := ownsOne_of_reach h
  refine ⟨hs, fun i j hfi hfj => ?_, fun kernel conf s' hst i hu hf => ?_, fun a s' hst => ?_⟩
  · exact Fin.ext ((hs.only i hfi).2.symm.trans (hs.only j hfj).2)
  · exact hs.config_other hst.1 hu hf
  · constructor
    · intro hs'
      by_contra ha
      exact hs.not_step hi ha hst hs'
    · exact fun ha => hs.step hi ha hst

/-- A system on which every call succeeds. -/
def calmOs : Os := fun _ _ => .ok 1

def readyConfig : ConfigState := ⟨readyWorld, fun _ => false, none⟩

def onceConfigured : World :=
  match strelaConfig calmOs ⟨true, 0⟩ emptyConf readyWorld with
  | .ok w => w
  | .error _ => readyWorld

theorem reach_onceConfigured :
    ((configLts Abi.arm32 calmOs).restrict fun s a => a.Tends s.world).Reach
    ⟨onceConfigured, Function.update (fun _ => false) 0 true, some 0⟩ := by
  refine .step (s := readyConfig) (a := .lib (.call (.config ⟨true, 0⟩ emptyConf)))
    (.start ⟨fresh_readyWorld, rfl, rfl⟩) ⟨?_, rfl, rfl⟩
  intro hv
  cases hv

theorem reach_ownsOne_onceConfigured : onceConfigured.dev.backwardCompatJob = ⟨true, 0⟩ ∧
    OwnsOne ⟨onceConfigured, Function.update (fun _ => false) 0 true, some 0⟩ :=
  ⟨rfl, (reach_ownsOne reach_onceConfigured).1⟩

/-- The device after `strela_job_free_all` has emptied the slot of `strela_config`. -/
def freedAll : World :=
  match strelaJobFreeAll calmOs onceConfigured with
  | .ok w => w
  | .error _ => readyWorld

theorem reach_freedAll : (configLts Abi.arm32 calmOs).Reach
    ⟨freedAll, Function.update (fun _ => false) 0 true, some 0⟩ :=
  .step (a := .lib (.call .jobFreeAll)) reach_onceConfigured.of_restrict ⟨rfl, rfl⟩

/-- `strela_job_free_all` empties the slot and keeps the handle valid. -/
theorem not_ownsOne_freedAll :
    ¬ ∀ (A : Abi) (os : Os) (s : ConfigState), (configLts A os).Reach s → OwnsOne s := by
  intro h
  obtain ⟨i, hi, hfi, -⟩ := (h _ _ _ reach_freedAll).names rfl
  obtain rfl : i = 0 := Fin.ext hi.symm
  exact hfi.1 rfl

end Strela.Lib
