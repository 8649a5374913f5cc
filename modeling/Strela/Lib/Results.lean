import Strela.Lib.Submissions
import Strela.Lib.Device

/-! # Results of jobs

What the library reports of a job is the result of its last submission, and a
slot gives up its submission only once that has finished: it is submitted again
when it was seen done, and released after a wait. All this holds in every run in
which no resubmission loses its descriptor, in particular if exports never fail.
-/

namespace Strela.Lib

open Foundation Strela.Allocator Relation

/-- A call after which no slot has given up a submission that is not finished. -/
def Tended (status : Statuses) (log : List Event) (e : Event) : Prop :=
  ∀ i n, (record log).latest i = some n → (record (log ++ [e])).latest i ≠ some n →
    Finished status log n

/-- Slots give up their submissions only once these have finished. -/
def Careful (status : Statuses) : List Event → Prop := Throughout (Tended status)

variable {A : Abi} {os : Os} {status : Statuses} {s s' : Slots} {w w' : World} {i : SlotId}
  {log log' : List Event} {e : Event} {r : Request} {n : ℕ}

theorem tended_of_latest (h : ((record log).note e).latest = (record log).latest) :
    Tended status log e := by
  intro i n hn hne
  rw [record_concat, h] at hne
  exact absurd hn hne

theorem tended_of_finished
    (h : ∀ j, j ≠ i → ((record log).note e).latest j = (record log).latest j)
    (hi : ∀ n, (record log).latest i = some n → Finished status log n) : Tended status log e := by
  intro j n hn hne
  rcases eq_or_ne j i with rfl | hj
  · exact hi n hn
  · rw [record_concat, h j hj] at hne
    exact absurd hn hne

theorem Careful.tell (hc : Careful status s.log) (h : Tended status s.log ⟨r, os s.log r⟩) :
    Careful status (s.tell os r).log :=
  throughout_concat.mpr ⟨hc, h⟩

theorem Careful.finished (hos : Signals os status) {l : List Event} (hl : log <+: l)
    (hc : Careful status l) (hn : (record log).latest i = some n)
    (hne : (record l).latest i ≠ some n) : Finished status l n := by
  obtain ⟨es, rfl⟩ := hl
  induction es using List.reverseRecOn with
  | nil =>
    rw [List.append_nil] at hne
    exact absurd hn hne
  | append_singleton es e ih =>
    rw [← List.append_assoc] at hc hne ⊢
    obtain ⟨hc, he⟩ := throughout_concat.mp hc
    apply hos.finished
    by_cases hlatest : (record (log ++ es)).latest i = some n
    · exact he i n hlatest hne
    · exact ih hc hlatest

/-- Every submission has finished or is the last of a slot. -/
theorem Careful.accounted (hos : Signals os status) (hc : Careful status log)
    (hn : n < (record log).count) :
    Finished status log n ∨ ∃ i, (record log).latest i = some n := by
  induction log using List.reverseRecOn with
  | nil => cases hn
  | append_singleton log e ih =>
    obtain ⟨hc, he⟩ := throughout_concat.mp hc
    by_cases hold : n < (record log).count
    · rcases ih hc hold with hf | ⟨i, hi⟩
      · exact .inl (hos.finished hf)
      · by_cases hkept : (record (log ++ [e])).latest i = some n
        · exact .inr ⟨i, hkept⟩
        · exact .inl (hos.finished (he i n hi hkept))
    · -- The call is the submission itself.
      rw [record_concat] at hn ⊢
      rcases e with ⟨request, reply⟩
      cases request <;> cases reply <;> try exact absurd hn hold
      rename_i i args v
      have hc : (record log).count = n := by
        have : n < (record log).count + 1 := hn
        omega
      exact .inr ⟨i, by simp [Record.note, hc]⟩

/-! ## Steps of the table -/

/-- A job is submitted again only after its last submission. -/
theorem Tracked.careful_submitted (os : Os) (hs : Tracked status s) (hc : Careful status s.log)
    (hp : (s.jobs i).phase = .configured ∨ (s.jobs i).phase = .done) :
    Careful status (s.submitted os i).log := by
  refine hc.tell (tended_of_finished (i := i) (fun j hj => ?_) fun n hn => ?_)
  · cases os s.log (s.submitRequest i) with
    | error e => rfl
    | ok v => exact Function.update_of_ne hj _ _
  · rcases hp with hp | hp
    · rw [(hs.attributed i).idle (by rw [hp]; rfl)] at hn
      cases hn
    · exact Option.isSome_iff_exists.mpr ⟨_, (hs.attributed i).result n hp hn⟩

theorem latest_export (R : Record) (h : U32) (x : Reply) :
    (R.note ⟨.handleToFd i h, x⟩).latest = R.latest := by
  cases x <;> rfl

theorem latest_info (R : Record) (fd : ℤ) (x : Reply) :
    (R.note ⟨.fileInfo i fd, x⟩).latest = R.latest := by
  cases x <;> rfl

theorem Tracked.careful_step (hs : Tracked status s) (hc : Careful status s.log)
    (h : SlotStep os False s s') (hd : (destroys s'.log).length = (destroys s.log).length) :
    Careful status s'.log := by
  cases h with
  | synced => exact hc.tell (tended_of_latest rfl)
  | createFailed h => exact hc.tell (tended_of_latest (by rw [h]; rfl))
  | @configured i h slot hp hr _ _ _ =>
    refine hc.tell (tended_of_finished (i := i) (fun j hj => ?_) fun n hn => ?_)
    · rw [hr]
      exact Function.update_of_ne hj _ _
    · rw [(hs.attributed i).idle (by rw [hp]; rfl)] at hn
      cases hn
  | submitFailed _ h => exact hc.tell (tended_of_latest (by rw [h]; rfl))
  | accepted hp _ _ | unexported hp _ _ =>
    exact (hs.careful_submitted os hc (.inl hp)).tell (tended_of_latest (latest_export ..))
  | reclaimed hp _ =>
    exact (hs.careful_submitted os hc (.inr hp)).tell (tended_of_latest rfl)
  | exported _ _ _ => exact hc.tell (tended_of_latest (latest_export ..))
  | lost hf => exact hf.elim
  | polled _ => exact hc.tell (tended_of_latest rfl)
  | uninspected _ _ _ _ | completed _ _ _ _ =>
    exact (hc.tell (tended_of_latest rfl)).tell (tended_of_latest (latest_info ..))
  | waited _ => exact hc.tell (tended_of_latest rfl)
  | closed _ _ => exact hc.tell (tended_of_latest rfl)
  | destroyed _ _ => simp [destroys, Slots.tell, Slots.set, Request.IsDestroy] at hd
  | emptied _ _ _ => exact hc

theorem SlotStep.log_prefix {stale : Prop} (h : SlotStep os stale s s') : s.log <+: s'.log := by
  cases h <;> simp [Slots.set, Slots.tell, Slots.submitted, Slots.reclaimed]

theorem log_prefix_of_tracks {stale : Prop} (h : ReflTransGen (SlotStep os stale) s s') :
    s.log <+: s'.log := by
  induction h with
  | refl => exact List.prefix_rfl
  | tail _ hst ih => exact ih.trans hst.log_prefix

theorem destroys_mono (h : log <+: log') : (destroys log).length ≤ (destroys log').length :=
  (h.filter _).length_le

theorem Tracked.careful_of_tracks (hos : Signals os status) (hs : Tracked status s)
    (hc : Careful status s.log) (ht : ReflTransGen (SlotStep os False) s s')
    (hd : destroys s'.log = destroys s.log) : Careful status s'.log := by
  have key : Tracked status s' ∧
      ((destroys s'.log).length = (destroys s.log).length → Careful status s'.log) := by
    clear hd
    induction ht with
    | refl => exact ⟨hs, fun _ => hc⟩
    | tail hrun hst ih =>
      refine ⟨ih.1.step hos hst, fun hlen => ?_⟩
      have h₁ := destroys_mono (log_prefix_of_tracks hrun)
      have h₂ := destroys_mono hst.log_prefix
      exact ih.1.careful_step (ih.2 (by omega)) hst (by omega)
  exact key.2 (by rw [hd])

/-! ## Releases -/

/-- A program run on the given state gives up no submission before it has finished. -/
abbrev Cares (status : Statuses) (w : World) : Exec World → Prop :=
  Follows (fun log log' => ∃ e, log' = log ++ [e] ∧ Tended status log e)
    (fun log log' => log' = log) World.log w.log

theorem askOrAbort_cares (h : Tended status w.log ⟨r, os w.log r⟩) :
    Cares status w (w.askOrAbort os r) := by
  unfold World.askOrAbort
  split <;> rename_i heq <;> obtain ⟨-, rfl⟩ := Prod.mk.inj heq
  · exact .head ⟨_, rfl, h⟩ (.stopped rfl)
  · exact .last ⟨_, rfl, h⟩

theorem strelaJobSlotFinish_cares : Cares status w (strelaJobSlotFinish os i w) := by
  unfold strelaJobSlotFinish
  dsimp only
  split
  · exact .of_eq rfl
  · refine .bind World.log ?_ fun w' _ => .of_eq rfl
    unfold waitFence
    split
    · exact askOrAbort_cares (tended_of_latest rfl)
    · exact askOrAbort_cares (tended_of_latest rfl)

theorem strelaJobSlotFinish_finished (hos : Signals os status) (hs : Tracked status w.slots)
    (h : strelaJobSlotFinish os i w = .ok w') (hn : (record w'.log).latest i = some n) :
    Finished status w'.log n := by
  have ha : SlotAttributed status w.log i (w.slot i) := hs.attributed i
  unfold strelaJobSlotFinish at h
  dsimp only at h
  split at h
  · rename_i hp
    obtain rfl := Except.ok.inj h
    cases hin : inDriver (w.slot i).phase with
    | false =>
      rw [ha.idle hin] at hn
      cases hn
    | true =>
      have hd : (w.slot i).phase = .done := by simpa [inDriver, hp] using hin
      exact Option.isSome_iff_exists.mpr ⟨_, ha.result n hd hn⟩
  · rename_i hp
    rw [not_not] at hp
    obtain ⟨w₁, h₁, h⟩ := bind_eq_ok h
    obtain rfl := Except.ok.inj h
    change (record w₁.log).latest i = some n at hn
    change Finished status w₁.log n
    have hfree : (w.slot i).phase ≠ .free := by simp [hp]
    obtain ⟨m, hm, hst⟩ := ha.running (by rw [hp]; rfl)
    unfold waitFence at h₁
    split at h₁
    · rename_i hfd
      obtain ⟨v, hv, hl⟩ := askOrAbort_log h₁
      rw [hl, record_concat] at hn
      obtain rfl : m = n := Option.some.inj (hm.symm.trans hn)
      rw [hl]
      refine hos.ready _ _ _ _ _ _ hv ?_ ((ha.fenced hfree hfd).trans hm)
      rintro rfl
      exact hos.blocks _ _ _ hv
    · obtain ⟨v, hv, hl⟩ := askOrAbort_log h₁
      rw [hl, record_concat] at hn
      obtain rfl : m = n := Option.some.inj (hm.symm.trans hn)
      rw [hl]
      exact hos.waited _ _ _ _ _ hv hst

theorem closeFence_cares {slot : JobSlot} : Cares status w (closeFence os i slot w) := by
  unfold closeFence
  split
  · exact askOrAbort_cares (tended_of_latest rfl)
  · exact .of_eq rfl

theorem closeFence_finished (hos : Signals os status) {slot : JobSlot}
    (hw : ∀ n, (record w.log).latest i = some n → Finished status w.log n)
    (h : closeFence os i slot w = .ok w') (hn : (record w'.log).latest i = some n) :
    Finished status w'.log n := by
  unfold closeFence at h
  split at h
  · obtain ⟨v, -, hl⟩ := askOrAbort_log h
    rw [hl, record_concat] at hn
    rw [hl]
    exact hos.finished (hw n hn)
  · obtain rfl := Except.ok.inj h
    exact hw n hn

theorem destroySyncobj_cares {slot : JobSlot}
    (hw : ∀ n, (record w.log).latest i = some n → Finished status w.log n) :
    Cares status w (destroySyncobj os i slot w) := by
  unfold destroySyncobj
  split
  · exact askOrAbort_cares (tended_of_finished (fun j hj => Function.update_of_ne hj _ _) hw)
  · exact .of_eq rfl

theorem strelaJobSlotRelease_cares (hos : Signals os status) (hs : Tracked status w.slots) :
    Cares status w (strelaJobSlotRelease os i w) := by
  unfold strelaJobSlotRelease
  split
  · refine .bind World.log strelaJobSlotFinish_cares fun w₁ h₁ => ?_
    have hw₁ (n : ℕ) := strelaJobSlotFinish_finished (n := n) hos hs h₁
    dsimp only
    split
    · refine .bind World.log closeFence_cares fun w₂ h₂ => ?_
      have hw₂ (n : ℕ) := closeFence_finished (n := n) hos hw₁ h₂
      exact .bind World.log (destroySyncobj_cares hw₂) fun w₃ _ => .of_eq rfl
    · exact .of_eq rfl
  · exact .stopped rfl

theorem Tracked.of_tracks {α : Type} {f : α → Slots} {x : Exec α} {a : α}
    (hos : Signals os status) (hs : Tracked status w.slots)
    (ht : Tracks os False f w.slots x) (hx : x = .ok a) : Tracked status (f a) := by
  rw [hx] at ht
  exact keeps_of_step (fun _ _ hs h => hs.step hos h) ht hs

theorem releaseEach_cares (hos : Signals os status) (is : List SlotId)
    (hs : Tracked status w.slots) : Cares status w (releaseEach os is w) := by
  induction is generalizing w with
  | nil => exact .of_eq rfl
  | cons i is ih =>
    refine .bind World.log (strelaJobSlotRelease_cares hos hs) fun w₁ h₁ => ?_
    exact ih (hs.of_tracks hos (strelaJobSlotRelease_tracks i w) h₁)

theorem strelaJobFreeAll_cares (hos : Signals os status) (hs : Tracked status w.slots) :
    Cares status w (strelaJobFreeAll os w) := by
  unfold strelaJobFreeAll
  split
  · exact releaseEach_cares hos _ hs
  · exact .of_eq rfl

theorem strelaJobFree_cares (hos : Signals os status) (hs : Tracked status w.slots)
    (job : JobHandle) : Cares status w (strelaJobFree os job w) := by
  unfold strelaJobFree
  rcases strelaJobSlotGet_cases job (fun _ => true) w with ⟨i, h, -⟩ | ⟨w', h, hsame, -⟩
  · rw [h]
    exact strelaJobSlotRelease_cares hos hs
  · rw [h]
    exact .of_eq (congrArg Slots.log hsame).symm

theorem strelaDevInit_cares (hos : Signals os status) (hs : Tracked status w.slots) :
    Cares status w (strelaDevInit A os w) := by
  refine .bind World.log (strelaJobFreeAll_cares (w := w.setErr 0) hos hs) fun w₁ _ => .of_eq ?_
  have hb : (strelaBufferFreeAll A w₁).log = w₁.log := by
    unfold strelaBufferFreeAll
    split <;> rfl
  rw [← hb]
  unfold strelaKernelFreeAll
  split <;> rfl

theorem Cares.careful {x : Exec World} (h : Cares status w x) (hc : Careful status w.log) :
    (∀ w', x = .ok w' → Careful status w'.log) ∧ ∀ log, x = .error log → Careful status log := by
  have keep (l l' : List Event) (hl : Careful status l)
      (hst : ∃ e, l' = l ++ [e] ∧ Tended status l e) : Careful status l' := by
    obtain ⟨e, rfl, he⟩ := hst
    exact throughout_concat.mpr ⟨hl, he⟩
  constructor
  · rintro w' rfl
    exact keeps_of_step keep h hc
  · rintro log rfl
    obtain ⟨l, hl, rfl⟩ := h
    exact keeps_of_step keep hl hc

/-! ## Runs -/

def DevAction.Keeps (os : Os) (w : World) : DevAction → Prop
  | .lib a => a.Keeps os w
  | .init => True

theorem devLts_tracks {a : DevAction} (ha : a.Keeps os w) (h : (devLts A os).step w a w') :
    ReflTransGen (SlotStep os False) w.slots w'.slots := by
  cases a with
  | init =>
    have ht : Tracks os False World.slots w.slots (strelaDevInit A os w) := strelaDevInit_tracks
    rw [show strelaDevInit A os w = .ok w' from h] at ht
    exact ht
  | lib a =>
    cases a with
    | call c =>
      have ht := exec_tracks A c w (ha c rfl)
      rw [show c.exec A os w = .ok w' from h] at ht
      exact ht
    | resetErr =>
      obtain rfl : w' = strelaDevResetErr w := h
      rw [slots_resetErr]

theorem devLts_careful (hos : Signals os status) (hs : Tracked status w.slots)
    (hc : Careful status w.log) {a : DevAction} (ha : a.Keeps os w)
    (h : (devLts A os).step w a w') : Careful status w'.log := by
  have ht := devLts_tracks ha h
  cases a with
  | init => exact ((strelaDevInit_cares hos hs).careful hc).1 w' h
  | lib a =>
    cases a with
    | resetErr =>
      obtain rfl : w' = strelaDevResetErr w := h
      rw [show (strelaDevResetErr w).log = w.log from congrArg Slots.log slots_resetErr]
      exact hc
    | call c =>
      cases hm : c.Moves with
      | false =>
        have hd : destroys w'.log = destroys w.log := congrArg (fun u => u.1.2) (exec_uses hm h)
        exact hs.careful_of_tracks hos hc ht hd
      | true =>
        cases c with
        | jobConfig kernel conf =>
          obtain ⟨⟨job, w₁⟩, h₁, rfl⟩ := map_eq_ok h
          exact hs.careful_of_tracks hos hc ht (strelaJobConfig_fills h₁).2.1
        | jobFree job => exact ((strelaJobFree_cares hos hs job).careful hc).1 w' h
        | jobFreeAll => exact ((strelaJobFreeAll_cares hos hs).careful hc).1 w' h
        | config kernel conf =>
          obtain ⟨w₁, job, w₂, h₁, h₂, rfl⟩ := strelaConfig_cases h
          -- The job configured before is freed like any other.
          have hw₁ : Tracked status w₁.slots ∧ Careful status w₁.log := by
            split at h₁
            · exact ⟨hs.of_tracks hos (strelaJobFree_tracks _ w) h₁,
                ((strelaJobFree_cares hos hs _).careful hc).1 w₁ h₁⟩
            · obtain rfl := Except.ok.inj h₁
              exact ⟨hs, hc⟩
          have ht₂ : Tracks os False (fun p => p.2.slots) w₁.slots
              (strelaJobConfig os kernel conf w₁) := strelaJobConfig_tracks kernel conf w₁
          rw [h₂] at ht₂
          exact hw₁.1.careful_of_tracks hos hw₁.2 ht₂ (strelaJobConfig_fills h₂).2.1
        | _ => cases hm

theorem tracked_of_reach (hos : Signals os status)
    (h : ((devLts A os).restrict (DevAction.Keeps os)).Reach w) :
    Tracked status w.slots ∧ Careful status w.log := by
  refine h.invariant (P := fun w => Tracked status w.slots ∧ Careful status w.log) ?_ ?_
  · intro w hw
    rw [slots_start hw.slots hw.log, hw.log]
    refine ⟨⟨syncobjsOwned_start, fencesOwned_start, fun i => ?_⟩, throughout_nil⟩
    exact attributed_idle rfl (.inl rfl) rfl rfl
  · rintro w a w' - ⟨hs, hc⟩ ⟨ha, hst⟩
    refine ⟨?_, devLts_careful hos hs hc ha hst⟩
    exact keeps_of_step (fun _ _ hs h => hs.step hos h) (devLts_tracks ha hst) hs

/-! ## Reports -/

/-- A done job has the status of its last submission. -/
theorem Tracked.done (hs : Tracked status w.slots) (hp : (w.slot i).phase = .done) :
    ∃ n, (record w.log).latest i = some n ∧ status w.log n = some (w.slot i).status := by
  have ha : SlotAttributed status w.log i (w.slot i) := hs.attributed i
  obtain ⟨n, hn, -⟩ := ha.running (by rw [hp]; rfl)
  exact ⟨n, hn, ha.result n hp hn⟩

/-- What the library says of a job belongs to its last submission. -/
structure Reports (os : Os) (status : Statuses) (w : World) : Prop where
  wait : ∀ job timeout w', strelaJobWait os job timeout w = .ok (true, w') →
    ∃ (i : SlotId) (n : ℕ), job.handle = i ∧ (record w'.log).latest i = some n ∧
      Finished status w'.log n
  poll : ∀ job state w', strelaJobPoll os job w = .ok (state, w') →
    state = .ok ∨ state = .failed ∧ w'.ok = true →
    ∃ (i : SlotId) (n : ℕ) (v : ℤ), job.handle = i ∧ (record w'.log).latest i = some n ∧
      status w'.log n = some v ∧ (state = .ok ↔ 0 < v)
  /-- A job whose last submission was not observed done is not submitted. -/
  refused : ∀ (job : JobHandle) (i : SlotId), job.handle = i → (record w.log).unseen i = true →
    ∃ w', strelaJobSubmit os job w = .ok (false, w') ∧ w'.log = w.log ∧ w'.dev.jobs = w.dev.jobs
  /-- A slot that `strela_job_free` or `strela_job_free_all` has emptied has finished. -/
  recycled : ∀ w', (∃ job, strelaJobFree os job w = .ok w') ∨ strelaJobFreeAll os w = .ok w' →
    ∀ i, inDriver (w.slot i).phase = true → (w'.slot i).phase = .free →
      ∃ n, (record w.log).latest i = some n ∧ Finished status w'.log n
  /-- It has finished before its sync object is destroyed, also when the call aborts. -/
  careful : ∀ x, (∃ job, x = strelaJobFree os job w) ∨ x = strelaJobFreeAll os w →
    (∀ w', x = .ok w' → Careful status w'.log) ∧ ∀ log, x = .error log → Careful status log

theorem Tracked.wait (hos : Signals os status) (hs : Tracked status w.slots) {job : JobHandle}
    {timeout : ℤ} (h : strelaJobWait os job timeout w = .ok (true, w')) :
    ∃ (i : SlotId) (n : ℕ), job.handle = i ∧ (record w'.log).latest i = some n ∧
      Finished status w'.log n := by
  have hs' : Tracked status w'.slots :=
    hs.of_tracks (f := fun p => p.2.slots) hos (strelaJobWait_tracks job timeout w) h
  unfold strelaJobWait at h
  rcases strelaJobSlotGet_cases job inDriver w with ⟨i, hg, -, -, hi, -⟩ | ⟨w₁, hg, -⟩
  · rw [hg, ok_bind] at h
    obtain ⟨w₁, -, h⟩ := bind_eq_ok h
    obtain ⟨hd, rfl⟩ := Prod.mk.inj (Except.ok.inj h)
    simp only [Bool.and_eq_true, beq_iff_eq] at hd
    obtain ⟨n, hn, hst⟩ := hs'.done hd.2
    exact ⟨i, n, hi, hn, Option.isSome_iff_exists.mpr ⟨_, hst⟩⟩
  · rw [hg] at h
    cases h

theorem Tracked.poll (hos : Signals os status) (hs : Tracked status w.slots) {job : JobHandle}
    {state : JobState} (h : strelaJobPoll os job w = .ok (state, w'))
    (hstate : state = .ok ∨ state = .failed ∧ w'.ok = true) :
    ∃ (i : SlotId) (n : ℕ) (v : ℤ), job.handle = i ∧ (record w'.log).latest i = some n ∧
      status w'.log n = some v ∧ (state = .ok ↔ 0 < v) := by
  have hs' : Tracked status w'.slots :=
    hs.of_tracks (f := fun p => p.2.slots) hos (strelaJobPoll_tracks job w) h
  unfold strelaJobPoll at h
  rcases strelaJobSlotGet_cases job inDriver w with ⟨i, hg, -, -, hi, -⟩ | ⟨w₁, hg, -, hw₁, -⟩
  · rw [hg, ok_bind] at h
    obtain ⟨w₁, -, h⟩ := bind_eq_ok h
    obtain ⟨rfl, rfl⟩ := Prod.mk.inj (Except.ok.inj h)
    by_cases hd : (w₁.slot i).phase = .done
    · obtain ⟨n, hn, hst⟩ := hs'.done hd
      refine ⟨i, n, _, hi, hn, hst, ?_⟩
      by_cases hpos : 0 < (w₁.slot i).status <;> simp [hd, hpos]
    · simp [hd] at hstate
  · rw [hg] at h
    obtain ⟨rfl, rfl⟩ := Prod.mk.inj (Except.ok.inj h)
    simp [hw₁] at hstate

theorem Tracked.refused (hs : Tracked status w.slots) {job : JobHandle} (hi : job.handle = i)
    (hu : (record w.log).unseen i = true) :
    ∃ w', strelaJobSubmit os job w = .ok (false, w') ∧ w'.log = w.log ∧
      w'.dev.jobs = w.dev.jobs := by
  have hp : (w.slot i).phase = .submitted := (hs.attributed i).observed hu
  rcases strelaJobSlotGet_cases job submittable w with
    ⟨j, -, -, -, hj, hsub⟩ | ⟨w', hg, hsame, hw', -⟩
  · obtain rfl : j = i := Fin.ext (hj.symm.trans hi)
    simp [hp, submittable] at hsub
  · refine ⟨w', ?_, congrArg Slots.log hsame, congrArg Slots.jobs hsame⟩
    simp [strelaJobSubmit, hg, hw']

theorem Tracked.recycled (hos : Signals os status) (hs : Tracked status w.slots)
    (hs' : Tracked status w'.slots) (hl : w.log <+: w'.log) (hc : Careful status w'.log)
    (hin : inDriver (w.slot i).phase = true) (hfree : (w'.slot i).phase = .free) :
    ∃ n, (record w.log).latest i = some n ∧ Finished status w'.log n := by
  obtain ⟨n, hn, -⟩ := (hs.attributed i).running hin
  have hidle : (record w'.log).latest i = none :=
    (hs'.attributed i).idle (by rw [show (w'.slots.jobs i).phase = _ from hfree]; rfl)
  exact ⟨n, hn, hc.finished hos hl hn (by rw [hidle]; simp)⟩

theorem reports_of_tracked (hos : Signals os status) (hs : Tracked status w.slots)
    (hc : Careful status w.log) : Reports os status w := by
  have hcares (x : Exec World)
      (hx : (∃ job, x = strelaJobFree os job w) ∨ x = strelaJobFreeAll os w) :
      Cares status w x ∧ Tracks os False World.slots w.slots x := by
    rcases hx with ⟨job, rfl⟩ | rfl
    · exact ⟨strelaJobFree_cares hos hs job, strelaJobFree_tracks job w⟩
    · exact ⟨strelaJobFreeAll_cares hos hs, strelaJobFreeAll_tracks w⟩
  refine ⟨fun _ _ _ => hs.wait hos, fun _ _ _ => hs.poll hos, fun _ _ => hs.refused, ?_, ?_⟩
  · intro w' hw' i hin hfree
    have hx : ∃ x : Exec World, x = .ok w' ∧
        ((∃ job, x = strelaJobFree os job w) ∨ x = strelaJobFreeAll os w) := by
      rcases hw' with ⟨job, h⟩ | h
      · exact ⟨_, h, .inl ⟨job, rfl⟩⟩
      · exact ⟨_, h, .inr rfl⟩
    obtain ⟨x, rfl, hx⟩ := hx
    obtain ⟨hcare, ht⟩ := hcares _ hx
    exact hs.recycled hos (hs.of_tracks hos ht rfl) (log_prefix_of_tracks ht)
      ((hcare.careful hc).1 w' rfl) hin hfree
  · exact fun x hx => (hcares x hx).1.careful hc

def Exports (os : Os) : Prop := ∀ log i h, ∃ fd, os log (.handleToFd i h) = .ok fd

theorem Exports.keeps (hx : Exports os) (w : World) (a : DevAction) : a.Keeps os w := by
  have hstale (job : JobHandle) : ¬ StaleResubmit os w job := by
    rintro ⟨-, -, i, -, -, -, -, e, he⟩
    obtain ⟨fd, hfd⟩ := hx (w.slots.reclaimed os i).log i (w.slots.jobs i).submit.outSyncobj
    rw [Slots.exportRequest, hfd] at he
    cases he
  cases a with
  | init => trivial
  | lib a =>
    rintro c rfl hc
    cases c with
    | jobSubmit job => exact hstale _ hc
    | execute => exact hstale _ hc
    | _ => exact hc

/-- In every run what the library says of a job belongs to its last submission. -/
theorem reach_reports (hos : Signals os status) (hx : Exports os) (h : (devLts A os).Reach w) :
    Reports os status w ∧ Careful status w.log := by
  obtain ⟨hs, hc⟩ := tracked_of_reach hos (h.restrict hx.keeps)
  exact ⟨reports_of_tracked hos hs hc, hc⟩

def nextFd (log : List Event) : ℤ :=
  log.foldl (fun m e =>
    match e with
    | ⟨.handleToFd _ _, .ok fd⟩ => max m (fd + 1)
    | _ => m) 3

def oddFails (n : ℕ) : ℤ := if n % 2 = 0 then 1 else -5

/-- A system with room for one job, which is done at once. -/
def promptOs : Os := fun log r =>
  match r with
  | .syncobjCreate _ => if syncOwner log 1 = none then .ok 1 else .error (Nat.toPNat' 12)
  | .handleToFd _ _ => .ok (nextFd log)
  | .poll _ fd timeout =>
    if fd = -1 then if timeout = -1 then .error eintr else .ok 0
    else .ok 1
  | .fileInfo _ fd =>
    match (record log).exported fd with
    | some n => .ok (oddFails n)
    | none => .error (Nat.toPNat' 9)
  | _ => .ok 0

def promptStatus : Statuses := fun log n =>
  if n < (record log).count then some (oddFails n) else none

theorem nextFd_concat (log : List Event) (e : Event) :
    nextFd (log ++ [e]) = (match e with
      | ⟨.handleToFd _ _, .ok fd⟩ => max (nextFd log) (fd + 1)
      | _ => nextFd log) := by
  simp [nextFd]

theorem nextFd_mono (log : List Event) (e : Event) : nextFd log ≤ nextFd (log ++ [e]) := by
  rw [nextFd_concat]
  split
  · exact le_max_left _ _
  · exact le_rfl

theorem fenceEntry_take {fd : ℤ} (h : fenceEntry e = some (.take fd i)) :
    ∃ handle, e = ⟨.handleToFd i handle, .ok fd⟩ := by
  unfold fenceEntry at h
  split at h
  · obtain ⟨rfl, rfl⟩ : _ = fd ∧ _ = i := by simpa using h
    exact ⟨_, rfl⟩
  · split at h
    · cases h
    · cases h
  all_goals cases h

theorem lt_nextFd {fd : ℤ} (h : fenceOwner log fd = some i) : fd < nextFd log := by
  induction log using List.reverseRecOn generalizing i with
  | nil => simp [fenceOwner, fenceLedger] at h
  | append_singleton log e ih =>
    have hmono := nextFd_mono log e
    rw [fenceOwner, fenceLedger_concat] at h
    cases he : fenceEntry e with
    | none =>
      rw [he, Option.toList_none, List.append_nil] at h
      exact (ih h).trans_le hmono
    | some x =>
      rw [he, Option.toList_some, holder_concat] at h
      cases x with
      | take k o =>
        rcases eq_or_ne fd k with rfl | hk
        · obtain ⟨handle, rfl⟩ := fenceEntry_take he
          rw [nextFd_concat]
          exact (lt_add_one fd).trans_le (le_max_right _ _)
        · rw [Entry.apply, Function.update_of_ne hk] at h
          exact (ih h).trans_le hmono
      | use k o => exact (ih h).trans_le hmono
      | give k o =>
        rcases eq_or_ne fd k with rfl | hk
        · simp [Entry.apply] at h
        · rw [Entry.apply, Function.update_of_ne hk] at h
          exact (ih h).trans_le hmono

theorem three_le_nextFd (log : List Event) : 3 ≤ nextFd log := by
  induction log using List.reverseRecOn with
  | nil => rfl
  | append_singleton log e ih =>
    exact ih.trans (nextFd_mono log e)

theorem promptOs_exports : Exports promptOs := fun log _ _ => ⟨nextFd log, rfl⟩

theorem promptOs_signals : Signals promptOs promptStatus where
  syncobj := by
    intro log i h hr
    simp only [promptOs] at hr
    split at hr
    · obtain rfl := Except.ok.inj hr
      exact ⟨by decide, ‹_›⟩
    · cases hr
  fd := by
    intro log i h fd hr
    obtain rfl : nextFd log = fd := Except.ok.inj hr
    refine ⟨le_trans (by decide) (three_le_nextFd log), ?_⟩
    cases ho : fenceOwner log (nextFd log) with
    | none => rfl
    | some i => exact absurd (lt_nextFd ho) (lt_irrefl _)
  ignores := by
    intro log i timeout ready hr
    simp only [promptOs, if_true] at hr
    split at hr
    · cases hr
    · exact (Except.ok.inj hr).symm
  stays := by
    intro log e n v h
    have hle := note_count_le (record log) e
    simp only [promptStatus, record_concat] at h ⊢
    split at h
    · rw [if_pos (by omega)]
      exact h
    · cases h
  ready := by
    intro log i fd timeout ready n hr _ hn
    have hlt := (record_lt log).2 fd n hn
    simp [Finished, promptStatus, Record.note, hlt]
  blocks := by
    intro log i fd h
    simp only [promptOs] at h
    split at h <;> cases h
  info := by
    intro log i fd v n v' hr hn hv
    simp only [promptOs, hn] at hr
    simp only [promptStatus, if_pos ((record_lt log).2 fd n hn)] at hv
    obtain rfl := Except.ok.inj hr
    exact Option.some.inj hv
  waited := by
    intro log i h v n hr hn
    have hlt := (record_lt log).1 h n hn
    simp [Finished, promptStatus, Record.note, hlt]

def World.promptly (w : World) (c : Call) : World := w.after Abi.arm32 promptOs c

theorem reach_promptly (h : (devLts Abi.arm32 promptOs).Reach w) {c : Call}
    (hc : (c.exec Abi.arm32 promptOs w).isOk = true) :
    (devLts Abi.arm32 promptOs).Reach (w.promptly c) :=
  h.step (a := .lib (.call c)) (exec_after hc)

def resubmitted : World :=
  ((((readyWorld.promptly (.jobConfig ⟨true, 0⟩ emptyConf)).promptly
    (.jobSubmit ⟨true, 0⟩)).promptly (.jobWait ⟨true, 0⟩ 1000)).promptly
    (.jobSubmit ⟨true, 0⟩)).promptly (.jobWait ⟨true, 0⟩ 1000)

theorem reach_resubmitted : (devLts Abi.arm32 promptOs).Reach resubmitted := by
  have h₁ := reach_promptly (.start fresh_readyWorld) (c := .jobConfig ⟨true, 0⟩ emptyConf) rfl
  have h₂ := reach_promptly h₁ (c := .jobSubmit ⟨true, 0⟩) rfl
  have h₃ := reach_promptly h₂ (c := .jobWait ⟨true, 0⟩ 1000) rfl
  have h₄ := reach_promptly h₃ (c := .jobSubmit ⟨true, 0⟩) rfl
  exact reach_promptly h₄ rfl

/-- The first submission has succeeded and the second, which is the one that is reported, failed. -/
theorem reach_reports_resubmitted : resubmitted.ok = true ∧
    (record resubmitted.log).latest 0 = some 1 ∧
    promptStatus resubmitted.log 0 = some 1 ∧ promptStatus resubmitted.log 1 = some (-5) ∧
    (strelaJobPoll promptOs ⟨true, 0⟩ resubmitted).map Prod.fst = .ok .failed ∧
    Reports promptOs promptStatus resubmitted :=
  ⟨rfl, rfl, rfl, rfl, rfl, (reach_reports promptOs_signals promptOs_exports reach_resubmitted).1⟩

end Strela.Lib
