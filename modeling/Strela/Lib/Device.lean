import Strela.Lib.Syncobjs

/-! # What calls leave alone

No call but `strela_config` changes more of a device than its error, its slots
and its allocators; and of the slots only configurations and releases change
which are in use. The same holds of `strela_dev_init` on a device that is
initialized already, which empties all slots and both allocators.
-/

namespace Strela.Lib

open Foundation Strela.Allocator

/-- The part of a device that is set up once, and the job of `strela_config`. -/
structure Fixed where
  fd : ℤ
  tensorsBoMap : ℕ
  kernelsBoMap : ℕ
  initialized : Bool
  backwardCompatJob : JobHandle

namespace World

variable (w : World)

def fixed : Fixed :=
  ⟨w.dev.fd, w.dev.tensorsBoMap, w.dev.kernelsBoMap, w.dev.initialized, w.dev.backwardCompatJob⟩

def freeSlots (i : SlotId) : Bool := (w.slot i).phase == .free

end World

/-- A program run on the given state, if it returns, leaves some view of the state as it was. -/
abbrev Preserves {α γ : Type} (g : World → γ) (out : α → World) (w : World) : Exec α → Prop :=
  Follows (fun w w' => g w' = g w) (fun _ _ => True) out w

variable {A : Abi} {os : Os} {w w' : World} {i : SlotId} {α γ : Type} {g : World → γ}

theorem Preserves.eq {out : α → World} {x : Exec α} {a : α} (h : Preserves g out w x)
    (hx : x = .ok a) : g (out a) = g w := by
  rw [hx] at h
  exact keeps_of_step (P := fun w' => g w' = g w) (fun _ _ h₁ h₂ => h₂.trans h₁) h rfl

/-! ## Kernels and buffers -/

/-- All of a device but its error and its allocators, and the sync objects destroyed. -/
def World.table (w : World) : (Fixed × List Event) × (SlotId → JobSlot) :=
  ((w.fixed, destroys w.log), w.dev.jobs)

theorem fixed_of_table (h : w'.table = w.table) : w'.fixed = w.fixed :=
  congrArg (fun t => t.1.1) h

theorem ask_table (os : Os) (w : World) {r : Request} (hr : r.IsDestroy = false) :
    (w.ask os r).2.table = w.table := by
  simp [World.table, World.ask, World.fixed, destroys, hr]

theorem checkKernel_table (kernel : Kernel) : (checkKernel kernel w).table = w.table := by
  unfold checkKernel
  split <;> rfl

theorem strelaSync_table (handle flags : U32) (offset words : ℕ) :
    (strelaSync A os handle flags offset words w).table = w.table := by
  unfold strelaSync
  split
  · have ht (r : Request) (hr : r.IsDestroy = false) := ask_table os w hr
    split <;> rename_i heq <;> obtain ⟨-, rfl⟩ := Prod.mk.inj heq
    · exact ht _ rfl
    · exact ht _ rfl
  · rfl

theorem strelaKernelAlloc_table :
    Preserves World.table Prod.snd w (strelaKernelAlloc A w) := by
  unfold strelaKernelAlloc
  split
  · dsimp only
    split
    · split
      · exact .last rfl
      · exact .stopped trivial
    · exact .last rfl
  · exact .last rfl

theorem strelaKernelSet_table (kernel : Kernel) (data : ℕ) :
    (strelaKernelSet A os kernel data w).table = w.table := by
  unfold strelaKernelSet
  dsimp only
  split
  · rw [strelaSync_table]
    exact checkKernel_table kernel
  · exact checkKernel_table kernel

theorem strelaBufferAlloc_table (sizeWords : ℕ) :
    Preserves World.table Prod.snd w (strelaBufferAlloc A sizeWords w) := by
  unfold strelaBufferAlloc
  split
  · dsimp only
    split
    · cases freeListAlloc A w.heap (A.mul sizeWords wordSize) 64 with
      | none => exact .stopped trivial
      | some p =>
        simp only [World.orAbort, ok_bind]
        split
        · unfold internalPtrToBufferOffset
          split
          · exact .last rfl
          · exact .stopped trivial
        · exact .last rfl
    · exact .last rfl
  · exact .last rfl

theorem withBuffer_table (buffer : Buffer) {act : ℕ → World → Exec World}
    (hact : ∀ ptr, Preserves World.table id w (act ptr w)) :
    Preserves World.table id w (withBuffer A buffer act w) := by
  unfold withBuffer strelaBufferToPtr
  split
  · split
    · exact .last rfl
    · split
      · exact .stopped trivial
      · exact hact _
  · exact .last rfl

theorem strelaBufferFree_table (buffer : Buffer) :
    Preserves World.table id w (strelaBufferFree A buffer w) := by
  apply withBuffer_table buffer
  intro ptr
  cases freeListFree A w.heap ptr with
  | none => exact .stopped trivial
  | some h => exact .last rfl

theorem strelaBufferSync_table (buffer : Buffer) (flags : U32) (offset count : ℕ) :
    (strelaBufferSync A os buffer flags offset count w).table = w.table := by
  unfold strelaBufferSync
  dsimp only
  split
  · split
    · exact strelaSync_table ..
    · rfl
  · split
    · exact strelaSync_table ..
    · rfl

theorem strelaBufferFreeAll_table : (strelaBufferFreeAll A w).table = w.table := by
  unfold strelaBufferFreeAll
  split <;> rfl

theorem strelaKernelFreeAll_table : (strelaKernelFreeAll A w).table = w.table := by
  unfold strelaKernelFreeAll
  split <;> rfl

/-! ## Releasing slots -/

structure Releases (i : SlotId) (w w' : World) : Prop where
  fixed : w'.fixed = w.fixed
  errnum : w'.dev.errnum = w.dev.errnum
  freed : (w'.slot i).phase = .free
  other : ∀ j, j ≠ i → w'.slot j = w.slot j

theorem strelaJobSlotRelease_releases (h : strelaJobSlotRelease os i w = .ok w') :
    Releases i w w' := by
  unfold strelaJobSlotRelease at h
  split at h
  swap
  · cases h
  obtain ⟨w₁, h₁, h⟩ := bind_eq_ok h
  have hfin : w₁.fixed = w.fixed ∧ w₁.dev.errnum = w.dev.errnum ∧
      ∀ j, j ≠ i → w₁.slot j = w.slot j := by
    unfold strelaJobSlotFinish at h₁
    dsimp only at h₁
    split at h₁
    · obtain rfl := Except.ok.inj h₁
      exact ⟨rfl, rfl, fun _ _ => rfl⟩
    · obtain ⟨w₂, h₂, h₁⟩ := bind_eq_ok h₁
      obtain rfl := Except.ok.inj h₁
      have hd := waitFence_dev h₂
      refine ⟨?_, ?_, fun j hj => ?_⟩
      · simp [World.fixed, World.setSlot, hd]
      · simp [World.setSlot, hd]
      · simp [World.slot, World.setSlot, hd, hj]
  dsimp only at h
  split at h
  · obtain ⟨w₂, h₂, h⟩ := bind_eq_ok h
    obtain ⟨w₃, h₃, h⟩ := bind_eq_ok h
    obtain rfl := Except.ok.inj h
    have hd : w₃.dev = w₁.dev := (destroySyncobj_dev h₃).trans (closeFence_dev h₂)
    refine ⟨?_, ?_, ?_, fun j hj => ?_⟩
    · rw [← hfin.1]
      simp [World.fixed, World.setSlot, hd]
    · rw [← hfin.2.1]
      simp [World.setSlot, hd]
    · simp [World.slot, World.setSlot, JobSlot.released, JobSlot.zero]
    · rw [← hfin.2.2 j hj]
      simp [World.slot, World.setSlot, hd, hj]
  · rename_i hfree
    obtain rfl := Except.ok.inj h
    exact ⟨hfin.1, hfin.2.1, not_not.mp hfree, hfin.2.2⟩

theorem releaseEach_releases {is : List SlotId} (h : releaseEach os is w = .ok w') :
    w'.fixed = w.fixed ∧ w'.dev.errnum = w.dev.errnum ∧ (∀ i ∈ is, (w'.slot i).phase = .free) ∧
      ∀ j ∉ is, w'.slot j = w.slot j := by
  induction is generalizing w with
  | nil =>
    obtain rfl := Except.ok.inj h
    exact ⟨rfl, rfl, by simp, fun _ _ => rfl⟩
  | cons i is ih =>
    obtain ⟨w₁, h₁, h⟩ := bind_eq_ok h
    have hr := strelaJobSlotRelease_releases h₁
    obtain ⟨hf, he, hin, hout⟩ := ih h
    refine ⟨hf.trans hr.fixed, he.trans hr.errnum, fun j hj => ?_, fun j hj => ?_⟩
    · by_cases hmem : j ∈ is
      · exact hin j hmem
      · rw [hout j hmem]
        obtain rfl := (List.mem_cons.mp hj).resolve_right hmem
        exact hr.freed
    · rw [List.mem_cons, not_or] at hj
      rw [hout j hj.2, hr.other j hj.1]

/-- All slots are emptied unless the device has an error. -/
theorem strelaJobFreeAll_releases (h : strelaJobFreeAll os w = .ok w') :
    w'.fixed = w.fixed ∧ w'.dev.errnum = w.dev.errnum ∧
      (w.ok = true → ∀ i, (w'.slot i).phase = .free) ∧ (w.ok = false → w' = w) := by
  unfold strelaJobFreeAll at h
  split at h
  · rename_i hw
    obtain ⟨hf, he, hin, -⟩ := releaseEach_releases h
    exact ⟨hf, he, fun _ i => hin i (List.mem_finRange i), fun hn => by simp [hw] at hn⟩
  · rename_i hw
    obtain rfl := Except.ok.inj h
    exact ⟨rfl, rfl, fun h => absurd h hw, fun _ => rfl⟩

/-! ## Jobs -/

theorem table_of_dev (hs : w'.slots = w.slots)
    (h : w'.dev = { w.dev with errnum := w'.dev.errnum }) : w'.table = w.table := by
  have hlog : w'.log = w.log := congrArg Slots.log hs
  rw [World.table, World.fixed, h, hlog]
  rfl

/-- What a submission and the calls that follow it leave: which slots are in use, and the rest of
the device. -/
def World.uses (w : World) : (Fixed × List Event) × (SlotId → Bool) :=
  ((w.fixed, destroys w.log), w.freeSlots)

theorem uses_of_table (h : w'.table = w.table) : w'.uses = w.uses := by
  obtain ⟨hf, hj⟩ := Prod.mk.inj h
  refine Prod.ext hf (funext fun i => ?_)
  simp only [World.uses, World.freeSlots, World.slot, hj]

theorem fixed_of_uses (h : w'.uses = w.uses) : w'.fixed = w.fixed :=
  congrArg (fun u => u.1.1) h

theorem ask_uses (os : Os) (w : World) (r : Request) (hr : r.IsDestroy = false) :
    (w.ask os r).2.uses = w.uses :=
  uses_of_table (ask_table os w hr)

theorem uses_setSlot {slot : JobSlot} (hp : (w.slot i).phase ≠ .free) (hs : slot.phase ≠ .free) :
    (w.setSlot i slot).uses = w.uses := by
  refine Prod.ext rfl (funext fun j => ?_)
  rcases eq_or_ne j i with rfl | hj
  · have h₁ : (w.freeSlots j) = false := by simpa [World.freeSlots] using hp
    have h₂ : ((w.setSlot j slot).freeSlots j) = false := by
      simpa [World.freeSlots, World.slot, World.setSlot] using hs
    exact h₂.trans h₁.symm
  · simp [World.uses, World.freeSlots, World.slot, World.setSlot, hj]

theorem submitExport_uses (hp : (w.slot i).phase ≠ .free) :
    (submitExport os i (w.slot i) w).uses = w.uses := by
  have h₁ : (w.setSlot i { w.slot i with phase := .submitted }).uses = w.uses :=
    uses_setSlot hp (by simp)
  have h₂ := (ask_uses os _ (.handleToFd i (w.slot i).submit.outSyncobj) rfl).trans h₁
  unfold submitExport
  dsimp only
  split <;> rename_i heq <;> obtain ⟨-, rfl⟩ := Prod.mk.inj heq
  · exact h₂
  · refine Eq.trans (uses_setSlot ?_ (by simp)) h₂
    simp [World.slot, World.setSlot]

theorem submitAccepted_uses (hp : (w.slot i).phase ≠ .free) :
    Preserves World.uses id w (submitAccepted os i w) := by
  unfold submitAccepted
  dsimp only
  split
  · refine .bind id ?_ fun w₁ h₁ => ?_
    · unfold World.askOrAbort
      split <;> rename_i heq <;> obtain ⟨-, rfl⟩ := Prod.mk.inj heq
      · exact .stopped trivial
      · exact .last (ask_uses os w _ rfl)
    · have hs : w.slot i = w₁.slot i := by rw [World.slot, World.slot, askOrAbort_dev h₁]
      rw [hs] at hp ⊢
      exact .last (submitExport_uses hp)
  · exact .last (submitExport_uses hp)

theorem withSlot_uses {β : Type} {out : β → World} (job : JobHandle) (phases : SlotPhase → Bool)
    {f : Option SlotId × World → Exec β} (hnone : ∀ w', Preserves World.uses out w' (f (none, w')))
    (hsome : ∀ i, phases (w.slot i).phase = true → Preserves World.uses out w (f (some i, w))) :
    Preserves World.uses out w (strelaJobSlotGet job phases w >>= f) := by
  rcases strelaJobSlotGet_cases job phases w with ⟨i, h, -, -, -, hp⟩ | ⟨w', h, hs, -, hd⟩
  · rw [h]
    exact hsome i hp
  · rw [h]
    exact .head (uses_of_table (table_of_dev hs hd)) (hnone w')

theorem strelaJobSubmit_uses (job : JobHandle) :
    Preserves World.uses Prod.snd w (strelaJobSubmit os job w) := by
  apply withSlot_uses
  · exact fun w' => .last rfl
  · intro i hp
    have hask := ask_uses os w (.strelaSubmit i (w.slot i).submit) rfl
    dsimp only
    split <;> rename_i heq <;> obtain ⟨-, rfl⟩ := Prod.mk.inj heq
    · exact .last hask
    · refine .head hask ?_
      exact .bind id (submitAccepted_uses (ne_free_of_submittable hp)) fun _ _ => .last rfl

theorem strelaJobUpdate_uses (timeout : ℤ) :
    Preserves World.uses id w (strelaJobUpdate os i timeout w) := by
  unfold strelaJobUpdate
  dsimp only
  split
  · rename_i hin
    have hp : (w.slot i).phase ≠ .free := by
      intro hf
      simp [inDriver, hf] at hin
    have hpoll := ask_uses os w (.poll i (w.slot i).fenceFd timeout) rfl
    have hinfo := (ask_uses os _ (.fileInfo i (w.slot i).fenceFd) rfl).trans hpoll
    split
    · split <;> rename_i heq <;> obtain ⟨-, rfl⟩ := Prod.mk.inj heq
      · split <;> exact .last hpoll
      · split
        · exact .last hpoll
        · split <;> rename_i heq <;> obtain ⟨-, rfl⟩ := Prod.mk.inj heq
          · exact .last hinfo
          · refine .last (Eq.trans (uses_setSlot ?_ (by simp)) hinfo)
            exact hp
    · exact .last rfl
  · exact .stopped trivial

theorem strelaJobPoll_uses (job : JobHandle) :
    Preserves World.uses Prod.snd w (strelaJobPoll os job w) :=
  withSlot_uses job inDriver (fun _ => .last rfl)
    fun _ _ => .bind id (strelaJobUpdate_uses 0) fun _ _ => .last rfl

theorem strelaJobWait_uses (job : JobHandle) (timeout : ℤ) :
    Preserves World.uses Prod.snd w (strelaJobWait os job timeout w) :=
  withSlot_uses job inDriver (fun _ => .last rfl)
    fun _ _ => .bind id (strelaJobUpdate_uses timeout) fun _ _ => .last rfl

theorem strelaJobFd_uses (job : JobHandle) :
    Preserves World.uses Prod.snd w (strelaJobFd job w) :=
  withSlot_uses job inDriver (fun _ => .last rfl) fun _ _ => .last rfl

theorem strelaExecute_uses : Preserves World.uses Prod.snd w (strelaExecute os w) := by
  refine .bind Prod.snd (strelaJobSubmit_uses _) fun p₁ _ => ?_
  refine .bind Prod.snd (strelaJobWait_uses _ 2000) fun p₂ _ => ?_
  refine .bind Prod.snd (strelaJobPoll_uses _) fun p₃ _ => ?_
  dsimp only
  split
  · exact .last rfl
  · exact .stopped trivial

def Call.Moves : Call → Bool
  | .jobConfig _ _ | .jobFree _ | .jobFreeAll | .config _ _ => true
  | _ => false

theorem exec_uses {c : Call} (hc : c.Moves = false) (h : c.exec A os w = .ok w') :
    w'.uses = w.uses := by
  have table {x : Exec World} (hx : Preserves World.table id w x) (h : x = .ok w') :
      w'.uses = w.uses := uses_of_table (hx.eq h)
  have uses {x : Exec World} (hx : Preserves World.uses id w x) (h : x = .ok w') :
      w'.uses = w.uses := hx.eq h
  have plain {w₁ : World} (ht : w₁.table = w.table) (h : Except.ok w₁ = (.ok w' : Exec World)) :
      w'.uses = w.uses := by
    obtain rfl := Except.ok.inj h
    exact uses_of_table ht
  cases c with
  | kernelAlloc => exact table (.map strelaKernelAlloc_table) h
  | kernelSet kernel data => exact plain (strelaKernelSet_table kernel data) h
  | kernelFree kernel => exact plain (checkKernel_table kernel) h
  | kernelFreeAll => exact plain strelaKernelFreeAll_table h
  | bufferAlloc sizeWords => exact table (.map (strelaBufferAlloc_table sizeWords)) h
  | bufferFromPtr ptr =>
    cases hx : strelaBufferFromPtr A ptr w with
    | error log => simp [Call.exec, hx, Except.map] at h
    | ok b =>
      simp only [Call.exec, hx, map_ok, Except.ok.injEq] at h
      rw [h]
  | bufferSetData buffer ptr | bufferGetData buffer ptr =>
    unfold Call.exec at h
    refine table ?_ h
    apply withBuffer_table buffer
    exact fun _ => .last rfl
  | bufferFree buffer => exact table (strelaBufferFree_table buffer) h
  | bufferFreeAll => exact plain strelaBufferFreeAll_table h
  | bufferFlush buffer offset count =>
    refine plain ?_ h
    unfold strelaBufferFlush
    dsimp only
    split
    · exact strelaBufferSync_table ..
    · rfl
  | bufferInval buffer offset count =>
    refine plain ?_ h
    unfold strelaBufferInval
    dsimp only
    split
    · exact strelaBufferSync_table ..
    · exact strelaBufferSync_table ..
  | jobSubmit job => exact uses (.map (strelaJobSubmit_uses job)) h
  | jobPoll job => exact uses (.map (strelaJobPoll_uses job)) h
  | jobWait job timeout => exact uses (.map (strelaJobWait_uses job timeout)) h
  | jobFd job => exact uses (.map (strelaJobFd_uses job)) h
  | execute => exact uses (.map strelaExecute_uses) h
  | jobConfig | jobFree | jobFreeAll | config => cases hc

/-! ## Filling and emptying slots -/

theorem strelaJobFree_cases {job : JobHandle} (h : strelaJobFree os job w = .ok w') :
    (∃ i : SlotId, w.ok = true ∧ job.valid = true ∧ job.handle = i ∧ Releases i w w') ∨
    ((w.ok = true → job.valid = true → 16 ≤ job.handle) ∧ w'.table = w.table) := by
  unfold strelaJobFree at h
  rcases strelaJobSlotGet_cases job (fun _ => true) w with
    ⟨i, hg, hok, hv, hi, -⟩ | ⟨w₁, hg, hs, -, hd⟩
  · rw [hg] at h
    exact .inl ⟨i, hok, hv, hi, strelaJobSlotRelease_releases h⟩
  · rw [hg] at h
    obtain rfl := Except.ok.inj h
    refine .inr ⟨fun hok hv => ?_, table_of_dev hs hd⟩
    by_contra hlt
    rw [strelaJobSlotGet_of_ok hok hv (i := ⟨job.handle, by omega⟩) rfl rfl] at hg
    cases hg

theorem strelaJobConfig_fills {kernel : Kernel} {conf : Conf} {job : JobHandle}
    (h : strelaJobConfig os kernel conf w = .ok (job, w')) :
    w'.fixed = w.fixed ∧ destroys w'.log = destroys w.log ∧
    ((∃ i : SlotId, job = ⟨true, i⟩ ∧ (w.slot i).phase = .free ∧ (w'.slot i).phase ≠ .free ∧
        ∀ j, j ≠ i → w'.slot j = w.slot j) ∨
      job = .none ∧ w'.dev.jobs = w.dev.jobs) := by
  have hask (i : SlotId) : destroys (w.ask os (.syncobjCreate i)).2.log = destroys w.log :=
    congrArg (fun t => t.1.2) (ask_table os w rfl)
  rcases strelaJobConfig_cases os kernel conf w with
    ⟨i, h₁, ⟨-, -, hf, -⟩, he⟩ | ⟨i, e, -, -, he⟩ | ⟨-, w₁, he, hs, hd⟩
  · rw [he] at h
    obtain ⟨rfl, rfl⟩ := Prod.mk.inj (Except.ok.inj h)
    refine ⟨rfl, hask i, .inl ⟨i, rfl, findFree_phase hf, ?_, fun j hj => ?_⟩⟩
    · simp [World.slot, World.setSlot]
    · simp [World.slot, World.setSlot, World.ask, hj]
  · rw [he] at h
    obtain ⟨rfl, rfl⟩ := Prod.mk.inj (Except.ok.inj h)
    exact ⟨rfl, hask i, .inr ⟨rfl, rfl⟩⟩
  · rw [he] at h
    obtain ⟨rfl, rfl⟩ := Prod.mk.inj (Except.ok.inj h)
    obtain ⟨hfd, hj⟩ := Prod.mk.inj (table_of_dev hs hd)
    obtain ⟨hf, hl⟩ := Prod.mk.inj hfd
    exact ⟨hf, hl, .inr ⟨rfl, hj⟩⟩

/-! ## Initializing again -/

/-- `strela_dev_init` of a device that is initialized already. -/
def strelaDevInit (A : Abi) (os : Os) (w : World) : Exec World := do
  let w ← strelaJobFreeAll os (w.setErr 0)
  .ok (strelaKernelFreeAll A (strelaBufferFreeAll A w))

theorem freeAll_slots (A : Abi) (w : World) :
    (strelaKernelFreeAll A (strelaBufferFreeAll A w)).slots = w.slots := by
  have hb : (strelaBufferFreeAll A w).slots = w.slots := by
    unfold strelaBufferFreeAll
    split <;> rfl
  rw [← hb]
  unfold strelaKernelFreeAll
  split <;> rfl

theorem freeAll_errnum (A : Abi) (w : World) :
    (strelaKernelFreeAll A (strelaBufferFreeAll A w)).dev.errnum = w.dev.errnum := by
  have hb : (strelaBufferFreeAll A w).dev.errnum = w.dev.errnum := by
    unfold strelaBufferFreeAll
    split <;> rfl
  rw [← hb]
  unfold strelaKernelFreeAll
  split <;> rfl

theorem strelaDevInit_tracks {stale : Prop} :
    Tracks os stale World.slots w.slots (strelaDevInit A os w) := by
  refine .bind World.slots (strelaJobFreeAll_tracks (w.setErr 0)) fun w₁ _ => .of_eq ?_
  exact (freeAll_slots A w₁).symm

/-- All slots are emptied, whatever error the device had. -/
theorem strelaDevInit_releases (h : strelaDevInit A os w = .ok w') : w'.fixed = w.fixed ∧
    (w.dev.initialized = true → ∀ i, (w'.slot i).phase = .free) := by
  obtain ⟨w₁, h₁, h⟩ := bind_eq_ok h
  obtain rfl := Except.ok.inj h
  obtain ⟨hf, -, hfree, -⟩ := strelaJobFreeAll_releases h₁
  have ht : (strelaKernelFreeAll A (strelaBufferFreeAll A w₁)).table = w₁.table :=
    strelaKernelFreeAll_table.trans strelaBufferFreeAll_table
  have hj : (strelaKernelFreeAll A (strelaBufferFreeAll A w₁)).dev.jobs = w₁.dev.jobs :=
    congrArg Prod.snd ht
  refine ⟨(fixed_of_table ht).trans hf, fun hi i => ?_⟩
  rw [World.slot, hj]
  exact hfree (by simp [World.ok, World.setErr, hi]) i

def mapFailed (A : Abi) : ℕ := A.modulus - 1

/-- A device that `strela_dev_init` has just set up. -/
structure Fresh (A : Abi) (w : World) : Prop where
  initialized : w.dev.initialized = true
  slots : ∀ i, w.slot i = .zero
  log : w.log = []
  compat : w.dev.backwardCompatJob = .none
  fd : w.dev.fd ≠ -1
  tensors : w.dev.tensorsBoMap ≠ 0 ∧ w.dev.tensorsBoMap ≠ mapFailed A
  kernels : w.dev.kernelsBoMap ≠ 0 ∧ w.dev.kernelsBoMap ≠ mapFailed A

theorem fresh_readyWorld : Fresh Abi.arm32 readyWorld where
  initialized := rfl
  slots _ := rfl
  log := rfl
  compat := rfl
  fd := by decide
  tensors := by decide
  kernels := by decide

inductive DevAction
  | lib (a : Action)
  | init

/-- The calls of a program on a device, which it may initialize again. -/
def devLts (A : Abi) (os : Os) : Lts World DevAction where
  start := Fresh A
  step
    | w, .lib a, w' => (libLts A os).step w a w'
    | w, .init, w' => strelaDevInit A os w = .ok w'

theorem strelaConfig_cases {kernel : Kernel} {conf : Conf}
    (h : strelaConfig os kernel conf w = .ok w') : ∃ w₁ job w₂,
      (if w.dev.backwardCompatJob.valid then strelaJobFree os w.dev.backwardCompatJob w
        else .ok w) = .ok w₁ ∧
      strelaJobConfig os kernel conf w₁ = .ok (job, w₂) ∧
      w' = { w₂ with dev := { w₂.dev with backwardCompatJob := job } } := by
  unfold strelaConfig at h
  split at h <;> rename_i hv
  · obtain ⟨w₁, h₁, h⟩ := bind_eq_ok h
    obtain ⟨⟨job, w₂⟩, h₂, h⟩ := bind_eq_ok h
    exact ⟨w₁, job, w₂, by rw [if_pos hv, h₁], h₂, (Except.ok.inj h).symm⟩
  · rw [ok_bind] at h
    obtain ⟨⟨job, w₂⟩, h₂, h⟩ := bind_eq_ok h
    exact ⟨w, job, w₂, if_neg hv, h₂, (Except.ok.inj h).symm⟩

theorem strelaConfig_anchored {kernel : Kernel} {conf : Conf}
    (h : strelaConfig os kernel conf w = .ok w') :
    w'.fixed = { w.fixed with backwardCompatJob := w'.dev.backwardCompatJob } := by
  obtain ⟨w₁, job, w₂, h₁, h₂, rfl⟩ := strelaConfig_cases h
  have hf₁ : w₁.fixed = w.fixed := by
    split at h₁
    · rcases strelaJobFree_cases h₁ with ⟨i, -, -, -, hr⟩ | ⟨-, ht⟩
      · exact hr.fixed
      · exact fixed_of_table ht
    · obtain rfl := Except.ok.inj h₁
      rfl
  have hf₂ := (strelaJobConfig_fills h₂).1.trans hf₁
  rw [← hf₂]
  rfl

theorem devLts_anchored {a : DevAction} (h : (devLts A os).step w a w') :
    w'.fixed = { w.fixed with backwardCompatJob := w'.dev.backwardCompatJob } := by
  have same (hf : w'.fixed = w.fixed) :
      w'.fixed = { w.fixed with backwardCompatJob := w'.dev.backwardCompatJob } := by
    rw [← hf]
    rfl
  cases a with
  | init => exact same (strelaDevInit_releases h).1
  | lib a =>
    cases a with
    | resetErr =>
      obtain rfl : w' = strelaDevResetErr w := h
      apply same
      unfold strelaDevResetErr
      split <;> rfl
    | call c =>
      cases hm : c.Moves with
      | false => exact same (fixed_of_uses (exec_uses hm h))
      | true =>
        cases c with
        | jobConfig kernel conf =>
          obtain ⟨⟨job, w₁⟩, h₁, rfl⟩ := map_eq_ok h
          exact same (strelaJobConfig_fills h₁).1
        | jobFree job =>
          rcases strelaJobFree_cases h with ⟨i, -, -, -, hr⟩ | ⟨-, ht⟩
          · exact same hr.fixed
          · exact same (fixed_of_table ht)
        | jobFreeAll => exact same (strelaJobFreeAll_releases h).1
        | config kernel conf => exact strelaConfig_anchored h
        | _ => cases hm

end Strela.Lib
