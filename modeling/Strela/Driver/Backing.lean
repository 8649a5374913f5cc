import Strela.Driver.Clients

/-! # The memory behind the jobs

Every interleaving of submits, of their unwinding, of freed jobs and of closed handles is
a run of the clients' resources with the same handles and the same counts. So the memory
of a buffer is there exactly as long as a handle, a job or a call in progress names the
buffer, and the device never runs on memory that was given back.
-/

namespace Strela.Driver.Clients

open Foundation Foundation.Proc

variable {w : ℕ} {objs : ObjId → GemObject w} {b b' : Books (State w) (Resource w)}
  {s s' : System} {l : Label} {file : FileId} {handle : U32} {o : ObjId} {k : Driver.Kernel}

/-! ## What a step of a submit does to the counts -/

theorem submitStep_gem (objs : ObjId → GemObject w) (k : Driver.Kernel) (c : SubmitCall)
    (r : Reply) :
    (submitStep objs k c r).1.gem = k.gem ∨
    (∃ handle, (submitStep objs k c r).1.gem = (k.gem.lookup c.file handle).2) ∨
    ∃ o, 0 < c.held o ∧ (submitStep objs k c r).1.gem = k.gem.put (some o) := by
  cases hpc : c.pc with
  | lookup rest =>
    cases rest with
    | nil => simp [submitStep, hpc]
    | cons t rest =>
      refine .inr (.inl ⟨(c.args.source t).handle, ?_⟩)
      simp only [submitStep, hpc]
      rcases k.gem.lookup c.file (c.args.source t).handle with ⟨_ | o, g⟩ <;> rfl
  | check t rest o =>
    simp only [submitStep, hpc]
    split
    · refine .inr (.inr ⟨o, ?_, rfl⟩)
      simp [SubmitCall.held, hpc]
    · exact .inl rfl
  | unwind rest e =>
    cases rest with
    | nil => simp [submitStep, hpc]
    | cons t rest =>
      simp only [submitStep, hpc]
      cases hobj : (c.job.buffers.get t).obj with
      | none => exact .inl rfl
      | some o =>
        refine .inr (.inr ⟨o, ?_, rfl⟩)
        simp only [SubmitCall.held, hpc]
        exact refsAt_pos List.mem_cons_self hobj
  | start | allocJob | allocFence | initSched | inFence | outSyncobj =>
    left
    simp only [submitStep, hpc]
    repeat' split
    all_goals rfl
  | initFence | replaceFence | push | putFence | free | returned =>
    left
    simp only [submitStep, hpc]

/-! ## The same steps with their resources -/

theorem drmGemObjectLookup_run (file : FileId) (handle : U32) (b : Books (State w) (Resource w)) :
    (drmGemObjectLookup file handle b).2.mem.gem = (b.mem.gem.lookup file handle).2 ∧
      (drmGemObjectLookup file handle b).2.mem.objs = b.mem.objs := by
  simp only [drmGemObjectLookup, bind, Proc.read]
  cases hl : b.mem.gem.handles.lookup (file, handle) with
  | none => exact ⟨by simp [ask, Gem.lookup, hl], rfl⟩
  | some o => exact ⟨rfl, rfl⟩

theorem drmGemHandleDelete_run (file : FileId) (handle : U32) (b : Books (State w) (Resource w)) :
    (drmGemHandleDelete file handle b).2.mem.gem = b.mem.gem.close file handle ∧
      (drmGemHandleDelete file handle b).2.mem.objs = b.mem.objs := by
  simp only [drmGemHandleDelete, bind, Proc.read, Gem.close]
  cases hl : b.mem.gem.handles.lookup (file, handle) with
  | none =>
    have hsame : (b.mem.gem.handles.eraseP fun h => h.1 == (file, handle)) = b.mem.gem.handles := by
      refine List.eraseP_of_forall_not fun h hm he => ?_
      have hne := List.lookup_eq_none_iff.mp hl h hm
      rw [beq_iff_eq.mp he, bne_self_eq_false] at hne
      cases hne
    rw [hsame]
    exact ⟨rfl, rfl⟩
  | some o =>
    have hrun := (drmGemObjectPut_run o ⟨{ b.mem with gem := { b.mem.gem with
      handles := b.mem.gem.handles.eraseP fun h => h.1 == (file, handle) } }, b.log⟩).2
    exact ⟨(congrArg State.gem hrun :), (congrArg State.objs hrun :)⟩

/-- What `GEM_NEW` makes: whole pages. -/
structure Whole (object : GemObject w) : Prop where
  nonzero : object.size ≠ 0
  pages : pageSize ∣ object.size.toNat

def makingKernel (object : GemObject w) (o : ObjId) (reply : Except Errno U32) :
    GemKernel 64 w where
  kzalloc := true
  objectInit _ := .ok ()
  createMmapOffset _ := .ok ()
  dmaAlloc _ := some object.dmaAddr
  mappingError _ := false
  handleCreate := reply
  nodeOffset := 0
  obj := o

theorem pageAlign_of_dvd {x : U64} (h : pageSize ∣ x.toNat) : pageAlign x = x := by
  apply BitVec.eq_of_toNat_eq
  rw [toNat_pageAlign, Foundation.Unsigned.roundUp, if_pos (Nat.mod_eq_zero_of_dvd h),
    Nat.mod_eq_of_lt x.isLt]

theorem strelaGemCreate_making (object : GemObject w) (o : ObjId) (reply : Except Errno U32)
    (b : Books (State w) (Resource w)) :
    ∃ b', strelaGemCreate (makingKernel object o reply) object.size b = (.ok object, b') ∧
      b'.mem = b.mem.make o object := by
  obtain ⟨hres, hmem⟩ := strelaGemCreate_run (makingKernel object o reply) object.size b
  have hok : Driver.strelaGemCreate (makingKernel object o reply) object.size = .ok object := by
    simp [Driver.strelaGemCreate, makingKernel, bind, Except.bind]
  rw [hok] at hres hmem
  exact ⟨_, Prod.ext hres rfl, hmem⟩

theorem gemNewHandle_making {object : GemObject w} (h : Whole object) (file : FileId) (o : ObjId)
    (reply : Except Errno U32) (b : Books (State w) (Resource w)) :
    (gemNewHandle (makingKernel object o reply) file ⟨object.size, 0⟩ b).2.mem.gem =
      (match reply with
      | .ok handle => ((b.mem.make o object).addHandle file handle o).gem
      | .error _ => (b.mem.make o object).gem.put (some o)) ∧
    (gemNewHandle (makingKernel object o reply) file ⟨object.size, 0⟩ b).2.mem.objs =
      Function.update b.mem.objs o object := by
  have haligned : ¬ (object.size = 0 ∨ ¬ isAligned object.size wordSize = true) := by
    have hword : wordSize ∣ object.size.toNat := Dvd.dvd.trans (by decide) h.pages
    rw [isAligned_of_dvd (show wordSize = 2 ^ 2 from rfl) (by decide) hword]
    simpa using h.nonzero
  obtain ⟨b', hc, hmem⟩ := strelaGemCreate_making object o reply b
  simp only [gemNewHandle, bind, ask, ne_eq, not_true_eq_false, if_false, haligned,
    pageAlign_of_dvd h.pages, BitVec.setWidth_eq, hc]
  cases reply with
  | ok handle =>
    constructor
    · exact (congrArg (fun t => (State.addHandle t file handle o).gem) hmem :)
    · exact (congrArg State.objs hmem :)
  | error e =>
    have hrun := (release_run o b').2
    rw [hmem] at hrun
    exact ⟨(congrArg State.gem hrun :), (congrArg State.objs hrun :)⟩

/-! ## Every interleaving -/

/-- A run of the clients' resources with the handles and the counts of the kernel, in which every
object was made as it is. -/
structure Backs (objs : ObjId → GemObject w) (k : Driver.Kernel)
    (b : Books (State w) (Resource w)) : Prop where
  reach : (clientLts w).Reach b
  gem : b.mem.gem = k.gem
  made : ∀ x ∈ k.gem.objects, b.mem.objs x = objs x

variable {k' : Driver.Kernel}

theorem Backs.congr (h : Backs objs k b) (hk : k'.gem = k.gem) : Backs objs k' b :=
  ⟨h.reach, h.gem.trans hk.symm, hk ▸ h.made⟩

theorem Backs.count_holds (h : Backs objs s.kernel b) (hi : Accounted s) (o : ObjId) :
    b.mem.holds.count o = jobRefs s.kernel.jobs o + callRefs s.calls o := by
  have hb := (kept_of_reach h.reach).2.stocked.balanced.count o
  have hs := hi.balanced.count o
  rw [h.gem, State.owned, h.gem] at hb
  rw [System.owned] at hs
  omega

theorem Backs.put (h : Backs objs k b) (ho : o ∈ b.mem.holds) (hk : k'.gem = k.gem.put (some o)) :
    ∃ b', Backs objs k' b' := by
  have hrun := (release_run o b).2
  refine ⟨_, h.reach.step (.release ho), ?_, fun x hx => ?_⟩
  · rw [hrun, hk, h.gem]
  · rw [hk, Gem.put_objects] at hx
    rw [hrun]
    exact h.made x hx

theorem Backs.lookup (h : Backs objs k b) (hk : k'.gem = (k.gem.lookup file handle).2) :
    ∃ b', Backs objs k' b' := by
  obtain ⟨hg, ho⟩ := drmGemObjectLookup_run file handle b
  refine ⟨_, h.reach.step (.lookup (f := file) (h := handle)), ?_, fun x hx => ?_⟩
  · rw [hg, hk, h.gem]
  · have hsame : (k.gem.lookup file handle).2.objects = k.gem.objects := by
      rw [Gem.lookup]
      split <;> rfl
    rw [hk, hsame] at hx
    rw [ho]
    exact h.made x hx

theorem Backs.close (h : Backs objs k b) (hk : k'.gem = k.gem.close file handle) :
    ∃ b', Backs objs k' b' := by
  obtain ⟨hg, ho⟩ := drmGemHandleDelete_run file handle b
  refine ⟨_, h.reach.step (.gemClose (f := file) (h := handle)), ?_, fun x hx => ?_⟩
  · rw [hg, hk, h.gem]
  · rw [hk, Gem.close, Gem.put_objects] at hx
    rw [ho]
    exact h.made x hx

/-- A file that names an object has been opened; here, at the latest when it makes its first. -/
theorem Backs.opened (h : Backs objs k b) (file : FileId) :
    ∃ b', Backs objs k b' ∧ file ∈ b'.mem.files := by
  by_cases hf : file ∈ b.mem.files
  · exact ⟨b, h, hf⟩
  · have hst : ClientStep b (.open file) (strelaOpenFile file true (.ok ()) b).2 := .open hf
    exact ⟨_, ⟨h.reach.step hst, h.gem, h.made⟩, List.mem_cons_self⟩

theorem Backs.gemNew (h : Backs objs k b) (hw : Whole (objs o)) (ho : o ∉ k.gem.objects)
    (file : FileId) (handle : U32) (hk : k'.gem = k.gem.create file handle o) :
    ∃ b', Backs objs k' b' := by
  obtain ⟨b₁, h₁, hf⟩ := h.opened file
  have hfresh : (makingKernel (objs o) o (.ok handle)).obj ∉ b₁.mem.gem.objects := h₁.gem ▸ ho
  obtain ⟨hg, hobjs⟩ := gemNewHandle_making hw file o (.ok handle) b₁
  refine ⟨_, h₁.reach.step (.gemNew (a := ⟨(objs o).size, 0⟩) hf hfresh), ?_, fun x hx => ?_⟩
  · rw [hg, hk, ← h₁.gem]
    simp [State.make, State.addHandle, Gem.create]
  · rw [hobjs]
    rcases eq_or_ne x o with rfl | hne
    · exact Function.update_self ..
    · rw [Function.update_of_ne hne]
      rw [hk, Gem.create, List.mem_cons] at hx
      exact h₁.made x (hx.resolve_left hne)

/-- An object that gets no handle is freed before anybody can name it. -/
theorem Backs.gemNewFail (h : Backs objs k b) (hi : Balanced k.gem k.gem.refs)
    (hw : Whole (objs o)) (ho : o ∉ k.gem.objects) (hk : k'.gem = k.gem.createFail o) :
    ∃ b', Backs objs k' b' := by
  obtain ⟨b₁, h₁, hf⟩ := h.opened 0
  have hfresh : (makingKernel (objs o) o (.error .enomem)).obj ∉ b₁.mem.gem.objects := h₁.gem ▸ ho
  obtain ⟨hg, hobjs⟩ := gemNewHandle_making hw 0 o (.error .enomem) b₁
  refine ⟨_, h₁.reach.step (.gemNew (a := ⟨(objs o).size, 0⟩) hf hfresh), ?_, fun x hx => ?_⟩
  · have hzero : b₁.mem.gem.refs o = 0 := h₁.gem ▸ hi.fresh o ho
    rw [hg, hk, ← h₁.gem]
    exact make_put hzero (objs o)
  · rw [hobjs]
    rcases eq_or_ne x o with rfl | hne
    · exact Function.update_self ..
    · rw [Function.update_of_ne hne]
      rw [hk, Gem.createFail, List.mem_cons] at hx
      exact h₁.made x (hx.resolve_left hne)

theorem callRefs_pos {pre post : List Call} {a : Call} (ha : 0 < a.held o) :
    0 < callRefs (pre ++ a :: post) o := by
  rw [callRefs_append, callRefs_cons]
  omega

theorem Backs.put_held {pre post : List Call} {a : Call} (h : Backs objs k b)
    (hi : Accounted ⟨k, pre ++ a :: post⟩) (ha : 0 < a.held o)
    (hk : k'.gem = k.gem.put (some o)) : ∃ b', Backs objs k' b' := by
  have hcount := Backs.count_holds (s := ⟨k, pre ++ a :: post⟩) h hi o
  have hpos : 0 < callRefs (pre ++ a :: post) o := callRefs_pos ha
  exact h.put (List.count_pos_iff.mp (by rw [hcount]; exact Nat.add_pos_right _ hpos)) hk

theorem Backs.step (hobjs : ∀ o, Whole (objs o)) (h : Backs objs s.kernel b) (hi : Accounted s)
    (hst : SystemStep objs s l s') : ∃ b', Backs objs s'.kernel b' := by
  cases hst with
  | gemNew _ ho => exact h.gemNew (hobjs _) ho _ _ rfl
  | gemNewReturn => exact h.put_held hi (by simp [Call.held]) rfl
  | gemNewFail ho =>
    exact h.gemNewFail ⟨fun _ => rfl, hi.balanced.fresh, hi.balanced.released⟩ (hobjs _) ho rfl
  | gemClose => exact h.close rfl
  | enter => exact ⟨b, h⟩
  | @submit k pre post c r =>
    rcases submitStep_gem objs k c r with hk | ⟨handle, hk⟩ | ⟨o, hc, hk⟩
    · exact ⟨b, h.congr hk⟩
    · exact h.lookup hk
    · exact h.put_held hi hc hk
  | freeJob => exact ⟨b, h.congr rfl⟩
  | @freePut k pre post j t rest =>
    cases hobj : (j.buffers.get t).obj with
    | none => exact ⟨b, h.congr rfl⟩
    | some o => exact h.put_held hi (refsAt_pos List.mem_cons_self hobj) rfl
  | freeReturn => exact ⟨b, h⟩

theorem backs_of_reach (hobjs : ∀ o, Whole (objs o)) (hr : (kernelLts objs).Reach s) :
    ∃ b, Backs objs s.kernel b := by
  refine hr.invariant (P := fun s => ∃ b, Backs objs s.kernel b) ?_ fun s l s' hs h hst => ?_
  · rintro ⟨k, cs⟩ ⟨hg, -, -⟩
    refine ⟨⟨.probed, []⟩, .start rfl, hg.symm, fun x hx => ?_⟩
    rw [hg] at hx
    cases hx
  · obtain ⟨b, hb⟩ := h
    exact hb.step hobjs (accounted_of_reach hs) hst

theorem Backs.held_dma (h : Backs objs s.kernel b) (hi : Accounted s) (o : ObjId) (size : U64)
    (addr : BitVec w) (dir : Direction) :
    .dma o size addr dir ∈ heldSet b.log ↔
      0 < s.owned o ∧ size = (objs o).size ∧ addr = (objs o).dmaAddr ∧ dir = .bidirectional := by
  rw [(kept_of_reach h.reach).2.stocked.held, Owned, h.gem, hi.balanced.count]
  refine and_congr_right fun hpos => ?_
  have hmem : o ∈ s.kernel.gem.objects := by
    by_contra hno
    have := hi.balanced.fresh o hno
    rw [hi.balanced.count] at this
    omega
  simp [State.dma, h.made o hmem]

/-- Behind every interleaving of the driver's calls there is an orderly history of allocations with
the same handles and counts, in which the memory of an object is held, as it was allocated, exactly
while something names the object: so the memory of each job is there until the job is freed. -/
theorem reach_backed (hobjs : ∀ o, Whole (objs o)) (hr : (kernelLts objs).Reach s) :
    ∃ b, (clientLts w).Reach b ∧ b.mem.gem = s.kernel.gem ∧ Orderly Rests b.log ∧
      (∀ o size addr dir, .dma o size addr dir ∈ heldSet b.log ↔
        0 < s.owned o ∧ size = (objs o).size ∧ addr = (objs o).dmaAddr ∧ dir = .bidirectional) ∧
      ∀ j ∈ s.kernel.jobs, ∀ t o, (j.buffers.get t).obj = some o →
        .dma o (objs o).size (objs o).dmaAddr .bidirectional ∈ heldSet b.log := by
  have hi := accounted_of_reach hr
  obtain ⟨b, h⟩ := backs_of_reach hobjs hr
  refine ⟨b, h.reach, h.gem, (kept_of_reach h.reach).1, h.held_dma hi, fun j hj t o ho => ?_⟩
  have hpos := jobRefs_pos hj ho
  refine (h.held_dma hi ..).mpr ⟨?_, rfl, rfl, rfl⟩
  rw [System.owned]
  omega

theorem reach_backed_accepted : ∃ b, (clientLts 32).Reach b ∧
    b.mem.gem = acceptedRun.1.gem ∧ .dma 0 4096 0x1000 .bidirectional ∈ heldSet b.log ∧
    .dma 1 4096 0x1000 .bidirectional ∉ heldSet b.log := by
  have hwhole : Whole (⟨4096, 0x1000⟩ : GemObject 32) := ⟨by decide, by decide⟩
  have hpage : ∀ o, Whole (pageObjs o) := fun _ => hwhole
  have hr : (kernelLts pageObjs).Reach ⟨acceptedRun.1, [.submit acceptedRun.2]⟩ :=
    reach_submitRun answers (reach_oneBuffer.step .enter)
  obtain ⟨b, hb, hg, -, hdma, -⟩ := reach_backed hpage hr
  refine ⟨b, hb, hg, (hdma ..).mpr ⟨by decide, rfl, rfl, rfl⟩, fun h => ?_⟩
  exact absurd ((hdma ..).mp h).1 (by decide)

end Strela.Driver.Clients
