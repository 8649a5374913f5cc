import Strela.Foundation.Transition
import Strela.Foundation.Unwind
import Strela.Driver.Binding

/-! # Loading the module and binding its devices

Every platform device that the driver is bound to, of the device tree or registered by
the module itself to be simulated, has a device structure, a scheduler and a device
node, and one of the device tree has its registers and its interrupt as well. The
driver core gives back what a device took through `devm_` once the driver has let go of
it, or has failed to bind to it, last taken first; the rest is for the driver to give
back. Any call of the kernel may fail.
-/

namespace Strela.Driver

open Foundation Foundation.Proc

/-- A platform device: only one of the device tree has a node in it. -/
inductive PlatformDev | tree (n : ℕ) | sim (i : Fin 4)
  deriving DecidableEq, Repr

def PlatformDev.isSim : PlatformDev → Bool
  | tree _ => false
  | sim _ => true

/-- The registration of the driver and of each simulated platform device, and of a bound device the
structure, the mapping of its registers, its interrupt, its scheduler and its node. -/
inductive Resource
  | driver
  | pdev (i : Fin 4)
  | drm (d : PlatformDev)
  | mmio (d : PlatformDev)
  | irq (d : PlatformDev)
  | sched (d : PlatformDev)
  | node (d : PlatformDev)
  deriving DecidableEq, Repr

/-- The mapping is kept in the structure, the handler reads the registers, the scheduler starts the
device and is told by the handler that it is done, and the node's calls submit to the scheduler. -/
inductive Rests : Resource → Resource → Prop
  | drmDriver {d : PlatformDev} : Rests (.drm d) .driver
  | drmParent {i : Fin 4} : Rests (.drm (.sim i)) (.pdev i)
  | regsDevice {d : PlatformDev} : Rests (.mmio d) (.drm d)
  | irqRegs {d : PlatformDev} : Rests (.irq d) (.mmio d)
  | irqDevice {d : PlatformDev} : Rests (.irq d) (.drm d)
  | schedDevice {d : PlatformDev} : Rests (.sched d) (.drm d)
  | schedRegs {d : PlatformDev} : d.isSim = false → Rests (.sched d) (.mmio d)
  | schedIrq {d : PlatformDev} : d.isSim = false → Rests (.sched d) (.irq d)
  | nodeSched {d : PlatformDev} : Rests (.node d) (.sched d)

/-- Whether the driver is registered, which entries of `strela_sim_pdevs` are not null, and what the
driver core knows: the devices that are bound, and what each took through `devm_`, last first. -/
structure Core where
  driver : Bool
  pdevs : Fin 4 → Bool
  bound : List PlatformDev
  devres : PlatformDev → List Resource

def Core.setDevres (s : Core) (d : PlatformDev) (ks : List Resource) : Core :=
  { s with devres := Function.update s.devres d ks }

def Core.unloaded : Core := ⟨false, fun _ => false, [], fun _ => []⟩

/-- How the kernel and the device answer a probe; `a` and `b` are the two random numbers of the
challenge. -/
structure ProbeReply where
  drmDevAlloc : Except Errno Unit
  dmaSetMask : Except Errno Unit
  ioremap : Except Errno Unit
  a : U32
  b : U32
  opr : U32
  getIrq : Except Errno Unit
  requestIrq : Except Errno Unit
  schedInit : Except Errno Unit
  devRegister : Except Errno Unit

abbrev ModuleProc := Proc Core Resource Errno Unit

variable (d : PlatformDev) (r : ProbeReply)

/-! ## The driver -/

def devmTake (k : Resource) (reply : Except Errno Unit) : ModuleProc := do
  take k reply
  modify fun s => s.setDevres d (k :: s.devres d)

def eio : Errno := .other 5

def strelaHwSetup : ModuleProc :=
  if d.isSim then pure ()
  else do
    devmTake d (.mmio d) r.ioremap
    use (.mmio d)
    ask (if r.opr ≠ r.a + r.b then .error eio else .ok ())
    ask r.getIrq
    devmTake d (.irq d) r.requestIrq

def strelaJobInit : ModuleProc := take (.sched d) r.schedInit

/-- A simulated device has no registers to stop. -/
def hwStop : ModuleProc := if d.isSim then use (.drm d) else use (.mmio d)

def strelaJobFini : ModuleProc := do
  use (.sched d)
  give (.sched d)
  hwStop d
  use (.drm d)

def strelaProbe : ModuleProc := do
  devmTake d (.drm d) r.drmDevAlloc
  ask r.dmaSetMask
  strelaHwSetup d r
  strelaJobInit d r
  orElseDo (take (.node d) r.devRegister) (strelaJobFini d)

def strelaRemove : ModuleProc := do
  give (.node d)
  strelaJobFini d

/-! ## The driver core -/

def devresReleaseAll : ModuleProc := do
  let s ← read
  each give (s.devres d)
  modify fun s => s.setDevres d []

/-- A device that is not bound is probed, and nobody is told if that fails. -/
def deviceAttach : ModuleProc := do
  let s ← read
  if d ∈ s.bound then pure ()
  else do
    match ← attempt (strelaProbe d r) with
    | .ok () => modify fun s => { s with bound := d :: s.bound }
    | .error _ => devresReleaseAll d

def deviceReleaseDriver : ModuleProc := do
  let s ← read
  if d ∈ s.bound then do
    strelaRemove d
    devresReleaseAll d
    modify fun s => { s with bound := s.bound.erase d }
  else pure ()

/-- Registering the driver probes the devices of the device tree that are there. -/
def platformDriverRegister (reply : Except Errno Unit) (present : List (ℕ × ProbeReply)) :
    ModuleProc := do
  take .driver reply
  modify fun s => { s with driver := true }
  each (fun x => deviceAttach (.tree x.1) x.2) present

def platformDriverUnregister : ModuleProc := do
  let s ← read
  each deviceReleaseDriver s.bound
  give .driver
  modify fun s => { s with driver := false }

def platformDeviceRegisterSimple (i : Fin 4) (reply : Except Errno Unit) (r : ProbeReply) :
    ModuleProc := do
  take (.pdev i) reply
  deviceAttach (.sim i) r

def platformDeviceUnregister (i : Fin 4) : ModuleProc := do
  deviceReleaseDriver (.sim i)
  give (.pdev i)

/-! ## The module -/

def setPdev (i : Fin 4) (present : Bool) : ModuleProc :=
  modify fun s => { s with pdevs := Function.update s.pdevs i present }

/-- Unregistering a null pointer does nothing. -/
def strelaSimDevUnregister : ModuleProc :=
  each (fun i => do
    let s ← read
    if s.pdevs i then platformDeviceUnregister i
    setPdev i false) (List.finRange 4)

def strelaSimDevRegister (simDevCount : ℕ) (reply : Fin 4 → Except Errno Unit × ProbeReply) :
    ModuleProc :=
  each (fun i => do
    orElseDo (platformDeviceRegisterSimple i (reply i).1 (reply i).2) (do
      setPdev i false
      strelaSimDevUnregister)
    setPdev i true) ((List.finRange 4).filter fun i => i.val < simDevCount)

structure LoadReply where
  driver : Except Errno Unit
  present : List (ℕ × ProbeReply)
  sim : Fin 4 → Except Errno Unit × ProbeReply

def strelaInit (simDevCount : ℕ) (reply : LoadReply) : ModuleProc := do
  platformDriverRegister reply.driver reply.present
  orElseDo (strelaSimDevRegister simDevCount reply.sim) platformDriverUnregister

def strelaExit : ModuleProc := do
  strelaSimDevUnregister
  platformDriverUnregister

/-! ## What one device takes -/

@[simp] theorem Core.setDevres_devres (s : Core) (ks : List Resource) :
    (s.setDevres d ks).devres d = ks := Function.update_self ..

@[simp] theorem Core.setDevres_setDevres (s : Core) (ks ks' : List Resource) :
    (s.setDevres d ks).setDevres d ks' = s.setDevres d ks' := by
  simp [Core.setDevres]

def Resource.dev : Resource → Option PlatformDev
  | driver | pdev _ => none
  | drm d | mmio d | irq d | sched d | node d => some d

theorem Rests.dev {k k' : Resource} (h : Rests k k') (hd : k'.dev = some d) : k.dev = some d := by
  cases h <;> first | exact hd | cases hd

/-- What a device can take through `devm_`, last first. -/
def PlatformDev.stack : List Resource := [.irq d, .mmio d, .drm d]

def PlatformDev.devm : List Resource := if d.isSim then [.drm d] else d.stack

variable {d r} {s : Core} {H : Set Resource} {ks : List Resource}
  {T : Unit → Core → Set Resource → Prop} {E : Errno → Core → Set Resource → Prop}

def Free (d : PlatformDev) (H : Set Resource) : Prop := ∀ k ∈ H, k.dev ≠ some d

theorem Free.notMem (h : Free d H) {k : Resource} (hk : k.dev = some d) : k ∉ H :=
  fun hm => h k hm hk

theorem wp_devmTake {k : Resource} {reply : Except Errno Unit} (hk : k ∉ H)
    (hr : ∀ k', Rests k k' → k' ∈ H)
    (hok : T () (s.setDevres d (k :: s.devres d)) (insert k H))
    (he : ∀ e, E e s H) : wp (Orderly Rests) (devmTake d k reply) T E s H :=
  wp_bind (wp_take hk hr (fun _ => wp_modify hok) fun e _ => he e)

/-- Giving back the part of its stack that the device holds never takes away what another resource
rests on. -/
theorem wp_devresReleaseAll (hd : s.devres d = ks) (hks : ks <:+ d.stack) (hf : Free d H)
    (h : T () (s.setDevres d []) H) :
    wp (Orderly Rests) (devresReleaseAll d) T E s (H ∪ {k | k ∈ ks}) := by
  have hdev (k : Resource) (hk : k ∈ d.stack) : k.dev = some d := by
    simp only [PlatformDev.stack, List.mem_cons, List.not_mem_nil, or_false] at hk
    obtain rfl | rfl | rfl := hk <;> rfl
  have hnd : d.stack.Nodup := by simp [PlatformDev.stack]
  refine wp_bind (wp_read (wp_bind ?_))
  rw [hd]
  refine wp_each_give (hnd.sublist hks.sublist)
    (fun k hk => hf.notMem (hdev k (hks.subset hk))) ?_ (wp_modify h)
  intro k ks' l hsuffix hl hheld
  have hcases : (k = .irq d ∧ ks' = [.mmio d, .drm d]) ∨ (k = .mmio d ∧ ks' = [.drm d]) ∨
      (k = .drm d ∧ ks' = []) := by
    simpa [PlatformDev.stack, List.suffix_cons_iff] using hsuffix.trans hks
  refine hl.give ?_ ?_
  · rw [hheld]
    exact .inr List.mem_cons_self
  · rw [hheld]
    rintro k' (hk' | hk') hrest
    · exact hf k' hk' (hrest.dev d (hdev k (hks.subset (hsuffix.subset List.mem_cons_self))))
    · obtain ⟨rfl, rfl⟩ | ⟨rfl, rfl⟩ | ⟨rfl, rfl⟩ := hcases <;>
        simp only [Set.mem_ofPred_eq, List.mem_cons, List.not_mem_nil, or_false] at hk'
      · obtain rfl | rfl | rfl := hk' <;> cases hrest
      · obtain rfl | rfl := hk' <;> cases hrest
      · obtain rfl := hk'
        cases hrest

theorem wp_hwStop (hdrm : .drm d ∈ H) (hregs : d.isSim = false → .mmio d ∈ H) (h : T () s H) :
    wp (Orderly Rests) (hwStop d) T E s H := by
  unfold hwStop
  split
  · exact wp_use hdrm h
  · rename_i hsim
    exact wp_use (hregs (by simpa using hsim)) h

theorem wp_strelaJobFini (hsched : .sched d ∈ H) (hnode : .node d ∉ H) (hdrm : .drm d ∈ H)
    (hregs : d.isSim = false → .mmio d ∈ H) (h : T () s (H \ {.sched d})) :
    wp (Orderly Rests) (strelaJobFini d) T E s H := by
  have hdrm' : Resource.drm d ∈ H \ {.sched d} := ⟨hdrm, by simp⟩
  refine wp_bind (wp_use hsched (wp_bind (wp_give hsched ?_ (wp_bind
    (wp_hwStop hdrm' (fun hs => ⟨hregs hs, by simp⟩) (wp_use hdrm' h))))))
  rintro k hk hrest
  cases hrest
  exact hnode hk

def bundle (d : PlatformDev) (H : Set Resource) : Set Resource :=
  insert (.node d) (insert (.sched d) (H ∪ {k | k ∈ d.devm}))

/-- A probe that fails leaves only what the driver core gives back. -/
def Remains (d : PlatformDev) (s : Core) (H : Set Resource) (s' : Core) (H' : Set Resource) :
    Prop :=
  ∃ ks, ks <:+ d.stack ∧ s' = s.setDevres d ks ∧ H' = H ∪ {k | k ∈ ks}

theorem wp_strelaHwSetup (hf : Free d H)
    (hok : T () (s.setDevres d d.devm) (H ∪ {k | k ∈ d.devm}))
    (he : ∀ e ks, ks <:+ d.stack → E e (s.setDevres d ks) (H ∪ {k | k ∈ ks})) :
    wp (Orderly Rests) (strelaHwSetup d r) T E (s.setDevres d [.drm d])
      (H ∪ {k | k ∈ [.drm d]}) := by
  have hsuffix (ks : List Resource) (h : ks = [.drm d] ∨ ks = [.mmio d, .drm d]) :
      ks <:+ d.stack := by
    obtain rfl | rfl := h <;> simp [PlatformDev.stack, List.suffix_cons_iff]
  unfold strelaHwSetup
  split
  · rename_i hsim
    rw [PlatformDev.devm, if_pos hsim] at hok
    exact wp_pure hok
  · rename_i hsim
    rw [PlatformDev.devm, if_neg hsim, PlatformDev.stack] at hok
    have hmmio : Resource.mmio d ∉ H ∪ {k | k ∈ [.drm d]} := by
      simp [hf.notMem (show (Resource.mmio d).dev = some d from rfl)]
    have hirq : Resource.irq d ∉ H ∪ {k | k ∈ [.mmio d, .drm d]} := by
      simp [hf.notMem (show (Resource.irq d).dev = some d from rfl)]
    refine wp_bind (wp_devmTake hmmio ?_ ?_ fun e => he e _ (hsuffix _ (.inl rfl)))
    · rintro k' hrest
      cases hrest
      exact .inr List.mem_cons_self
    rw [insert_union_mem, Core.setDevres_devres, Core.setDevres_setDevres]
    have hfail (e : Errno) := he e _ (hsuffix _ (.inr rfl))
    refine wp_bind (wp_use (.inr List.mem_cons_self) (wp_bind (wp_ask (fun _ _ => ?_)
      fun e _ => hfail e)))
    refine wp_bind (wp_ask (fun _ _ => wp_devmTake hirq ?_ ?_ hfail) fun e _ => hfail e)
    · rintro k' hrest
      cases hrest <;> simp
    · rwa [insert_union_mem, Core.setDevres_devres, Core.setDevres_setDevres]

theorem wp_strelaProbe (hf : Free d H) (hd : s.devres d = []) (hdriver : .driver ∈ H)
    (hparent : ∀ i, d = .sim i → .pdev i ∈ H) (hok : T () (s.setDevres d d.devm) (bundle d H))
    (he : ∀ e s' H', Remains d s H s' H' → E e s' H') :
    wp (Orderly Rests) (strelaProbe d r) T E s H := by
  have hnone : s.setDevres d [] = s := by rw [← hd, Core.setDevres, Function.update_eq_self]
  have hfail (e : Errno) (ks : List Resource) (hks : ks <:+ d.stack) :
      E e (s.setDevres d ks) (H ∪ {k | k ∈ ks}) := he e _ _ ⟨ks, hks, rfl, rfl⟩
  have hfirst (e : Errno) : E e s H := by
    have := hfail e [] (List.nil_suffix)
    rw [hnone] at this
    simpa using this
  have hdrm : H ∪ {k | k ∈ [.drm d]} = insert (.drm d) H := by
    rw [← insert_union_mem]
    simp
  have hdevm : d.devm <:+ d.stack := by
    unfold PlatformDev.devm
    split <;> simp [PlatformDev.stack, List.suffix_cons_iff]
  refine wp_bind (wp_devmTake (hf.notMem rfl) ?_ ?_ hfirst)
  · rintro k' hrest
    cases hrest with
    | drmDriver => exact hdriver
    | drmParent => exact hparent _ rfl
  rw [hd, ← hdrm]
  refine wp_bind (wp_ask (fun _ _ => ?_) fun e _ =>
    hfail e _ (by simp [PlatformDev.stack, List.suffix_cons_iff]))
  refine wp_bind (wp_strelaHwSetup hf ?_ hfail)
  have hmem : Resource.drm d ∈ H ∪ {k | k ∈ d.devm} := by
    right
    cases d <;> simp [PlatformDev.devm, PlatformDev.isSim, PlatformDev.stack]
  have hregs (hs : d.isSim = false) : Resource.mmio d ∈ H ∪ {k | k ∈ d.devm} ∧
      Resource.irq d ∈ H ∪ {k | k ∈ d.devm} := by
    simp [PlatformDev.devm, hs, PlatformDev.stack]
  have hout (k : Resource) (hk : k.dev = some d) (hk' : k ∉ d.stack) :
      k ∉ H ∪ {k | k ∈ d.devm} := by
    rintro (h | h)
    · exact hf.notMem hk h
    · exact hk' (hdevm.subset h)
  refine wp_bind (wp_take (hout _ rfl (by simp [PlatformDev.stack])) ?_ (fun _ => ?_)
    fun e _ => hfail e _ hdevm)
  · rintro k' hrest
    cases hrest with
    | schedDevice => exact hmem
    | schedRegs hs => exact (hregs hs).1
    | schedIrq hs => exact (hregs hs).2
  · have hnode := hout (.node d) rfl (by simp [PlatformDev.stack])
    refine wp_orElseDo (wp_take (by simpa using hnode) ?_ (fun _ => hok) fun e _ => ?_)
    · rintro k' hrest
      cases hrest
      exact .inl rfl
    · refine wp_strelaJobFini (.inl rfl) (by simpa using hnode) (.inr hmem)
        (fun hs => .inr (hregs hs).1) ?_
      rw [Set.insert_sdiff_self_of_notMem (hout _ rfl (by simp [PlatformDev.stack]))]
      exact hfail e _ hdevm

/-! ## What all of them take -/

/-- What is held with these registrations and these devices bound. -/
def Owned (driver : Bool) (regs : Fin 4 → Bool) (bound : List PlatformDev) : Resource → Prop
  | .driver => driver = true
  | .pdev i => regs i = true
  | .drm d | .sched d | .node d => d ∈ bound
  | .mmio d | .irq d => d ∈ bound ∧ d.isSim = false

/-- What is held is what the driver and its bound devices need, with `regs` for the simulated
platform devices that are registered. -/
structure Tidy (regs : Fin 4 → Bool) (s : Core) (H : Set Resource) : Prop where
  held : ∀ k, k ∈ H ↔ Owned s.driver regs s.bound k
  devres : ∀ d, s.devres d = if d ∈ s.bound then d.devm else []
  nodup : s.bound.Nodup
  driver : ∀ d ∈ s.bound, s.driver = true
  parent : ∀ i, .sim i ∈ s.bound → regs i = true

variable {regs : Fin 4 → Bool}

theorem Tidy.free (h : Tidy regs s H) (hd : d ∉ s.bound) : Free d H := by
  rintro k hk hdev
  rw [h.held] at hk
  cases k with
  | driver | pdev => cases hdev
  | drm | sched | node =>
    obtain rfl := Option.some.inj hdev
    exact hd hk
  | mmio | irq =>
    obtain rfl := Option.some.inj hdev
    exact hd hk.1

theorem mem_devm_iff {k : Resource} :
    k ∈ d.devm ↔ k = .drm d ∨ d.isSim = false ∧ (k = .mmio d ∨ k = .irq d) := by
  cases d with
  | tree n =>
    simp [PlatformDev.devm, PlatformDev.isSim, PlatformDev.stack]
    tauto
  | sim i => simp [PlatformDev.devm, PlatformDev.isSim]

theorem Tidy.bind (h : Tidy regs s H) (hd : d ∉ s.bound) (hdriver : s.driver = true)
    (hparent : ∀ i, d = .sim i → regs i = true) :
    Tidy regs { s.setDevres d d.devm with bound := d :: s.bound } (bundle d H) := by
  constructor
  · intro k
    simp only [bundle, Set.mem_insert_iff, Set.mem_union, Set.mem_ofPred_eq, mem_devm_iff, h.held]
    cases k <;> simp [Owned, Core.setDevres] <;> grind
  · intro d'
    rcases eq_or_ne d' d with rfl | hne
    · simp
    · simp [Core.setDevres, hne, h.devres]
  · exact List.nodup_cons.mpr ⟨hd, h.nodup⟩
  · exact fun _ _ => hdriver
  · rintro i hi
    rcases List.mem_cons.mp hi with hi | hi
    · exact hparent i hi.symm
    · exact h.parent i hi

/-- Probing a device never changes what the others hold, whether it succeeds or not. -/
theorem wp_deviceAttach (h : Tidy regs s H) (hdriver : s.driver = true)
    (hparent : ∀ i, d = .sim i → regs i = true)
    (hT : ∀ s' H', Tidy regs s' H' → s'.driver = true → s'.pdevs = s.pdevs → T () s' H') :
    wp (Orderly Rests) (deviceAttach d r) T E s H := by
  refine wp_bind (wp_read ?_)
  split
  · exact wp_pure (hT s H h hdriver rfl)
  rename_i hd
  refine wp_bind (wp_attempt (wp_strelaProbe (h.free hd) (by rw [h.devres, if_neg hd])
    ((h.held _).mpr hdriver) (fun i hi => (h.held _).mpr (hparent i hi)) ?_ ?_))
  · exact wp_modify (hT _ _ (h.bind hd hdriver hparent) hdriver rfl)
  · rintro e s' H' ⟨ks, hks, rfl, rfl⟩
    refine wp_devresReleaseAll (Core.setDevres_devres _ _ _) hks (h.free hd) ?_
    have hnone : s.setDevres d [] = s := by
      have := h.devres d
      rw [if_neg hd] at this
      rw [← this, Core.setDevres, Function.update_eq_self]
    rw [Core.setDevres_setDevres, hnone]
    exact hT s H h hdriver rfl

def without (d : PlatformDev) (H : Set Resource) : Set Resource := {k ∈ H | k.dev ≠ some d}

theorem free_without : Free d (without d H) := fun _ hk => hk.2

theorem Tidy.bundle_without (h : Tidy regs s H) (hd : d ∈ s.bound) :
    bundle d (without d H) = H := by
  ext k
  simp only [bundle, without, Set.mem_insert_iff, Set.mem_union, Set.mem_ofPred_eq, mem_devm_iff,
    h.held]
  cases k <;> simp [Owned, Resource.dev] <;> grind

theorem Tidy.unbind (h : Tidy regs s H) :
    Tidy regs { s.setDevres d [] with bound := s.bound.erase d } (without d H) := by
  constructor
  · intro k
    simp only [without, Set.mem_ofPred_eq, h.held]
    cases k <;> simp [Owned, Resource.dev, Core.setDevres, h.nodup.mem_erase_iff] <;> grind
  · intro d'
    rcases eq_or_ne d' d with rfl | hne
    · simp [h.nodup.mem_erase_iff]
    · simp [Core.setDevres, hne, h.devres, h.nodup.mem_erase_iff]
  · exact h.nodup.erase d
  · exact fun d' hd' => h.driver d' (List.mem_of_mem_erase hd')
  · exact fun i hi => h.parent i (List.mem_of_mem_erase hi)

theorem wp_deviceReleaseDriver (h : Tidy regs s H)
    (hT : ∀ s' H', Tidy regs s' H' → s'.driver = s.driver → s'.pdevs = s.pdevs →
      s'.bound = s.bound.erase d → T () s' H') :
    wp (Orderly Rests) (deviceReleaseDriver d) T E s H := by
  refine wp_bind (wp_read ?_)
  split
  · rename_i hd
    have hdevm : d.devm <:+ d.stack := by
      unfold PlatformDev.devm
      split <;> simp [PlatformDev.stack, List.suffix_cons_iff]
    have hmem {k : Resource} (hk : k.dev = some d) : k ∈ H ↔ k = .node d ∨ k = .sched d ∨
        k ∈ d.devm := by
      nth_rw 1 [← h.bundle_without hd]
      simp [bundle, free_without.notMem hk]
    have hdev : s.devres d = d.devm := by rw [h.devres, if_pos hd]
    refine wp_bind (wp_bind (wp_give ((hmem rfl).mpr (.inl rfl)) ?_ ?_))
    · rintro k - hrest
      cases hrest
    · refine wp_strelaJobFini ?_ ?_ ?_ ?_ ?_
      · exact ⟨(hmem rfl).mpr (.inr (.inl rfl)), by simp⟩
      · simp
      · exact ⟨(hmem rfl).mpr (.inr (.inr (mem_devm_iff.mpr (.inl rfl)))), by simp⟩
      · intro hs
        exact ⟨(hmem rfl).mpr (.inr (.inr (mem_devm_iff.mpr (.inr ⟨hs, .inl rfl⟩)))), by simp⟩
      · have hrest : (H \ {.node d}) \ {.sched d} = without d H ∪ {k | k ∈ d.devm} := by
          have hout (k : Resource) (hk : k.dev = some d) (hk' : k ∉ d.devm) :
              k ∉ without d H ∪ {k | k ∈ d.devm} := by simp [free_without.notMem hk, hk']
          have hsched := hout (.sched d) rfl (by simp [mem_devm_iff])
          have hnode := hout (.node d) rfl (by simp [mem_devm_iff])
          conv_lhs => rw [← h.bundle_without hd, bundle]
          rw [Set.insert_sdiff_self_of_notMem (by simpa using hnode),
            Set.insert_sdiff_self_of_notMem hsched]
        rw [hrest]
        refine wp_bind (wp_devresReleaseAll hdev hdevm free_without (wp_modify ?_))
        exact hT _ _ h.unbind rfl rfl rfl
  · rename_i hd
    refine wp_pure (hT s H h rfl rfl (List.erase_of_not_mem hd).symm)

/-! ## The module -/

theorem wp_platformDriverRegister {reply : Except Errno Unit} {present : List (ℕ × ProbeReply)}
    (h : Tidy regs s H) (hdriver : s.driver = false)
    (hT : ∀ s' H', Tidy regs s' H' → s'.driver = true → s'.pdevs = s.pdevs → T () s' H')
    (hE : ∀ e, E e s H) : wp (Orderly Rests) (platformDriverRegister reply present) T E s H := by
  have hnil : s.bound = [] := by
    refine List.eq_nil_iff_forall_not_mem.mpr fun d hd => ?_
    rw [h.driver d hd] at hdriver
    cases hdriver
  refine wp_bind (wp_take (by simp [h.held, Owned, hdriver]) nofun (fun _ => ?_) fun e _ => hE e)
  have hreg : Tidy regs { s with driver := true } (insert .driver H) := by
    refine ⟨fun k => ?_, h.devres, h.nodup, fun _ _ => rfl, h.parent⟩
    rw [Set.mem_insert_iff, h.held]
    cases k <;> simp [Owned]
  refine wp_bind (wp_modify ?_)
  refine wp_each (I := fun _ s' H' => Tidy regs s' H' ∧ s'.driver = true ∧ s'.pdevs = s.pdevs) ?_
    present ⟨hreg, rfl, rfl⟩ ?_
  · rintro x xs s' H' ⟨ht, hd, hp⟩
    exact wp_deviceAttach ht hd nofun fun s'' H'' ht' hd' hp' => ⟨ht', hd', hp'.trans hp⟩
  · rintro s' H' ⟨ht, hd, hp⟩
    exact hT s' H' ht hd hp

theorem wp_platformDriverUnregister (h : Tidy regs s H) (hdriver : s.driver = true)
    (hT : ∀ s' H', Tidy regs s' H' → s'.driver = false → s'.pdevs = s.pdevs → T () s' H') :
    wp (Orderly Rests) platformDriverUnregister T E s H := by
  refine wp_bind (wp_read (wp_bind ?_))
  refine wp_each (I := fun ds s' H' => Tidy regs s' H' ∧ s'.driver = true ∧ s'.pdevs = s.pdevs ∧
    s'.bound = ds) ?_ s.bound ⟨h, hdriver, rfl, rfl⟩ ?_
  · rintro d ds s' H' ⟨ht, hd, hp, hb⟩
    refine wp_deviceReleaseDriver ht fun s'' H'' ht' hd' hp' hb' => ?_
    exact ⟨ht', hd'.trans hd, hp'.trans hp, by rw [hb', hb, List.erase_cons_head]⟩
  · rintro s' H' ⟨ht, hd, hp, hb⟩
    refine wp_bind (wp_give ((ht.held _).mpr hd) ?_ (wp_modify (hT _ _ ?_ rfl hp)))
    · rintro k hk hrest
      cases hrest
      rw [ht.held, Owned, hb] at hk
      cases hk
    · refine ⟨fun k => ?_, ht.devres, ht.nodup, fun d hd => ?_, ht.parent⟩
      · rw [Set.mem_sdiff, ht.held]
        cases k <;> simp [Owned]
      · rw [hb] at hd
        cases hd

theorem wp_platformDeviceRegisterSimple {i : Fin 4} {reply : Except Errno Unit}
    (h : Tidy regs s H) (hdriver : s.driver = true) (hi : regs i = false)
    (hT : ∀ s' H', Tidy (Function.update regs i true) s' H' → s'.driver = true →
      s'.pdevs = s.pdevs → T () s' H') (hE : ∀ e, E e s H) :
    wp (Orderly Rests) (platformDeviceRegisterSimple i reply r) T E s H := by
  refine wp_bind (wp_take (by simp [h.held, Owned, hi]) nofun (fun _ => ?_) fun e _ => hE e)
  have hreg : Tidy (Function.update regs i true) s (insert (.pdev i) H) := by
    refine ⟨fun k => ?_, h.devres, h.nodup, h.driver, fun j hj => ?_⟩
    · rw [Set.mem_insert_iff, h.held]
      cases k <;> simp [Owned, Function.update_apply]
    · rcases eq_or_ne j i with rfl | hne
      · simp
      · simpa [hne] using h.parent j hj
  refine wp_deviceAttach hreg hdriver (fun j hj => ?_) hT
  obtain rfl := PlatformDev.sim.inj hj
  simp

theorem wp_platformDeviceUnregister {i : Fin 4} (h : Tidy regs s H) (hi : regs i = true)
    (hT : ∀ s' H', Tidy (Function.update regs i false) s' H' → s'.driver = s.driver →
      s'.pdevs = s.pdevs → T () s' H') :
    wp (Orderly Rests) (platformDeviceUnregister i) T E s H := by
  refine wp_bind (wp_deviceReleaseDriver h fun s' H' ht hd hp hb => ?_)
  have hnot : PlatformDev.sim i ∉ s'.bound := by simp [hb, h.nodup.mem_erase_iff]
  refine wp_give ((ht.held _).mpr hi) ?_ (hT _ _ ?_ hd hp)
  · rintro k hk hrest
    cases hrest
    exact hnot ((ht.held _).mp hk)
  · refine ⟨fun k => ?_, ht.devres, ht.nodup, ht.driver, fun j hj => ?_⟩
    · rw [Set.mem_sdiff, ht.held]
      cases k <;> simp [Owned, Function.update_apply]
      grind
    · have hne : j ≠ i := fun h => hnot (h ▸ hj)
      simpa [hne] using ht.parent j hj

/-- Nothing of the simulated devices is left after they are unregistered, whichever there were. -/
theorem wp_strelaSimDevUnregister (h : Tidy s.pdevs s H)
    (hT : ∀ s' H', Tidy s'.pdevs s' H' → s'.driver = s.driver → (∀ i, s'.pdevs i = false) →
      T () s' H') : wp (Orderly Rests) strelaSimDevUnregister T E s H := by
  refine wp_each (I := fun js s' H' => Tidy s'.pdevs s' H' ∧ s'.driver = s.driver ∧
    ∀ j, j ∉ js → s'.pdevs j = false) ?_ _ ⟨h, rfl, fun j hj => absurd (List.mem_finRange j) hj⟩ ?_
  · rintro i js s' H' ⟨ht, hd, hz⟩
    have hset (t : Core) (K : Set Resource) (htidy : Tidy (Function.update s'.pdevs i false) t K)
        (hd' : t.driver = s'.driver) (hp : t.pdevs = s'.pdevs) :
        wp (Orderly Rests) (setPdev i false) (fun _ t K => Tidy t.pdevs t K ∧ t.driver = s.driver ∧
          ∀ j, j ∉ js → t.pdevs j = false) E t K := by
      refine wp_modify ⟨?_, hd'.trans hd, fun j hj => ?_⟩
      · rw [hp]
        exact ⟨htidy.held, htidy.devres, htidy.nodup, htidy.driver, htidy.parent⟩
      · rcases eq_or_ne j i with rfl | hne
        · simp
        · simpa [hne, hp] using hz j (by simp [hne, hj])
    refine wp_bind (wp_read ?_)
    dsimp only
    split
    · rename_i hi
      exact wp_bind (wp_platformDeviceUnregister ht hi hset)
    · rename_i hi
      refine hset s' H' ?_ rfl rfl
      rwa [← (by simpa using hi : s'.pdevs i = false), Function.update_eq_self]
  · rintro s' H' ⟨ht, hd, hz⟩
    exact hT s' H' ht hd fun i => hz i List.not_mem_nil

theorem wp_strelaSimDevRegister {simDevCount : ℕ} {reply : Fin 4 → Except Errno Unit × ProbeReply}
    (h : Tidy s.pdevs s H) (hdriver : s.driver = true) (hz : ∀ i, s.pdevs i = false)
    (hT : ∀ s' H', Tidy s'.pdevs s' H' → s'.driver = true → T () s' H')
    (hE : ∀ e s' H', Tidy s'.pdevs s' H' → s'.driver = true → (∀ i, s'.pdevs i = false) →
      E e s' H') : wp (Orderly Rests) (strelaSimDevRegister simDevCount reply) T E s H := by
  refine wp_each (I := fun js s' H' => Tidy s'.pdevs s' H' ∧ s'.driver = true ∧ js.Nodup ∧
    ∀ j ∈ js, s'.pdevs j = false) ?_ _
    ⟨h, hdriver, (List.nodup_finRange 4).filter _, fun j _ => hz j⟩ ?_
  · rintro i js s' H' ⟨ht, hd, hnd, hjs⟩
    obtain ⟨hi, hnd⟩ := List.nodup_cons.mp hnd
    have hnull : s'.pdevs i = false := hjs i List.mem_cons_self
    refine wp_bind (wp_orElseDo (wp_platformDeviceRegisterSimple ht hd hnull ?_ ?_))
    · intro t K htidy hd' hp
      refine wp_modify ⟨?_, hd', hnd, fun j hj => ?_⟩
      · rw [hp]
        exact ⟨htidy.held, htidy.devres, htidy.nodup, htidy.driver, htidy.parent⟩
      · have hne : j ≠ i := fun h => hi (h ▸ hj)
        simpa [hne, hp] using hjs j (List.mem_cons_of_mem _ hj)
    · intro e
      have hsame : { s' with pdevs := Function.update s'.pdevs i false } = s' := by
        rw [← hnull, Function.update_eq_self]
      refine wp_bind (wp_modify ?_)
      rw [hsame]
      exact wp_strelaSimDevUnregister ht fun t K ht' hd' hz' => hE e t K ht' (hd'.trans hd) hz'
  · rintro s' H' ⟨ht, hd, -, -⟩
    exact hT s' H' ht hd

theorem wp_strelaInit {simDevCount : ℕ} {reply : LoadReply} (h : Tidy s.pdevs s H)
    (hdriver : s.driver = false) (hz : ∀ i, s.pdevs i = false)
    (hT : ∀ s' H', Tidy s'.pdevs s' H' → s'.driver = true → T () s' H')
    (hE : ∀ e s' H', Tidy s'.pdevs s' H' → s'.driver = false → (∀ i, s'.pdevs i = false) →
      E e s' H') : wp (Orderly Rests) (strelaInit simDevCount reply) T E s H := by
  refine wp_bind (wp_platformDriverRegister h hdriver (fun s' H' ht hd hp => ?_)
    fun e => hE e s H h hdriver hz)
  have hz' (i : Fin 4) : s'.pdevs i = false := by rw [hp, hz]
  rw [← hp] at ht
  refine wp_orElseDo (wp_strelaSimDevRegister ht hd hz' hT fun e t K ht' hd' hzt => ?_)
  have hgone {t' : Core} {K' : Set Resource} (ht'' : Tidy t.pdevs t' K') (hd'' : t'.driver = false)
      (hp' : t'.pdevs = t.pdevs) : E e t' K' :=
    hE e t' K' (hp' ▸ ht'') hd'' fun i => by rw [hp', hzt]
  exact wp_platformDriverUnregister ht' hd' fun t' K' ht'' hd'' hp' => hgone ht'' hd'' hp'

theorem wp_strelaExit (h : Tidy s.pdevs s H) (hdriver : s.driver = true)
    (hT : ∀ s' H', Tidy s'.pdevs s' H' → s'.driver = false → (∀ i, s'.pdevs i = false) →
      T () s' H') : wp (Orderly Rests) strelaExit T E s H := by
  refine wp_bind (wp_strelaSimDevUnregister h fun s' H' ht hd hz => ?_)
  refine wp_platformDriverUnregister ht (hd.trans hdriver) fun t K ht' hd' hp => ?_
  exact hT t K (hp ▸ ht') hd' fun i => by rw [hp, hz]

/-! ## Runs -/

structure ModuleState where
  loaded : Bool
  books : Books Core Resource

inductive ModuleEvent
  | init (simDevCount : ℕ) (reply : LoadReply)
  | exit
  | attach (d : PlatformDev) (r : ProbeReply)
  | detach (d : PlatformDev)

/-- While the module is loaded its devices come and go, and are bound and unbound by hand. -/
inductive ModuleStep : ModuleState → ModuleEvent → ModuleState → Prop
  | init {m : ModuleState} {n : ℕ} {reply : LoadReply} : m.loaded = false →
      ModuleStep m (.init n reply)
        ⟨(strelaInit n reply m.books).1.toBool, (strelaInit n reply m.books).2⟩
  | exit {m : ModuleState} : m.loaded = true →
      ModuleStep m .exit ⟨false, (strelaExit m.books).2⟩
  | attach {m : ModuleState} {d : PlatformDev} {r : ProbeReply} : m.loaded = true →
      (∀ i, d = .sim i → m.books.mem.pdevs i = true) →
      ModuleStep m (.attach d r) ⟨true, (deviceAttach d r m.books).2⟩
  | detach {m : ModuleState} {d : PlatformDev} : m.loaded = true →
      ModuleStep m (.detach d) ⟨true, (deviceReleaseDriver d m.books).2⟩

def moduleLts : Lts ModuleState ModuleEvent where
  start m := m = ⟨false, .unloaded, []⟩
  step := ModuleStep

/-- The module's accounts between two of its calls. -/
structure Reconciled (m : ModuleState) : Prop where
  orderly : Orderly Rests m.books.log
  tidy : Tidy m.books.mem.pdevs m.books.mem (heldSet m.books.log)
  driver : m.books.mem.driver = m.loaded
  pdevs : m.loaded = false → ∀ i, m.books.mem.pdevs i = false

variable {m m' : ModuleState} {e : ModuleEvent}

/-- Devices may have come and gone since, but the registrations are the same. -/
def Unchanged (s s' : Core) (H : Set Resource) : Prop :=
  Tidy s.pdevs s' H ∧ s'.driver = s.driver ∧ s'.pdevs = s.pdevs

theorem Reconciled.keep (h : Reconciled m) (hl : m.loaded = true) {p : ModuleProc}
    (hp : wp (Orderly Rests) p (fun _ => Unchanged m.books.mem) (fun _ => Unchanged m.books.mem)
      m.books.mem (heldSet m.books.log)) : Reconciled ⟨true, (p m.books).2⟩ := by
  obtain ⟨ho, ht, hd, hregs⟩ := hp.run h.orderly
  exact ⟨ho, by rwa [hregs], hd.trans (h.driver.trans hl), nofun⟩

theorem reconciled_step (h : Reconciled m) (hst : ModuleStep m e m') : Reconciled m' := by
  cases hst with
  | @init n reply hl =>
    have hdriver := h.driver
    rw [hl] at hdriver
    have hwp : wp (Orderly Rests) (strelaInit n reply)
        (fun _ s H => Tidy s.pdevs s H ∧ s.driver = true)
        (fun _ s H => Tidy s.pdevs s H ∧ s.driver = false ∧ ∀ i, s.pdevs i = false) m.books.mem
        (heldSet m.books.log) :=
      wp_strelaInit h.tidy hdriver (h.pdevs hl) (fun _ _ ht hd => ⟨ht, hd⟩)
        fun _ _ _ ht hd hz => ⟨ht, hd, hz⟩
    obtain ⟨ho, he⟩ := hwp m.books rfl rfl h.orderly
    cases hres : (strelaInit n reply m.books).1 with
    | ok a =>
      rw [hres] at he
      exact ⟨ho, he.1, he.2, nofun⟩
    | error err =>
      rw [hres] at he
      exact ⟨ho, he.1, he.2.1, fun _ => he.2.2⟩
  | exit hl =>
    have hwp : wp (Orderly Rests) strelaExit
        (fun _ s H => Tidy s.pdevs s H ∧ s.driver = false ∧ ∀ i, s.pdevs i = false)
        (fun _ s H => Tidy s.pdevs s H ∧ s.driver = false ∧ ∀ i, s.pdevs i = false) m.books.mem
        (heldSet m.books.log) :=
      wp_strelaExit h.tidy (h.driver.trans hl) fun _ _ ht hd hz => ⟨ht, hd, hz⟩
    obtain ⟨ho, ht, hd, hz⟩ := hwp.run h.orderly
    exact ⟨ho, ht, hd, fun _ => hz⟩
  | @attach d r hl hp =>
    have hwp : wp (Orderly Rests) (deviceAttach d r) (fun _ => Unchanged m.books.mem)
        (fun _ => Unchanged m.books.mem) m.books.mem (heldSet m.books.log) :=
      wp_deviceAttach h.tidy (h.driver.trans hl) hp fun _ _ ht hd hp =>
        ⟨ht, hd.trans (h.driver.trans hl).symm, hp⟩
    exact h.keep hl hwp
  | @detach d hl =>
    have hwp : wp (Orderly Rests) (deviceReleaseDriver d) (fun _ => Unchanged m.books.mem)
        (fun _ => Unchanged m.books.mem) m.books.mem (heldSet m.books.log) :=
      wp_deviceReleaseDriver h.tidy fun _ _ ht hd hp _ => ⟨ht, hd, hp⟩
    exact h.keep hl hwp

theorem reconciled_of_reach (h : moduleLts.Reach m) : Reconciled m := by
  refine h.invariant (P := Reconciled) (fun m hm => ?_) fun _ _ _ _ hs hst => reconciled_step hs hst
  obtain rfl := hm
  refine ⟨orderly_nil, ⟨fun k => ?_, fun _ => rfl, List.nodup_nil, nofun, nofun⟩, rfl,
    fun _ _ => rfl⟩
  cases k <;> simp [Owned, Core.unloaded]

/-- In every run of the module, whatever fails in it, the history is orderly at every moment; a load
that fails and an unload leave nothing, each thing that was taken given back once. -/
theorem reach_module (h : moduleLts.Reach m) :
    Orderly Rests m.books.log ∧
    (∀ k, k ∈ heldSet m.books.log ↔
      Owned m.loaded m.books.mem.pdevs m.books.mem.bound k) ∧
    (m.loaded = false → ∀ k,
      m.books.log.count (.take k ()) = m.books.log.count (.give k ())) := by
  have hs := reconciled_of_reach h
  refine ⟨hs.orderly, fun k => ?_, fun hl k => ?_⟩
  · rw [hs.tidy.held, hs.driver]
  · have hnil : m.books.mem.bound = [] := by
      refine List.eq_nil_iff_forall_not_mem.mpr fun d hd => ?_
      have := hs.tidy.driver d hd
      rw [hs.driver, hl] at this
      cases this
    have hnone : holder m.books.log k ≠ some () := by
      have hk := hs.tidy.held k
      rw [hs.driver, hl, hnil] at hk
      intro hheld
      have hown := hk.mp hheld
      cases k <;> simp [Owned, hs.pdevs hl] at hown
    rw [hs.orderly.disciplined.count_take, if_neg hnone, Nat.add_zero]

def goodProbe : ProbeReply := ⟨.ok (), .ok (), .ok (), 1, 2, 3, .ok (), .ok (), .ok (), .ok ()⟩

/-- One device of the device tree is bound and one has no interrupt; the first simulated device is
registered, the second is not. -/
def failedLoad : LoadReply where
  driver := .ok ()
  present := [(0, goodProbe), (1, { goodProbe with getIrq := .error .einval })]
  sim i := (if i.val = 1 then .error .enomem else .ok (), goodProbe)

theorem reach_module_failedLoad : ∃ m, moduleLts.Reach m ∧ m.loaded = false ∧
    m.books.log.count (.take (.node (.tree 0)) ()) = 1 ∧
    m.books.log.count (.give (.node (.tree 0)) ()) = 1 := by
  have hr : moduleLts.Reach ⟨(strelaInit 4 failedLoad ⟨.unloaded, []⟩).1.toBool,
      (strelaInit 4 failedLoad ⟨.unloaded, []⟩).2⟩ := .step (.start rfl) (.init rfl)
  have hl : (strelaInit 4 failedLoad ⟨.unloaded, []⟩).1.toBool = false := by decide +kernel
  have htake : (strelaInit 4 failedLoad ⟨.unloaded, []⟩).2.log.count
      (.take (.node (.tree 0)) ()) = 1 := by decide +kernel
  generalize strelaInit 4 failedLoad ⟨.unloaded, []⟩ = result at hr hl htake
  exact ⟨_, hr, hl, htake, ((reach_module hr).2.2 hl _).symm.trans htake⟩

end Strela.Driver
