import Strela.Lib.Simulation
import Strela.Foundation.Ledger

/-! # Job slots and sync objects

A slot in use owns one sync object, which was created for it and is destroyed by
its release. The record of system calls is the ledger of these objects.
-/

namespace Strela.Lib

open Foundation Strela.Allocator

def syncEntry : Event → Option (Entry U32 SlotId)
  | ⟨.syncobjCreate i, .ok h⟩ => some (.take (BitVec.ofInt 32 h) i)
  | ⟨.strelaSubmit i args, _⟩ => some (.use args.outSyncobj i)
  | ⟨.handleToFd i h, _⟩ => some (.use h i)
  | ⟨.syncobjWait i h, _⟩ => some (.use h i)
  | ⟨.syncobjDestroy i h, _⟩ => some (.give h i)
  | _ => none

def syncLedger (log : List Event) : List (Entry U32 SlotId) := log.filterMap syncEntry

/-- A sync object is alive from its creation to its destruction. -/
def syncOwner (log : List Event) : U32 → Option SlotId := holder (syncLedger log)

/-- A new sync object has a nonzero handle that is not alive. -/
def FreshSyncobj (os : Os) : Prop :=
  ∀ log i h, os log (.syncobjCreate i) = .ok h →
    BitVec.ofInt 32 h ≠ 0 ∧ syncOwner log (BitVec.ofInt 32 h) = none

def HoldsSyncobj (slot : JobSlot) (h : U32) : Prop :=
  slot.phase ≠ .free ∧ slot.submit.outSyncobj = h

instance (slot : JobSlot) (h : U32) : Decidable (HoldsSyncobj slot h) :=
  inferInstanceAs (Decidable (_ ∧ _))

/-- Slots in use, and only these, have a sync object, and the ledger shows it. -/
structure SyncobjsOwned (s : Slots) : Prop where
  tallies : Tallies HoldsSyncobj s.jobs (syncLedger s.log)
  eq_zero_iff : ∀ i, (s.jobs i).submit.outSyncobj = 0 ↔ (s.jobs i).phase = .free

variable {A : Abi} {os : Os} {stale : Prop} {s s' : Slots} {w : World} {i : SlotId}

theorem syncLedger_concat (log : List Event) (e : Event) :
    syncLedger (log ++ [e]) = syncLedger log ++ (syncEntry e).toList := by
  cases h : syncEntry e <;> simp [syncLedger, h]

namespace SyncobjsOwned

theorem tell_none (hs : SyncobjsOwned s) {r : Request} (h : syncEntry ⟨r, os s.log r⟩ = none) :
    SyncobjsOwned (s.tell os r) where
  tallies := by
    simpa [Slots.tell, syncLedger_concat, h] using hs.tallies
  eq_zero_iff := hs.eq_zero_iff

theorem tell_use (hs : SyncobjsOwned s) (hp : (s.jobs i).phase ≠ .free) {r : Request}
    (h : syncEntry ⟨r, os s.log r⟩ = some (.use (s.jobs i).submit.outSyncobj i)) :
    SyncobjsOwned (s.tell os r) where
  tallies := by
    simpa [Slots.tell, syncLedger_concat, h] using hs.tallies.use ⟨hp, rfl⟩
  eq_zero_iff := hs.eq_zero_iff

theorem set_same (hs : SyncobjsOwned s) {slot : JobSlot} (hp : (s.jobs i).phase ≠ .free)
    (hp' : slot.phase ≠ .free) (ho : slot.submit.outSyncobj = (s.jobs i).submit.outSyncobj) :
    SyncobjsOwned (s.set i slot) where
  tallies := hs.tallies.update fun h => by simp [HoldsSyncobj, hp, hp', ho]
  eq_zero_iff j := by
    rcases eq_or_ne j i with rfl | hj
    · simp only [Slots.set, Function.update_self, ho, hs.eq_zero_iff, hp, hp']
    · simpa [Slots.set, hj] using hs.eq_zero_iff j

theorem configured (hs : SyncobjsOwned s) (hos : FreshSyncobj os) (hp : (s.jobs i).phase = .free)
    {h : ℤ} {slot : JobSlot} (hr : os s.log (.syncobjCreate i) = .ok h)
    (hp' : slot.phase = .configured) (ho : slot.submit.outSyncobj = BitVec.ofInt 32 h) :
    SyncobjsOwned ((s.tell os (.syncobjCreate i)).set i slot) where
  tallies := by
    have he : syncEntry ⟨.syncobjCreate i, os s.log (.syncobjCreate i)⟩ =
        some (.take (BitVec.ofInt 32 h) i) := by rw [hr]; rfl
    have ht := hs.tallies.take (hos _ _ _ hr).2 (o := i) (x := slot)
      (by simp [HoldsSyncobj, hp]) (by simp [HoldsSyncobj, hp', ho, eq_comm])
    simpa [Slots.tell, Slots.set, syncLedger_concat, he] using ht
  eq_zero_iff j := by
    rcases eq_or_ne j i with rfl | hj
    · simp only [Slots.set, Function.update_self, ho, (hos _ _ _ hr).1, hp', reduceCtorEq]
    · simpa [Slots.set, Slots.tell, hj] using hs.eq_zero_iff j

theorem destroyed (hs : SyncobjsOwned s) (hp : (s.jobs i).phase ≠ .free) :
    SyncobjsOwned
      ((s.tell os (.syncobjDestroy i (s.jobs i).submit.outSyncobj)).set i .released) where
  tallies := by
    have ht := hs.tallies.give (o := i) (x := .released) (k := (s.jobs i).submit.outSyncobj)
      (by simp [HoldsSyncobj, hp, eq_comm]) (by simp [HoldsSyncobj, JobSlot.released, JobSlot.zero])
    simpa [Slots.tell, Slots.set, syncLedger_concat, syncEntry] using ht
  eq_zero_iff j := by
    rcases eq_or_ne j i with rfl | hj
    · simp [Slots.set, JobSlot.released, JobSlot.zero, Submit.zero]
    · simpa [Slots.set, Slots.tell, hj] using hs.eq_zero_iff j

theorem step (hos : FreshSyncobj os) (hs : SyncobjsOwned s) (h : SlotStep os stale s s') :
    SyncobjsOwned s' := by
  cases h with
  | synced => exact hs.tell_none rfl
  | createFailed h => exact hs.tell_none (by rw [h]; rfl)
  | configured hp hr hp' _ ho => exact hs.configured hos hp hr hp' ho
  | submitFailed hp _ => exact hs.tell_use hp rfl
  | accepted hp _ _ =>
    have hn := ne_of_eq_of_ne hp (by decide : _ ≠ SlotPhase.free)
    exact ((hs.tell_use hn rfl).tell_use hn rfl).set_same hn (by simp) rfl
  | unexported hp _ _ =>
    have hn := ne_of_eq_of_ne hp (by decide : _ ≠ SlotPhase.free)
    exact ((hs.tell_use hn rfl).tell_use hn rfl).set_same hn (by simp) rfl
  | reclaimed hp _ =>
    have hn := ne_of_eq_of_ne hp (by decide : _ ≠ SlotPhase.free)
    exact ((hs.tell_use hn rfl).tell_none rfl).set_same hn (by simp) rfl
  | exported hp _ _ =>
    have hn := ne_of_eq_of_ne hp (by decide : _ ≠ SlotPhase.free)
    exact (hs.tell_use hn rfl).set_same hn hn rfl
  | lost _ hp _ _ =>
    have hn := ne_of_eq_of_ne hp (by decide : _ ≠ SlotPhase.free)
    exact (((hs.tell_use hn rfl).tell_none rfl).tell_use hn rfl).set_same hn (by simp) rfl
  | polled _ => exact hs.tell_none rfl
  | uninspected _ _ _ _ => exact (hs.tell_none rfl).tell_none rfl
  | completed hp _ _ _ =>
    have hn := ne_of_eq_of_ne hp (by decide : _ ≠ SlotPhase.free)
    exact ((hs.tell_none rfl).tell_none rfl).set_same hn (by simp) rfl
  | waited hp => exact hs.tell_use (by rw [hp]; simp) rfl
  | closed hn _ => exact (hs.tell_none rfl).set_same hn (by simp) rfl
  | destroyed hn _ => exact hs.destroyed hn
  | emptied hn _ hz => exact absurd ((hs.eq_zero_iff _).mp hz) hn

end SyncobjsOwned

theorem syncobjsOwned_start : SyncobjsOwned ⟨fun _ => .zero, []⟩ where
  tallies := .nil fun i h => by simp [HoldsSyncobj, JobSlot.zero]
  eq_zero_iff i := by simp [JobSlot.zero, Submit.zero]

theorem syncobjsOwned_of_reach (hos : FreshSyncobj os) (h : (libLts A os).Reach w) :
    SyncobjsOwned w.slots := by
  refine h.invariant (P := fun w => SyncobjsOwned w.slots) ?_ ?_
  · intro w hw
    rw [slots_start hw.2.1 hw.2.2]
    exact syncobjsOwned_start
  · intro w a w' _ hw hst
    exact step_keeps (fun _ _ hs h => hs.step hos h) (fun _ _ _ => trivial) hst hw

/-! ## Releasing a slot -/

def Request.IsDestroy : Request → Bool
  | .syncobjDestroy _ _ => true
  | _ => false

def destroys (log : List Event) : List Event := log.filter fun e => e.request.IsDestroy

theorem askOrAbort_destroys {w' : World} {r : Request} (hr : r.IsDestroy = false)
    (h : w.askOrAbort os r = .ok w') : destroys w'.log = destroys w.log := by
  obtain ⟨v, -, hl⟩ := askOrAbort_log h
  simp [destroys, hl, hr]

theorem strelaJobSlotFinish_destroys {w' : World} (h : strelaJobSlotFinish os i w = .ok w') :
    destroys w'.log = destroys w.log := by
  unfold strelaJobSlotFinish at h
  dsimp only at h
  split at h
  · obtain rfl := Except.ok.inj h
    rfl
  · obtain ⟨w₁, h₁, h⟩ := bind_eq_ok h
    obtain rfl := Except.ok.inj h
    unfold waitFence at h₁
    split at h₁
    · exact (askOrAbort_destroys rfl h₁ :)
    · exact (askOrAbort_destroys rfl h₁ :)

theorem closeFence_destroys {slot : JobSlot} {w' : World} (h : closeFence os i slot w = .ok w') :
    destroys w'.log = destroys w.log := by
  unfold closeFence at h
  split at h
  · exact askOrAbort_destroys rfl h
  · obtain rfl := Except.ok.inj h
    rfl

theorem destroySyncobj_destroys {slot : JobSlot} {w' : World} (ho : slot.submit.outSyncobj ≠ 0)
    (h : destroySyncobj os i slot w = .ok w') :
    ∃ v, destroys w'.log =
      destroys w.log ++ [⟨.syncobjDestroy i slot.submit.outSyncobj, .ok v⟩] := by
  unfold destroySyncobj at h
  rw [if_pos ho] at h
  obtain ⟨v, -, hl⟩ := askOrAbort_log h
  exact ⟨v, by simp [destroys, hl, Request.IsDestroy]⟩

/-- The release of a slot in use empties it and destroys its sync object, and no other. -/
theorem strelaJobSlotRelease_ok {w' : World} (hp : (w.slot i).phase ≠ .free)
    (ho : (w.slot i).submit.outSyncobj ≠ 0) (h : strelaJobSlotRelease os i w = .ok w') :
    w'.dev.jobs = Function.update w.dev.jobs i .released ∧
      ∃ v, destroys w'.log =
        destroys w.log ++ [⟨.syncobjDestroy i (w.slot i).submit.outSyncobj, .ok v⟩] := by
  unfold strelaJobSlotRelease at h
  split at h
  swap
  · cases h
  obtain ⟨w₁, h₁, h⟩ := bind_eq_ok h
  obtain ⟨hfree, -, hsub, hup⟩ := strelaJobSlotFinish_slot h₁
  have hp₁ : (w₁.slot i).phase ≠ .free := mt hfree.mp hp
  simp only [hp₁, ne_eq, not_false_eq_true, if_true] at h
  obtain ⟨w₂, h₂, h⟩ := bind_eq_ok h
  obtain ⟨w₃, h₃, h⟩ := bind_eq_ok h
  obtain rfl := Except.ok.inj h
  constructor
  · simp [World.setSlot, destroySyncobj_dev h₃, closeFence_dev h₂, hup]
  · obtain ⟨v, hv⟩ := destroySyncobj_destroys (by rw [hsub]; exact ho) h₃
    rw [hsub] at hv
    refine ⟨v, ?_⟩
    calc destroys w₃.log = _ := hv
      _ = _ := by rw [closeFence_destroys h₂, strelaJobSlotFinish_destroys h₁]

/-! ## Configuring a job -/

/-- The slot that the next job goes to. -/
def FirstFree (w : World) (i : SlotId) : Prop :=
  (w.slot i).phase = .free ∧ ∀ j < i, (w.slot j).phase ≠ .free

theorem findFree_eq_some_iff : w.findFree = some i ↔ FirstFree w i := by
  rw [World.findFree, List.find?_eq_some_iff_getElem]
  simp only [List.getElem_finRange, List.length_finRange, beq_iff_eq, FirstFree, ne_eq,
    Bool.not_eq_true', beq_eq_false_iff_ne]
  refine and_congr_right fun _ => ⟨?_, fun h => ⟨i, i.isLt, rfl, fun j hj => ?_⟩⟩
  · rintro ⟨k, hk, rfl, h⟩ j hj
    exact h j hj
  · exact h ⟨j, by omega⟩ hj

/-- A job is configured exactly if everything it needs is there; then its slot alone changes, and
otherwise none does. -/
def ConfigExact (os : Os) (w : World) (kernel : Kernel) (conf : Conf) : Prop :=
  ∃ job w', strelaJobConfig os kernel conf w = .ok (job, w') ∧
    (job.valid = true ↔ w.ok = true ∧ kernel.accepted = true ∧
      ∃ i, FirstFree w i ∧ ∃ h, os w.log (.syncobjCreate i) = .ok h) ∧
    (job.valid = true → ∃ i : SlotId, job.handle = i ∧ FirstFree w i ∧
      (w'.slot i).phase = .configured ∧ ∀ j ≠ i, w'.slot j = w.slot j) ∧
    (job.valid = false → ∀ j, w'.slot j = w.slot j)

theorem configExact (os : Os) (w : World) (kernel : Kernel) (conf : Conf) :
    ConfigExact os w kernel conf := by
  rcases strelaJobConfig_cases os kernel conf w with
    ⟨i, h, ⟨hw, hk, hf, ho⟩, he⟩ | ⟨i, e, hf, ho, he⟩ | ⟨hn, w', he, hs, -⟩
  · have hi := findFree_eq_some_iff.mp hf
    refine ⟨_, _, he, ?_, ?_, ?_⟩
    · simpa using ⟨hw, hk, i, hi, h, ho⟩
    · intro _
      refine ⟨i, rfl, hi, by simp [World.slot, World.setSlot], fun j hj => ?_⟩
      simp [World.slot, World.setSlot, World.ask, hj]
    · intro hv
      cases hv
  · refine ⟨_, _, he, ?_, ?_, ?_⟩
    · refine iff_of_false (by simp [JobHandle.none]) ?_
      rintro ⟨-, -, j, hj, h, hjo⟩
      obtain rfl : i = j := by simpa [hf] using findFree_eq_some_iff.mpr hj
      rw [ho] at hjo
      cases hjo
    · intro hv
      cases hv
    · exact fun _ _ => rfl
  · refine ⟨_, _, he, ?_, ?_, ?_⟩
    · refine iff_of_false (by simp [JobHandle.none]) ?_
      rintro ⟨hw, hk, j, hj, -⟩
      have hf := findFree_eq_some_iff.mpr hj
      simp [hw, hk, hf] at hn
    · intro hv
      cases hv
    · exact fun _ j => congrFun (congrArg Slots.jobs hs) j

/-! ## The sync objects of a run -/

/-- How the slots of a device and the sync objects belong together. -/
structure SyncobjAccount (os : Os) (w : World) : Prop where
  free : ∀ i, (w.slot i).phase = .free →
    (w.slot i).submit.outSyncobj = 0 ∧ ∀ h, syncOwner w.log h ≠ some i
  used : ∀ i, (w.slot i).phase ≠ .free →
    (w.slot i).submit.outSyncobj ≠ 0 ∧ syncOwner w.log (w.slot i).submit.outSyncobj = some i
  distinct : ∀ i j, (w.slot i).phase ≠ .free → (w.slot j).phase ≠ .free →
    (w.slot i).submit.outSyncobj = (w.slot j).submit.outSyncobj → i = j
  /-- A live sync object has one owner, the slot it was created for. -/
  alive : ∀ h i, syncOwner w.log h = some i →
    ∀ j, HoldsSyncobj (w.slot j) h ↔ j = i
  /-- It is used and destroyed only while it is alive, and only for its owner. -/
  disciplined : Disciplined (syncLedger w.log)
  /-- Every creation for a slot is met by one destruction, or the object is still in the slot. -/
  once : ∀ h i, (syncLedger w.log).count (.take h i) = (syncLedger w.log).count (.give h i) +
    if HoldsSyncobj (w.slot i) h then 1 else 0
  released : ∀ i w', (w.slot i).phase ≠ .free → strelaJobSlotRelease os i w = .ok w' →
    (w'.slot i).phase = .free ∧ ∃ v, destroys w'.log =
      destroys w.log ++ [⟨.syncobjDestroy i (w.slot i).submit.outSyncobj, .ok v⟩]
  configured : ∀ kernel conf, ConfigExact os w kernel conf

/-- In every run the slots in use own one sync object each, and no other is alive. -/
theorem reach_syncobjAccount (hos : FreshSyncobj os) (h : (libLts A os).Reach w) :
    SyncobjAccount os w := by
  have hs := syncobjsOwned_of_reach hos h
  have hz : ∀ i, (w.slot i).submit.outSyncobj = 0 ↔ (w.slot i).phase = .free := hs.eq_zero_iff
  have ho : ∀ h i, syncOwner w.log h = some i ↔ HoldsSyncobj (w.slot i) h := hs.tallies.holder_iff
  constructor
  case free =>
    intro i hi
    exact ⟨(hz i).mpr hi, fun h hh => ((ho h i).mp hh).1 hi⟩
  case used =>
    intro i hi
    exact ⟨mt (hz i).mp hi, (ho _ i).mpr ⟨hi, rfl⟩⟩
  case distinct =>
    intro i j hi hj hij
    exact hs.tallies.owner_eq ⟨hi, rfl⟩ ⟨hj, hij.symm⟩
  case alive =>
    intro h i hh j
    constructor
    · intro hj
      exact hs.tallies.owner_eq hj ((ho h i).mp hh)
    · rintro rfl
      exact (ho h j).mp hh
  case disciplined => exact hs.tallies.disciplined
  case once =>
    intro h i
    exact hs.tallies.count_take h i
  case released =>
    intro i w' hi hr
    obtain ⟨hj, hd⟩ := strelaJobSlotRelease_ok hi (mt (hz i).mp hi) hr
    exact ⟨by simp [World.slot, hj, JobSlot.released, JobSlot.zero], hd⟩
  case configured => exact configExact os w

def twoSyncobjs : Os := fun log r =>
  match r with
  | .syncobjCreate _ =>
    if syncOwner log 1 = none then .ok 1 else if syncOwner log 2 = none then .ok 2 else .error 12
  | _ => .ok 0

theorem twoSyncobjs_fresh : FreshSyncobj twoSyncobjs := by
  intro log i h hr
  simp only [twoSyncobjs] at hr
  split at hr
  · obtain rfl := Except.ok.inj hr
    exact ⟨by decide, ‹_›⟩
  · split at hr
    · obtain rfl := Except.ok.inj hr
      exact ⟨by decide, ‹_›⟩
    · cases hr

def firstReleased : World :=
  ((readyWorld.after Abi.arm32 twoSyncobjs (.jobConfig ⟨true, 0⟩ emptyConf)).after Abi.arm32
    twoSyncobjs (.jobConfig ⟨true, 0⟩ emptyConf)).after Abi.arm32 twoSyncobjs (.jobFree ⟨true, 0⟩)

theorem reach_firstReleased : (libLts Abi.arm32 twoSyncobjs).Reach firstReleased := by
  have hstart : (libLts Abi.arm32 twoSyncobjs).Reach readyWorld := .start readyWorld_start
  have h₁ := reach_after hstart (c := .jobConfig ⟨true, 0⟩ emptyConf) rfl
  have h₂ := reach_after h₁ (c := .jobConfig ⟨true, 0⟩ emptyConf) rfl
  exact reach_after h₂ (c := .jobFree ⟨true, 0⟩) rfl

theorem reach_syncobjAccount_released :
    ((firstReleased.slot 0).phase = .free ∧ syncOwner firstReleased.log 1 = none) ∧
    ((firstReleased.slot 1).phase = .configured ∧
      (firstReleased.slot 1).submit.outSyncobj = 2 ∧ syncOwner firstReleased.log 2 = some 1) ∧
    SyncobjAccount twoSyncobjs firstReleased :=
  ⟨⟨rfl, rfl⟩, ⟨rfl, rfl, rfl⟩, reach_syncobjAccount twoSyncobjs_fresh reach_firstReleased⟩

end Strela.Lib
