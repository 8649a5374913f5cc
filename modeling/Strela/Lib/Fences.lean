import Strela.Lib.Simulation
import Strela.Foundation.Ledger

/-! # Fence descriptors

The descriptor in a slot is either -1 or one that was exported for the slot's
last submission and is still open. One call breaks this: when a done job is
submitted again its descriptor is closed, and if the export of the next one then
fails the closed one stays in the slot.
-/

namespace Strela.Lib

open Foundation Strela.Allocator

/-- What a system call does to a descriptor. A poll of -1 waits for nothing. -/
def fenceEntry : Event → Option (Entry ℤ SlotId)
  | ⟨.handleToFd i _, .ok fd⟩ => some (.take fd i)
  | ⟨.poll i fd _, _⟩ => if fd = -1 then none else some (.use fd i)
  | ⟨.fileInfo i fd, _⟩ => some (.use fd i)
  | ⟨.close i fd, _⟩ => some (.give fd i)
  | _ => none

def fenceLedger (log : List Event) : List (Entry ℤ SlotId) := log.filterMap fenceEntry

/-- The slot that exported a descriptor that is still open. -/
def fenceOwner (log : List Event) : ℤ → Option SlotId := holder (fenceLedger log)

def exportOf (i : SlotId) (last : Option ℤ) : Event → Option ℤ
  | ⟨.strelaSubmit j _, .ok _⟩ => if j = i then none else last
  | ⟨.handleToFd j _, .ok fd⟩ => if j = i then some fd else last
  | _ => last

/-- The descriptor exported since the driver last took a job of the slot. -/
def lastExport (log : List Event) (i : SlotId) : Option ℤ := log.foldl (exportOf i) none

/-- A new descriptor is not negative and not open. -/
def FreshFd (os : Os) : Prop :=
  ∀ log i h fd, os log (.handleToFd i h) = .ok fd → 0 ≤ fd ∧ fenceOwner log fd = none

/-- A poll of -1 finds nothing ready. -/
def PollIgnores (os : Os) : Prop :=
  ∀ log i timeout ready, os log (.poll i (-1) timeout) = .ok ready → ready = 0

def HoldsFence (slot : JobSlot) (fd : ℤ) : Prop :=
  slot.phase ≠ .free ∧ slot.fenceFd = fd ∧ fd ≠ -1

instance (slot : JobSlot) (fd : ℤ) : Decidable (HoldsFence slot fd) :=
  inferInstanceAs (Decidable (_ ∧ _))

theorem not_holdsFence {slot : JobSlot} (h : slot.fenceFd = -1) (fd : ℤ) :
    ¬ HoldsFence slot fd := by
  rintro ⟨-, rfl, hn⟩
  exact hn h

theorem holdsFence_iff {slot : JobSlot} (hp : slot.phase ≠ .free) (h : slot.fenceFd ≠ -1) (fd : ℤ) :
    HoldsFence slot fd ↔ fd = slot.fenceFd := by
  constructor
  · rintro ⟨-, rfl, -⟩
    rfl
  · rintro rfl
    exact ⟨hp, rfl, h⟩

/-- A job has no descriptor before its submission, and has one once it is done. -/
def JobSlot.Phased (slot : JobSlot) : Prop :=
  (slot.phase = .configured → slot.fenceFd = -1) ∧ (slot.phase = .done → slot.fenceFd ≠ -1)

/-- Slots in use have the descriptors the ledger shows. -/
structure FencesOwned (s : Slots) : Prop where
  tallies : Tallies HoldsFence s.jobs (fenceLedger s.log)
  phased : ∀ i, (s.jobs i).Phased

/-- The descriptor of a slot in use comes from its last submission. -/
def Recent (s : Slots) : Prop :=
  ∀ i, (s.jobs i).phase ≠ .free →
    (s.jobs i).fenceFd = -1 ∨ lastExport s.log i = some (s.jobs i).fenceFd

variable {A : Abi} {os : Os} {s s' : Slots} {w : World} {i : SlotId} {r : Request}

theorem fenceLedger_concat (log : List Event) (e : Event) :
    fenceLedger (log ++ [e]) = fenceLedger log ++ (fenceEntry e).toList := by
  cases h : fenceEntry e <;> simp [fenceLedger, h]

theorem fenceEntry_of_error {log : List Event} {e : ℕ+}
    (h : os log (s.exportRequest i) = .error e) :
    fenceEntry ⟨s.exportRequest i, os log (s.exportRequest i)⟩ = none := by
  rw [h]
  rfl

@[simp] theorem lastExport_tell (j : SlotId) :
    lastExport (s.tell os r).log j = exportOf j (lastExport s.log j) ⟨r, os s.log r⟩ := by
  simp [lastExport, Slots.tell]

namespace FencesOwned

theorem tell_none (hs : FencesOwned s) (h : fenceEntry ⟨r, os s.log r⟩ = none) :
    FencesOwned (s.tell os r) where
  tallies := by
    simpa [Slots.tell, fenceLedger_concat, h] using hs.tallies
  phased := hs.phased

theorem tell_use (hs : FencesOwned s) (hp : (s.jobs i).phase ≠ .free)
    (hfd : (s.jobs i).fenceFd ≠ -1)
    (h : fenceEntry ⟨r, os s.log r⟩ = some (.use (s.jobs i).fenceFd i)) :
    FencesOwned (s.tell os r) where
  tallies := by
    simpa [Slots.tell, fenceLedger_concat, h] using hs.tallies.use ⟨hp, rfl, hfd⟩
  phased := hs.phased

theorem polled (hs : FencesOwned s) (hp : (s.jobs i).phase ≠ .free) (timeout : ℤ) :
    FencesOwned (s.tell os (s.pollRequest i timeout)) := by
  by_cases hfd : (s.jobs i).fenceFd = -1
  · exact hs.tell_none (by simp [fenceEntry, Slots.pollRequest, hfd])
  · exact hs.tell_use hp hfd (by simp [fenceEntry, Slots.pollRequest, hfd])

variable {slot : JobSlot}

theorem phased_set (hs : ∀ j, (s.jobs j).Phased) (hx : slot.Phased) (j : SlotId) :
    ((s.set i slot).jobs j).Phased := by
  rcases eq_or_ne j i with rfl | hj
  · simpa [Slots.set] using hx
  · simpa [Slots.set, hj] using hs j

theorem phased_of_submitted (hp : slot.phase = .submitted) : slot.Phased := by
  simp [JobSlot.Phased, hp]

theorem phased_released : JobSlot.released.Phased := by
  simp [JobSlot.Phased, JobSlot.released, JobSlot.zero]

theorem set_same (hs : FencesOwned s) (hh : ∀ fd, HoldsFence slot fd ↔ HoldsFence (s.jobs i) fd)
    (hx : slot.Phased) : FencesOwned (s.set i slot) where
  tallies := hs.tallies.update hh
  phased := phased_set hs.phased hx

theorem exported (hs : FencesOwned s) (hos : FreshFd os) (hfd : (s.jobs i).fenceFd = -1) {fd : ℤ}
    (hr : os s.log (s.exportRequest i) = .ok fd) (hp : slot.phase = .submitted)
    (hx : slot.fenceFd = fd) :
    FencesOwned ((s.tell os (s.exportRequest i)).set i slot) where
  tallies := by
    obtain ⟨hpos, hnone⟩ := hos _ _ _ _ hr
    have he : fenceEntry ⟨s.exportRequest i, os s.log (s.exportRequest i)⟩ =
        some (.take fd i) := by rw [hr]; rfl
    have hn : slot.phase ≠ .free := by simp [hp]
    have hneg : slot.fenceFd ≠ -1 := by omega
    have ht := hs.tallies.take hnone (not_holdsFence hfd)
      (fun k => (holdsFence_iff hn hneg k).trans (by rw [hx]))
    simpa [Slots.tell, Slots.set, fenceLedger_concat, he] using ht
  phased := phased_set hs.phased (phased_of_submitted hp)

theorem closed (hs : FencesOwned s) (hn : (s.jobs i).phase ≠ .free)
    (hfd : (s.jobs i).fenceFd ≠ -1) (hp : slot.phase = .submitted) (hx : slot.fenceFd = -1) :
    FencesOwned ((s.tell os (s.closeRequest i)).set i slot) where
  tallies := by
    have ht := hs.tallies.give (holdsFence_iff hn hfd) (not_holdsFence hx)
    simpa [Slots.tell, Slots.set, fenceLedger_concat, Slots.closeRequest, fenceEntry] using ht
  phased := phased_set hs.phased (phased_of_submitted hp)

theorem step (hos : FreshFd os) (hpoll : PollIgnores os) (hs : FencesOwned s)
    (h : SlotStep os False s s') : FencesOwned s' := by
  have hready : ∀ i timeout ready, os s.log (s.pollRequest i timeout) = .ok ready → ready ≠ 0 →
      (s.jobs i).fenceFd ≠ -1 := by
    intro i timeout ready hr hne hfd
    rw [Slots.pollRequest, hfd] at hr
    exact hne (hpoll _ _ _ _ hr)
  cases h with
  | synced => exact hs.tell_none rfl
  | createFailed _ => exact hs.tell_none rfl
  | configured hp _ hp' hfd _ =>
    refine (hs.tell_none rfl).set_same (fun fd => ?_) ⟨fun _ => hfd, by simp [hp']⟩
    exact iff_of_false (not_holdsFence hfd fd) fun h => h.1 hp
  | submitFailed _ _ => exact hs.tell_none rfl
  | accepted hp _ hr =>
    exact (hs.tell_none rfl).exported hos ((hs.phased _).1 hp) hr rfl rfl
  | unexported hp _ hr =>
    have hfd := (hs.phased _).1 hp
    refine ((hs.tell_none rfl).tell_none (fenceEntry_of_error hr)).set_same (fun fd => ?_)
      (phased_of_submitted rfl)
    exact iff_of_false (not_holdsFence (by exact hfd) fd) (not_holdsFence hfd fd)
  | reclaimed hp _ =>
    have hn := ne_of_eq_of_ne hp (by decide : _ ≠ SlotPhase.free)
    exact (hs.tell_none rfl).closed hn ((hs.phased _).2 hp) rfl rfl
  | exported hp hfd hr => exact hs.exported hos hfd hr hp rfl
  | lost hf => exact hf.elim
  | polled hp => exact hs.polled (ne_of_eq_of_ne hp (by decide)) _
  | uninspected hp hr hne _ =>
    have hn := ne_of_eq_of_ne hp (by decide : _ ≠ SlotPhase.free)
    exact (hs.polled hn _).tell_use hn (hready _ _ _ hr hne) rfl
  | completed hp hr hne _ =>
    have hn := ne_of_eq_of_ne hp (by decide : _ ≠ SlotPhase.free)
    have hfd := hready _ _ _ hr hne
    refine ((hs.polled hn _).tell_use hn hfd rfl).set_same (fun fd => ?_) ⟨by simp, fun _ => hfd⟩
    exact (holdsFence_iff (by simp) (by exact hfd) fd).trans (holdsFence_iff hn hfd fd).symm
  | waited _ => exact hs.tell_none rfl
  | closed hn hfd => exact hs.closed hn hfd rfl rfl
  | destroyed _ hfd =>
    refine (hs.tell_none rfl).set_same (fun fd => ?_) phased_released
    exact iff_of_false (not_holdsFence rfl fd) (not_holdsFence hfd fd)
  | emptied _ hfd _ =>
    refine hs.set_same (fun fd => ?_) phased_released
    exact iff_of_false (not_holdsFence rfl fd) (not_holdsFence hfd fd)

end FencesOwned

theorem exportOf_of_ne {j : SlotId} (hj : i ≠ j) (last : Option ℤ) (reply : Reply) :
    exportOf j last ⟨s.submitRequest i, reply⟩ = last ∧
      exportOf j last ⟨s.exportRequest i, reply⟩ = last := by
  cases reply <;> simp [exportOf, Slots.submitRequest, Slots.exportRequest, hj]

namespace Recent

theorem tell (hs : Recent s) (h : ∀ j, (s.jobs j).fenceFd ≠ -1 →
    exportOf j (lastExport s.log j) ⟨r, os s.log r⟩ = lastExport s.log j) :
    Recent (s.tell os r) := by
  intro j hj
  by_cases hfd : (s.jobs j).fenceFd = -1
  · exact .inl hfd
  · rw [lastExport_tell, h j hfd]
    exact hs j hj

theorem set (hs : Recent s) {slot : JobSlot} (hx : slot.phase ≠ .free →
    slot.fenceFd = -1 ∨ lastExport s.log i = some slot.fenceFd) : Recent (s.set i slot) := by
  intro j hj
  rcases eq_or_ne j i with rfl | hne
  · simp only [Slots.set, Function.update_self] at hj ⊢
    exact hx hj
  · simp only [Slots.set, Function.update_of_ne hne] at hj ⊢
    exact hs j hj

theorem submitted (hs : Recent s) (hfd : (s.jobs i).fenceFd = -1) {t : Slots} :
    Recent (s.tell os (t.submitRequest i)) := by
  apply hs.tell
  intro j hj
  have hij : i ≠ j := by
    rintro rfl
    exact hj hfd
  exact (exportOf_of_ne hij _ _).1

theorem exported (hs : Recent s) (hfd : (s.jobs i).fenceFd = -1) :
    Recent (s.tell os (s.exportRequest i)) := by
  apply hs.tell
  intro j hj
  have hij : i ≠ j := by
    rintro rfl
    exact hj hfd
  exact (exportOf_of_ne hij _ _).2

theorem lastExport_exported {fd : ℤ} (hr : os s.log (s.exportRequest i) = .ok fd) :
    lastExport (s.tell os (s.exportRequest i)).log i = some fd := by
  rw [lastExport_tell, hr]
  simp [exportOf, Slots.exportRequest]

theorem step (hf : FencesOwned s) (hs : Recent s) (h : SlotStep os False s s') : Recent s' := by
  cases h with
  | synced => exact hs.tell fun _ _ => rfl
  | createFailed _ => exact hs.tell fun _ _ => rfl
  | configured _ _ _ hfd _ => exact (hs.tell fun _ _ => rfl).set fun _ => .inl hfd
  | submitFailed _ hr => exact hs.tell fun _ _ => by rw [hr]; rfl
  | accepted hp _ hr =>
    have hfd := (hf.phased _).1 hp
    exact ((hs.submitted hfd).exported hfd).set fun _ => .inr (lastExport_exported hr)
  | unexported hp _ hr =>
    have hfd := (hf.phased _).1 hp
    exact ((hs.submitted hfd).exported hfd).set fun _ => .inl hfd
  | @reclaimed i _ hp _ =>
    -- The slot shows no descriptor while the driver takes the job and the old one is closed.
    have h₀ : Recent (s.set i { s.jobs i with phase := .submitted, fenceFd := -1 }) :=
      hs.set fun _ => .inl rfl
    exact (h₀.submitted (by simp [Slots.set])).tell fun _ _ => rfl
  | exported _ hfd hr => exact (hs.exported hfd).set fun _ => .inr (lastExport_exported hr)
  | lost hf => exact hf.elim
  | polled _ => exact hs.tell fun _ _ => rfl
  | uninspected _ _ _ _ => exact (hs.tell fun _ _ => rfl).tell fun _ _ => rfl
  | completed hp _ _ _ =>
    have hn := ne_of_eq_of_ne hp (by decide : _ ≠ SlotPhase.free)
    apply ((hs.tell fun _ _ => rfl).tell fun _ _ => rfl).set
    intro _
    rw [lastExport_tell, lastExport_tell]
    exact hs _ hn
  | waited _ => exact hs.tell fun _ _ => rfl
  | closed _ _ => exact (hs.tell fun _ _ => rfl).set fun _ => .inl rfl
  | destroyed _ _ => exact (hs.tell fun _ _ => rfl).set fun h => absurd rfl h
  | emptied _ _ _ => exact hs.set fun h => absurd rfl h

end Recent

/-! ## The descriptors of a run -/

/-- How the slots of a device and the exported descriptors belong together. -/
structure FenceAccount (w : World) : Prop where
  owned : ∀ i, (w.slot i).phase ≠ .free → (w.slot i).fenceFd = -1 ∨
    fenceOwner w.log (w.slot i).fenceFd = some i ∧ lastExport w.log i = some (w.slot i).fenceFd
  /-- A descriptor is polled, inspected and closed only while it is open, and only for its slot. -/
  disciplined : Disciplined (fenceLedger w.log)
  /-- Every descriptor exported for a slot is closed once, or is still in the slot. -/
  once : ∀ fd i, (fenceLedger w.log).count (.take fd i) = (fenceLedger w.log).count (.give fd i) +
    if HoldsFence (w.slot i) fd then 1 else 0

/-- The account holds, and a call that aborts has used no descriptor but the slots' own. -/
def FencesSafe (A : Abi) (os : Os) (allowed : Call → Prop) (w : World) : Prop :=
  FenceAccount w ∧
    ∀ c log, allowed c → c.exec A os w = .error log → Disciplined (fenceLedger log)

def Action.Keeps (os : Os) (w : World) (a : Action) : Prop :=
  ∀ c, a = .call c → ¬ c.Stale os w

theorem fencesOwned_start : FencesOwned ⟨fun _ => .zero, []⟩ where
  tallies := .nil fun i fd h => h.1 rfl
  phased i := by simp [JobSlot.Phased, JobSlot.zero]

theorem fencesOwned_of_reach (hos : FreshFd os) (hpoll : PollIgnores os)
    (h : ((libLts A os).restrict (Action.Keeps os)).Reach w) :
    FencesOwned w.slots ∧ Recent w.slots := by
  refine h.invariant (P := fun w => FencesOwned w.slots ∧ Recent w.slots) ?_ ?_
  · intro w hw
    rw [slots_start hw.2.1 hw.2.2]
    exact ⟨fencesOwned_start, fun i hi => absurd rfl hi⟩
  · rintro w a w' - hw ⟨hkeep, hst⟩
    exact step_keeps (P := fun s => FencesOwned s ∧ Recent s)
      (fun _ _ hs h => ⟨hs.1.step hos hpoll h, hs.2.step hs.1 h⟩) hkeep hst hw

theorem fenceAccount_of_owned (hs : FencesOwned w.slots) (hr : Recent w.slots) :
    FenceAccount w := by
  refine ⟨?_, hs.tallies.disciplined, fun fd i => hs.tallies.count_take fd i⟩
  intro i hi
  by_cases hfd : (w.slot i).fenceFd = -1
  · exact .inl hfd
  · exact .inr ⟨(hs.tallies.holder_iff _ i).mpr ⟨hi, rfl, hfd⟩, (hr i hi).resolve_left hfd⟩

/-! ## The resubmission in vain -/

/-- It returns, with an error, and leaves the closed descriptor in the slot. -/
theorem strelaJobSubmit_stale {job : JobHandle} (h : StaleResubmit os w job) :
    ∃ i w', (w.slot i).phase = .done ∧ strelaJobSubmit os job w = .ok (false, w') ∧
      w'.ok = false ∧ w'.slots = ((w.slots.reclaimed os i).tell os (w.slots.exportRequest i)).set i
        { w.slot i with phase := .submitted } ∧
      ∃ e, os (w.slots.reclaimed os i).log (w.slots.exportRequest i) = .error e := by
  obtain ⟨hw, hv, i, hi, hd, ⟨v, ho⟩, ⟨c, hc⟩, e, he⟩ := h
  have hg : strelaJobSlotGet job submittable w = .ok (some i, w) :=
    strelaJobSlotGet_of_ok hw hv hi (by rw [hd]; rfl)
  have hreq : Request.strelaSubmit i (w.slot i).submit = w.slots.submitRequest i := rfl
  let w₁ := (w.ask os (w.slots.submitRequest i)).2
  let w₂ := (w₁.ask os (w.slots.closeRequest i)).2
  have hok : (submitExport os i (w.slot i) w₂).ok = false := submitExport_not_ok he
  have hacc : submitAccepted os i w₁ = .ok (submitExport os i (w.slot i) w₂) := by
    have hslot : w₁.slot i = w.slot i := rfl
    simp only [submitAccepted, hslot, hd, if_true]
    exact congrArg (· >>= _) (askOrAbort_of_ok hc)
  refine ⟨i, submitExport os i (w.slot i) w₂, hd, ?_, hok, submitExport_error he, e, he⟩
  simp only [strelaJobSubmit, hg, ok_bind, hreq]
  rw [ask_eq ho]
  change submitAccepted os i w₁ >>= _ = _
  rw [hacc, ok_bind, hok]

theorem exec_stale {c : Call} (hc : c.Stale os w) :
    ∃ i w', (w.slot i).phase = .done ∧ c.exec A os w = .ok w' ∧
      w'.slots = ((w.slots.reclaimed os i).tell os (w.slots.exportRequest i)).set i
        { w.slot i with phase := .submitted } ∧
      ∃ e, os (w.slots.reclaimed os i).log (w.slots.exportRequest i) = .error e := by
  cases c with
  | jobSubmit job =>
    obtain ⟨i, w', hd, hex, -, hs⟩ := strelaJobSubmit_stale hc
    exact ⟨i, w', hd, by simp [Call.exec, hex], hs⟩
  | execute =>
    obtain ⟨i, w', hd, hex, hok, hs⟩ := strelaJobSubmit_stale hc
    refine ⟨i, w', hd, ?_, hs⟩
    simp [Call.exec, strelaExecute, hex, strelaJobWait, strelaJobPoll,
      strelaJobSlotGet_of_not_ok hok]
  | _ => exact hc.elim

theorem not_fenceAccount_of_stale (hs : FencesOwned w.slots) {c : Call} (hc : c.Stale os w)
    {w' : World} (h : c.exec A os w = .ok w') : ¬ FenceAccount w' := by
  obtain ⟨i, w₁, hd, hex, hs₁, e, he⟩ := exec_stale (A := A) hc
  obtain rfl : w₁ = w' := by simpa [hex] using h
  have hfd : (w.slot i).fenceFd ≠ -1 := (hs.phased i).2 hd
  have hslot : w₁.slot i = { w.slot i with phase := .submitted } := by
    change w₁.slots.jobs i = _
    rw [hs₁]
    simp [Slots.set]
  have hlog : w₁.log = ((w.slots.reclaimed os i).tell os (w.slots.exportRequest i)).log :=
    congrArg Slots.log hs₁
  have howner : fenceOwner w₁.log (w.slot i).fenceFd = none := by
    have hclose : fenceLedger (w.slots.reclaimed os i).log =
        fenceLedger (w.slots.submitted os i).log ++ [.give (w.slot i).fenceFd i] :=
      fenceLedger_concat _ _
    rw [hlog, fenceOwner, Slots.tell, fenceLedger_concat, fenceEntry_of_error he,
      Option.toList_none, List.append_nil, hclose, holder_concat]
    simp [Entry.apply]
  intro hacc
  have ho := hacc.owned i (by rw [hslot]; simp)
  rw [hslot] at ho
  simp [hfd, howner] at ho

/-- In every run without a resubmission in vain the descriptors are accounted for, and the next
action keeps it so exactly if it is no such resubmission. -/
theorem reach_fencesSafe (hos : FreshFd os) (hpoll : PollIgnores os)
    (h : ((libLts A os).restrict (Action.Keeps os)).Reach w) :
    FencesSafe A os (fun c => ¬ c.Stale os w) w ∧
      ∀ a w', (libLts A os).step w a w' → (FenceAccount w' ↔ a.Keeps os w) := by
  obtain ⟨hs, hr⟩ := fencesOwned_of_reach hos hpoll h
  refine ⟨⟨fenceAccount_of_owned hs hr, ?_⟩, fun a w' hst => ⟨?_, fun hk => ?_⟩⟩
  · intro c log hc he
    obtain ⟨s, hs', rfl⟩ := abort_keeps (fun _ _ hs h => FencesOwned.step hos hpoll hs h) hc he hs
    exact hs'.tallies.disciplined
  · rintro hacc c rfl hc
    exact not_fenceAccount_of_stale hs hc hst hacc
  · obtain ⟨hs', hr'⟩ := fencesOwned_of_reach hos hpoll (h.step ⟨hk, hst⟩)
    exact fenceAccount_of_owned hs' hr'

/-- A system that has one descriptor to give while few calls were made, and none later. -/
def oneFence : Os := fun log r =>
  match r with
  | .syncobjCreate _ => .ok 1
  | .handleToFd _ _ => if log.length < 3 ∧ fenceOwner log 5 = none then .ok 5 else .error 24
  | .poll _ fd _ => if fd = -1 then .ok 0 else .ok 1
  | .fileInfo _ _ => .ok 1
  | _ => .ok 0

theorem oneFence_freshFd : FreshFd oneFence := by
  intro log i h fd hr
  simp only [oneFence] at hr
  split at hr
  · obtain rfl := Except.ok.inj hr
    exact ⟨by decide, (‹_ ∧ _›).2⟩
  · cases hr

theorem oneFence_pollIgnores : PollIgnores oneFence := by
  intro log i timeout ready hr
  exact (Except.ok.inj hr).symm

def configuredWorld : World :=
  readyWorld.after Abi.arm32 oneFence (.jobConfig ⟨true, 0⟩ emptyConf)

def submittedWorld : World := configuredWorld.after Abi.arm32 oneFence (.jobSubmit ⟨true, 0⟩)

def doneWorld : World := submittedWorld.after Abi.arm32 oneFence (.jobWait ⟨true, 0⟩ 1000)

theorem reach_doneWorld :
    ((libLts Abi.arm32 oneFence).restrict (Action.Keeps oneFence)).Reach doneWorld := by
  have h₁ :
      ((libLts Abi.arm32 oneFence).restrict (Action.Keeps oneFence)).Reach configuredWorld := by
    refine .step (a := .call (.jobConfig ⟨true, 0⟩ _))
      (.start (@readyWorld_start Abi.arm32 oneFence)) ⟨?_, rfl⟩
    rintro c hc h
    cases hc
    exact h
  have h₂ :
      ((libLts Abi.arm32 oneFence).restrict (Action.Keeps oneFence)).Reach submittedWorld := by
    refine .step (a := .call (.jobSubmit ⟨true, 0⟩)) h₁ ⟨?_, rfl⟩
    rintro c hc h
    cases hc
    obtain ⟨-, -, i, hi, hd, -⟩ := h
    obtain rfl : i = 0 := Fin.ext hi.symm
    cases hd
  refine .step (a := .call (.jobWait ⟨true, 0⟩ 1000)) h₂ ⟨?_, rfl⟩
  rintro c hc h
  cases hc
  exact h

theorem reach_fencesSafe_doneWorld :
    (doneWorld.slot 0).fenceFd = 5 ∧
      FencesSafe Abi.arm32 oneFence (fun c => ¬ c.Stale oneFence doneWorld) doneWorld :=
  ⟨rfl, (reach_fencesSafe oneFence_freshFd oneFence_pollIgnores reach_doneWorld).1⟩

/-- The job is submitted again and no descriptor is left for it. -/
theorem not_fencesSafe_resubmitted :
    ¬ ∀ (A : Abi) (os : Os) (w : World), FreshFd os → PollIgnores os → (libLts A os).Reach w →
      FencesSafe A os (fun _ => True) w := by
  intro h
  have hr : (libLts Abi.arm32 oneFence).Reach
      (doneWorld.after Abi.arm32 oneFence (.jobSubmit ⟨true, 0⟩)) :=
    .step (a := .call (.jobSubmit ⟨true, 0⟩)) reach_doneWorld.of_restrict rfl
  have hs := h _ _ _ oneFence_freshFd oneFence_pollIgnores hr
  have ho := hs.1.owned 0 (by decide)
  revert ho
  decide

end Strela.Lib
