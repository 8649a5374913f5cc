import Strela.Lib.Fences
import Strela.Lib.Syncobjs

/-! # Submissions

The driver numbers nothing, but the record of system calls tells which submission
a sync object, a descriptor or a slot stands for: a submission stores its fence in
the sync object, an export copies it to a descriptor, and a slot stands for the
last submission of its job. The slots of a device agree with that record as long
as no resubmission loses its descriptor.
-/

namespace Strela.Lib

open Foundation Strela.Allocator

/-- What the system calls say of the submissions the driver has taken, numbered in their order. -/
structure Record where
  count : ℕ
  /-- The submission whose fence a sync object holds. -/
  stored : U32 → Option ℕ
  /-- The submission whose fence a descriptor was exported from. -/
  exported : ℤ → Option ℕ
  /-- The last submission of the job in a slot. -/
  latest : SlotId → Option ℕ
  /-- Whether that submission has not been observed done. -/
  unseen : SlotId → Bool

namespace Record

def empty : Record := ⟨0, fun _ => none, fun _ => none, fun _ => none, fun _ => false⟩

def note (r : Record) : Event → Record
  | ⟨.syncobjCreate i, .ok h⟩ =>
    { r with
      stored := Function.update r.stored (BitVec.ofInt 32 h) none
      latest := Function.update r.latest i none
      unseen := Function.update r.unseen i false }
  | ⟨.strelaSubmit i args, .ok _⟩ =>
    { r with
      count := r.count + 1
      stored := Function.update r.stored args.outSyncobj (some r.count)
      latest := Function.update r.latest i (some r.count)
      unseen := Function.update r.unseen i true }
  | ⟨.handleToFd _ h, .ok fd⟩ => { r with exported := Function.update r.exported fd (r.stored h) }
  | ⟨.fileInfo i _, .ok _⟩ => { r with unseen := Function.update r.unseen i false }
  | ⟨.close _ fd, _⟩ => { r with exported := Function.update r.exported fd none }
  | ⟨.syncobjDestroy i h, _⟩ =>
    { r with
      stored := Function.update r.stored h none
      latest := Function.update r.latest i none
      unseen := Function.update r.unseen i false }
  | _ => r

end Record

def record (log : List Event) : Record := log.foldl Record.note .empty

@[simp] theorem record_concat (log : List Event) (e : Event) :
    record (log ++ [e]) = (record log).note e := by
  simp [record]

theorem note_count_le (R : Record) (e : Event) : R.count ≤ (R.note e).count := by
  rcases e with ⟨request, reply⟩
  cases request <;> cases reply <;> simp [Record.note]

theorem update_lt {κ : Type} [DecidableEq κ] {f : κ → Option ℕ} {k : κ} {x : Option ℕ} {m : ℕ}
    (hf : ∀ j n, f j = some n → n < m) (hx : ∀ n, x = some n → n < m) :
    ∀ j n, Function.update f k x j = some n → n < m := by
  intro j n hn
  rcases eq_or_ne j k with rfl | hj
  · rw [Function.update_self] at hn
    exact hx n hn
  · rw [Function.update_of_ne hj] at hn
    exact hf j n hn

theorem record_lt (log : List Event) :
    (∀ h n, (record log).stored h = some n → n < (record log).count) ∧
    ∀ fd n, (record log).exported fd = some n → n < (record log).count := by
  induction log using List.reverseRecOn with
  | nil => simp [record, Record.empty]
  | append_singleton log e ih =>
    rw [record_concat]
    have hle := note_count_le (record log) e
    have hs (h : U32) (n : ℕ) (hn : (record log).stored h = some n) :
        n < ((record log).note e).count := (ih.1 h n hn).trans_le hle
    have hx (fd : ℤ) (n : ℕ) (hn : (record log).exported fd = some n) :
        n < ((record log).note e).count := (ih.2 fd n hn).trans_le hle
    rcases e with ⟨request, reply⟩
    cases request with
    | syncobjCreate i =>
      cases reply with
      | error e => exact ⟨hs, hx⟩
      | ok h => exact ⟨update_lt hs (by simp), hx⟩
    | strelaSubmit i args =>
      cases reply with
      | error e => exact ⟨hs, hx⟩
      | ok v => exact ⟨update_lt hs (by simp [Record.note]), hx⟩
    | handleToFd i h =>
      cases reply with
      | error e => exact ⟨hs, hx⟩
      | ok fd => exact ⟨hs, update_lt hx (hs h)⟩
    | fileInfo i fd => cases reply <;> exact ⟨hs, hx⟩
    | close i fd => exact ⟨hs, update_lt hx (by simp)⟩
    | syncobjDestroy i h => exact ⟨update_lt hs (by simp), hx⟩
    | gemSync | syncobjWait | poll => exact ⟨hs, hx⟩

/-- The status of the fence of a submission, once it has signalled. -/
abbrev Statuses := List Event → ℕ → Option ℤ

def Finished (status : Statuses) (log : List Event) (n : ℕ) : Prop := (status log n).isSome = true

/-- How the system reports on fences. -/
structure Signals (os : Os) (status : Statuses) : Prop where
  syncobj : FreshSyncobj os
  fd : FreshFd os
  ignores : PollIgnores os
  /-- A fence signals once. -/
  stays : ∀ log e n v, status log n = some v → status (log ++ [e]) n = some v
  /-- A descriptor is ready only once its fence has signalled. -/
  ready : ∀ log i fd timeout ready n, os log (.poll i fd timeout) = .ok ready → ready ≠ 0 →
    (record log).exported fd = some n → Finished status (log ++ [⟨.poll i fd timeout, .ok ready⟩]) n
  /-- A poll without a timeout does not return before its descriptor is ready. -/
  blocks : ∀ log i fd, os log (.poll i fd (-1)) ≠ .ok 0
  /-- The status reported for a descriptor is that of its fence. -/
  info : ∀ log i fd v n v', os log (.fileInfo i fd) = .ok v → (record log).exported fd = some n →
    status log n = some v' → v = v'
  /-- A wait for a sync object returns once its fence has signalled. -/
  waited : ∀ log i h v n, os log (.syncobjWait i h) = .ok v → (record log).stored h = some n →
    Finished status (log ++ [⟨.syncobjWait i h, .ok v⟩]) n

variable {os : Os} {status : Statuses} {s s' : Slots} {i j : SlotId} {r : Request}

theorem Signals.finished (hos : Signals os status) {log : List Event} {e : Event} {n : ℕ}
    (h : Finished status log n) : Finished status (log ++ [e]) n := by
  obtain ⟨v, hv⟩ := Option.isSome_iff_exists.mp h
  exact Option.isSome_iff_exists.mpr ⟨v, hos.stays _ _ _ _ hv⟩

/-! ## Slots and the record -/

/-- What the record says of the job in a slot. -/
structure SlotAttributed (status : Statuses) (log : List Event) (i : SlotId) (slot : JobSlot) :
    Prop where
  /-- A job in the driver has a last submission, whose fence is in its sync object. -/
  running : inDriver slot.phase = true → ∃ n, (record log).latest i = some n ∧
    (record log).stored slot.submit.outSyncobj = some n
  idle : inDriver slot.phase = false → (record log).latest i = none
  /-- The descriptor is that of the last submission. -/
  fenced : slot.phase ≠ .free → slot.fenceFd ≠ -1 →
    (record log).exported slot.fenceFd = (record log).latest i
  /-- The status kept of a done job is that of its last submission. -/
  result : ∀ n, slot.phase = .done → (record log).latest i = some n →
    status log n = some slot.status
  observed : (record log).unseen i = true → slot.phase = .submitted

def Attributed (status : Statuses) (s : Slots) : Prop :=
  ∀ i, SlotAttributed status s.log i (s.jobs i)

structure Agree (r r' : Record) (i : SlotId) (slot : JobSlot) : Prop where
  latest : r'.latest i = r.latest i
  unseen : r'.unseen i = r.unseen i
  stored : slot.phase ≠ .free → r'.stored slot.submit.outSyncobj = r.stored slot.submit.outSyncobj
  exported : slot.phase ≠ .free → slot.fenceFd ≠ -1 →
    r'.exported slot.fenceFd = r.exported slot.fenceFd

theorem Agree.of_eq {r r' : Record} {slot : JobSlot} (h : r' = r) : Agree r r' i slot := by
  subst h
  exact ⟨rfl, rfl, fun _ => rfl, fun _ _ => rfl⟩

theorem ne_free_of_inDriver {p : SlotPhase} (h : inDriver p = true) : p ≠ .free := by
  rintro rfl
  cases h

theorem SlotAttributed.tell (hos : Signals os status) {slot : JobSlot}
    (h : SlotAttributed status s.log i slot)
    (ha : Agree (record s.log) (record (s.tell os r).log) i slot) :
    SlotAttributed status (s.tell os r).log i slot where
  running hp := by
    obtain ⟨n, hn, hst⟩ := h.running hp
    exact ⟨n, ha.latest.trans hn, (ha.stored (ne_free_of_inDriver hp)).trans hst⟩
  idle hp := ha.latest.trans (h.idle hp)
  fenced hp hfd := by
    rw [ha.exported hp hfd, ha.latest]
    exact h.fenced hp hfd
  result n hp hn := hos.stays _ _ _ _ (h.result n hp (ha.latest.symm.trans hn))
  observed hu := h.observed (ha.unseen.symm.trans hu)

/-! ## Calls for other slots -/

section Agree

variable {R : Record} {slot : JobSlot} {x : Reply} {h : U32} {fd : ℤ}

theorem agree_create (hij : j ≠ i) {h : ℤ}
    (hne : slot.phase ≠ .free → slot.submit.outSyncobj ≠ BitVec.ofInt 32 h) :
    Agree R (R.note ⟨.syncobjCreate i, .ok h⟩) j slot where
  latest := Function.update_of_ne hij _ _
  unseen := Function.update_of_ne hij _ _
  stored hp := Function.update_of_ne (hne hp) _ _
  exported _ _ := rfl

theorem agree_submit (hij : j ≠ i) {args : Submit}
    (hne : slot.phase ≠ .free → slot.submit.outSyncobj ≠ args.outSyncobj) :
    Agree R (R.note ⟨.strelaSubmit i args, x⟩) j slot := by
  cases x with
  | error e => exact .of_eq rfl
  | ok v =>
    constructor
    · exact Function.update_of_ne hij _ _
    · exact Function.update_of_ne hij _ _
    · exact fun hp => Function.update_of_ne (hne hp) _ _
    · exact fun _ _ => rfl

theorem agree_export (hne : slot.phase ≠ .free → slot.fenceFd ≠ -1 → slot.fenceFd ≠ fd) :
    Agree R (R.note ⟨.handleToFd i h, .ok fd⟩) j slot where
  latest := rfl
  unseen := rfl
  stored _ := rfl
  exported hp hfd := Function.update_of_ne (hne hp hfd) _ _

theorem agree_info (hij : j ≠ i) : Agree R (R.note ⟨.fileInfo i fd, x⟩) j slot := by
  cases x with
  | error e => exact .of_eq rfl
  | ok v => exact ⟨rfl, Function.update_of_ne hij _ _, fun _ => rfl, fun _ _ => rfl⟩

theorem agree_close (hne : slot.phase ≠ .free → slot.fenceFd ≠ -1 → slot.fenceFd ≠ fd) :
    Agree R (R.note ⟨.close i fd, x⟩) j slot where
  latest := rfl
  unseen := rfl
  stored _ := rfl
  exported hp hfd := Function.update_of_ne (hne hp hfd) _ _

theorem agree_destroy (hij : j ≠ i) (hne : slot.phase ≠ .free → slot.submit.outSyncobj ≠ h) :
    Agree R (R.note ⟨.syncobjDestroy i h, x⟩) j slot where
  latest := Function.update_of_ne hij _ _
  unseen := Function.update_of_ne hij _ _
  stored hp := Function.update_of_ne (hne hp) _ _
  exported _ _ := rfl

end Agree

theorem SyncobjsOwned.ne_outSyncobj (hs : SyncobjsOwned s) (hi : (s.jobs i).phase ≠ .free)
    (hij : j ≠ i) (hj : (s.jobs j).phase ≠ .free) :
    (s.jobs j).submit.outSyncobj ≠ (s.jobs i).submit.outSyncobj :=
  fun h => hij (hs.tallies.owner_eq ⟨hj, rfl⟩ ⟨hi, h.symm⟩)

theorem FencesOwned.ne_fenceFd (hs : FencesOwned s) (hi : (s.jobs i).phase ≠ .free) (hij : j ≠ i)
    (hj : (s.jobs j).phase ≠ .free) (hfd : (s.jobs j).fenceFd ≠ -1) :
    (s.jobs j).fenceFd ≠ (s.jobs i).fenceFd :=
  fun h => hij (hs.tallies.owner_eq ⟨hj, rfl, hfd⟩ ⟨hi, h.symm, hfd⟩)

theorem FencesOwned.ne_of_fresh (hs : FencesOwned s) {fd : ℤ} (hfresh : fenceOwner s.log fd = none)
    (hj : (s.jobs j).phase ≠ .free) (hfd : (s.jobs j).fenceFd ≠ -1) : (s.jobs j).fenceFd ≠ fd := by
  rintro rfl
  have ho : fenceOwner s.log (s.jobs j).fenceFd = some j :=
    (hs.tallies.holder_iff _ j).mpr ⟨hj, rfl, hfd⟩
  rw [hfresh] at ho
  cases ho

/-! ## Steps of the table -/

/-- The slots own their sync objects and descriptors, and the record speaks of them. -/
structure Tracked (status : Statuses) (s : Slots) : Prop where
  syncobjs : SyncobjsOwned s
  fences : FencesOwned s
  attributed : Attributed status s

def AttributedBut (status : Statuses) (i : SlotId) (s : Slots) : Prop :=
  ∀ j, j ≠ i → SlotAttributed status s.log j (s.jobs j)

theorem Attributed.but (hs : Attributed status s) (i : SlotId) : AttributedBut status i s :=
  fun j _ => hs j

theorem Attributed.tell (hos : Signals os status) (hs : Attributed status s)
    (h : (record s.log).note ⟨r, os s.log r⟩ = record s.log) : Attributed status (s.tell os r) :=
  fun j => (hs j).tell hos (.of_eq (by simp [Slots.tell, h]))

namespace AttributedBut

theorem tell (hos : Signals os status) (hs : AttributedBut status i s)
    (h : ∀ j, j ≠ i → Agree (record s.log) ((record s.log).note ⟨r, os s.log r⟩) j (s.jobs j)) :
    AttributedBut status i (s.tell os r) := by
  intro j hj
  refine (hs j hj).tell hos ?_
  rw [Slots.tell, record_concat]
  exact h j hj

theorem set (hs : AttributedBut status i s) {slot : JobSlot}
    (hi : SlotAttributed status s.log i slot) : Attributed status (s.set i slot) := by
  intro j
  rcases eq_or_ne j i with rfl | hj
  · simpa [Slots.set] using hi
  · simpa [Slots.set, hj] using hs j hj

theorem submitted (hos : Signals os status) (hs : AttributedBut status i s)
    (ho : SyncobjsOwned s) (hi : (s.jobs i).phase ≠ .free) :
    AttributedBut status i (s.submitted os i) :=
  hs.tell hos fun _ hj => agree_submit hj fun hp => ho.ne_outSyncobj hi hj hp

theorem exported (hos : Signals os status) (hs : AttributedBut status i s) (hf : FencesOwned s)
    {fd : ℤ} (hr : os s.log (s.exportRequest i) = .ok fd) :
    AttributedBut status i (s.tell os (s.exportRequest i)) := by
  apply hs.tell hos
  intro j _
  rw [hr]
  exact agree_export fun hp hfd => hf.ne_of_fresh (hos.fd _ _ _ _ hr).2 hp hfd

theorem closed (hos : Signals os status) (hs : AttributedBut status i s) (hf : FencesOwned s)
    (hi : (s.jobs i).phase ≠ .free) : AttributedBut status i (s.tell os (s.closeRequest i)) :=
  hs.tell hos fun _ hj => agree_close fun hp hfd => hf.ne_fenceFd hi hj hp hfd

end AttributedBut

section Own

variable {log : List Event} {slot : JobSlot} {n : ℕ}

theorem attributed_submitted (hp : slot.phase = .submitted) (hl : (record log).latest i = some n)
    (hst : (record log).stored slot.submit.outSyncobj = some n)
    (hfd : slot.fenceFd = -1 ∨ (record log).exported slot.fenceFd = some n) :
    SlotAttributed status log i slot where
  running _ := ⟨n, hl, hst⟩
  idle h := by simp [hp, inDriver] at h
  fenced _ hne := (hfd.resolve_left hne).trans hl.symm
  result _ hd := by simp [hp] at hd
  observed _ := hp

theorem attributed_idle (hp : inDriver slot.phase = false)
    (hfd : slot.phase = .free ∨ slot.fenceFd = -1)
    (hl : (record log).latest i = none) (hu : (record log).unseen i = false) :
    SlotAttributed status log i slot where
  running h := by simp [hp] at h
  idle _ := hl
  fenced hn hne := (hfd.elim hn hne).elim
  result _ hd := by simp [hd, inDriver] at hp
  observed h := by simp [hu] at h

end Own

theorem record_submitted {v : ℤ} (ho : os s.log (s.submitRequest i) = .ok v) :
    ∃ n, (record (s.submitted os i).log).latest i = some n ∧
      (record (s.submitted os i).log).stored (s.jobs i).submit.outSyncobj = some n := by
  refine ⟨(record s.log).count, ?_⟩
  rw [Slots.submitted, Slots.tell, record_concat, ho]
  simp [Record.note, Slots.submitRequest]

theorem record_exported {fd : ℤ} (hr : os s.log (s.exportRequest i) = .ok fd) :
    let R := record (s.tell os (s.exportRequest i)).log
    R.latest = (record s.log).latest ∧ R.stored = (record s.log).stored ∧
      R.exported fd = (record s.log).stored (s.jobs i).submit.outSyncobj := by
  simp only [Slots.tell, record_concat, hr]
  exact ⟨rfl, rfl, Function.update_self _ _ _⟩

theorem record_closed (os : Os) : let R := record (s.tell os (s.closeRequest i)).log
    R.latest = (record s.log).latest ∧ R.stored = (record s.log).stored := by
  simp only [Slots.tell, record_concat]
  exact ⟨rfl, rfl⟩

theorem inDriver_of_fenced (hf : FencesOwned s) (hp : (s.jobs i).phase ≠ .free)
    (hfd : (s.jobs i).fenceFd ≠ -1) : inDriver (s.jobs i).phase = true := by
  have hc := mt (hf.phased i).1 hfd
  cases h : (s.jobs i).phase with
  | free => exact absurd h hp
  | configured => exact absurd h hc
  | submitted | done => rfl

namespace Tracked

theorem configured (hos : Signals os status) (hs : Tracked status s) {h : ℤ} {slot : JobSlot}
    (hr : os s.log (.syncobjCreate i) = .ok h) (hp : slot.phase = .configured)
    (hfd : slot.fenceFd = -1) : Attributed status ((s.tell os (.syncobjCreate i)).set i slot) := by
  have hother : AttributedBut status i (s.tell os (.syncobjCreate i)) := by
    apply (hs.attributed.but i).tell hos
    intro j hj
    rw [hr]
    refine agree_create hj fun hn heq => ?_
    have ho : syncOwner s.log (s.jobs j).submit.outSyncobj = some j :=
      (hs.syncobjs.tallies.holder_iff _ j).mpr ⟨hn, rfl⟩
    rw [heq, (hos.syncobj _ _ _ hr).2] at ho
    cases ho
  refine hother.set (attributed_idle (by rw [hp]; rfl) (.inr hfd) ?_ ?_)
  · simp [Slots.tell, Record.note, hr]
  · simp [Slots.tell, Record.note, hr]

theorem accepted (hos : Signals os status) (hs : Tracked status s) {v fd : ℤ}
    (hp : (s.jobs i).phase = .configured) (ho : os s.log (s.submitRequest i) = .ok v)
    (hr : os (s.submitted os i).log (s.exportRequest i) = .ok fd) :
    Attributed status (((s.submitted os i).tell os (s.exportRequest i)).set i
      { s.jobs i with phase := .submitted, fenceFd := fd }) := by
  have hn := ne_of_eq_of_ne hp (by decide : _ ≠ SlotPhase.free)
  have hother := (hs.attributed.but i).submitted hos hs.syncobjs hn
  have hf : FencesOwned (s.submitted os i) := hs.fences.tell_none rfl
  obtain ⟨n, hl, hst⟩ := record_submitted ho
  obtain ⟨hl', hst', hx⟩ := record_exported (s := s.submitted os i) (i := i) hr
  refine (hother.exported hos hf hr).set (attributed_submitted (n := n) rfl ?_ ?_ (.inr ?_))
  · exact (congrFun hl' i).trans hl
  · exact (congrFun hst' _).trans hst
  · exact hx.trans hst

theorem unexported (hos : Signals os status) (hs : Tracked status s) {v : ℤ} {e : ℕ+}
    (hp : (s.jobs i).phase = .configured) (ho : os s.log (s.submitRequest i) = .ok v)
    (hr : os (s.submitted os i).log (s.exportRequest i) = .error e) :
    Attributed status (((s.submitted os i).tell os (s.exportRequest i)).set i
      { s.jobs i with phase := .submitted }) := by
  have hn := ne_of_eq_of_ne hp (by decide : _ ≠ SlotPhase.free)
  have hother := (hs.attributed.but i).submitted hos hs.syncobjs hn
  have hsame : (record (s.submitted os i).log).note
      ⟨s.exportRequest i, os (s.submitted os i).log (s.exportRequest i)⟩ =
        record (s.submitted os i).log := by
    rw [hr]
    rfl
  obtain ⟨n, hl, hst⟩ := record_submitted ho
  refine (hother.tell hos fun j _ => .of_eq hsame).set
    (attributed_submitted (n := n) rfl ?_ ?_ (.inl ((hs.fences.phased i).1 hp)))
  · rw [Slots.tell, record_concat, hsame]
    exact hl
  · rw [Slots.tell, record_concat, hsame]
    exact hst

theorem reclaimed (hos : Signals os status) (hs : Tracked status s) {v : ℤ}
    (hp : (s.jobs i).phase = .done) (ho : os s.log (s.submitRequest i) = .ok v) :
    Attributed status ((s.reclaimed os i).set i
      { s.jobs i with phase := .submitted, fenceFd := -1 }) := by
  have hn := ne_of_eq_of_ne hp (by decide : _ ≠ SlotPhase.free)
  have hother := (hs.attributed.but i).submitted hos hs.syncobjs hn
  have hf : FencesOwned (s.submitted os i) := hs.fences.tell_none rfl
  obtain ⟨n, hl, hst⟩ := record_submitted ho
  obtain ⟨hl', hst'⟩ := record_closed os (s := s.submitted os i) (i := i)
  refine (hother.closed hos hf hn).set (attributed_submitted (n := n) rfl ?_ ?_ (.inl rfl))
  · exact (congrFun hl' i).trans hl
  · exact (congrFun hst' _).trans hst

theorem exported (hos : Signals os status) (hs : Tracked status s) {fd : ℤ}
    (hp : (s.jobs i).phase = .submitted) (hr : os s.log (s.exportRequest i) = .ok fd) :
    Attributed status ((s.tell os (s.exportRequest i)).set i { s.jobs i with fenceFd := fd }) := by
  obtain ⟨n, hl, hst⟩ := (hs.attributed i).running (by rw [hp]; rfl)
  obtain ⟨hl', hst', hx⟩ := record_exported hr
  refine ((hs.attributed.but i).exported hos hs.fences hr).set
    (attributed_submitted (n := n) hp ?_ ?_ (.inr ?_))
  · exact (congrFun hl' i).trans hl
  · exact (congrFun hst' _).trans hst
  · exact hx.trans hst

/-- The descriptor is ready, and its status is that of the last submission. -/
theorem completed (hos : Signals os status) (hs : Tracked status s) {timeout ready v : ℤ}
    (hp : (s.jobs i).phase = .submitted) (hr : os s.log (s.pollRequest i timeout) = .ok ready)
    (hne : ready ≠ 0)
    (hi : os (s.tell os (s.pollRequest i timeout)).log (s.infoRequest i) = .ok v) :
    Attributed status (((s.tell os (s.pollRequest i timeout)).tell os (s.infoRequest i)).set i
      { s.jobs i with status := v, phase := .done }) := by
  have hn := ne_of_eq_of_ne hp (by decide : _ ≠ SlotPhase.free)
  have hfd : (s.jobs i).fenceFd ≠ -1 := by
    intro h
    rw [Slots.pollRequest, h] at hr
    exact hne (hos.ignores _ _ _ _ hr)
  let l := (s.tell os (s.pollRequest i timeout)).log
  have hl₁ : record l = record s.log := by simp [l, Slots.tell, Record.note, Slots.pollRequest]
  obtain ⟨n, hl, hst⟩ := (hs.attributed i).running (by rw [hp]; rfl)
  have hx : (record s.log).exported (s.jobs i).fenceFd = some n :=
    ((hs.attributed i).fenced hn hfd).trans hl
  have hfin : Finished status l n := by
    have h := hos.ready _ _ _ _ _ _ hr hne hx
    rw [← hr] at h
    exact h
  obtain ⟨v', hv'⟩ := Option.isSome_iff_exists.mp hfin
  obtain rfl : v = v' := hos.info _ _ _ _ _ _ hi (by rw [hl₁]; exact hx) hv'
  have hother : AttributedBut status i ((s.tell os (s.pollRequest i timeout)).tell os
      (s.infoRequest i)) := by
    refine ((hs.attributed.tell hos rfl).but i).tell hos fun j hj => ?_
    exact agree_info hj
  apply hother.set
  have hrec : record ((s.tell os (s.pollRequest i timeout)).tell os (s.infoRequest i)).log =
      (record s.log).note ⟨s.infoRequest i, .ok v⟩ := by
    rw [Slots.tell, record_concat, hi, hl₁]
  constructor
  · intro _
    rw [hrec]
    exact ⟨n, hl, hst⟩
  · intro h
    cases h
  · intro _ _
    rw [hrec]
    exact hx.trans hl.symm
  · intro m _ hm
    rw [hrec] at hm
    obtain rfl : n = m := Option.some.inj (hl.symm.trans hm)
    exact hos.stays _ _ _ _ hv'
  · intro hu
    rw [hrec] at hu
    simp [Record.note, Slots.infoRequest] at hu

theorem closed (hos : Signals os status) (hs : Tracked status s) (hp : (s.jobs i).phase ≠ .free)
    (hfd : (s.jobs i).fenceFd ≠ -1) :
    Attributed status ((s.tell os (s.closeRequest i)).set i
      { s.jobs i with phase := .submitted, fenceFd := -1 }) := by
  obtain ⟨n, hl, hst⟩ := (hs.attributed i).running (inDriver_of_fenced hs.fences hp hfd)
  obtain ⟨hl', hst'⟩ := record_closed os (s := s) (i := i)
  refine ((hs.attributed.but i).closed hos hs.fences hp).set
    (attributed_submitted (n := n) rfl ?_ ?_ (.inl rfl))
  · exact (congrFun hl' i).trans hl
  · exact (congrFun hst' _).trans hst

theorem destroyed (hos : Signals os status) (hs : Tracked status s)
    (hp : (s.jobs i).phase ≠ .free) :
    Attributed status
      ((s.tell os (.syncobjDestroy i (s.jobs i).submit.outSyncobj)).set i .released) := by
  have hother : AttributedBut status i
      (s.tell os (.syncobjDestroy i (s.jobs i).submit.outSyncobj)) :=
    (hs.attributed.but i).tell hos fun _ hj =>
      agree_destroy hj fun hn => hs.syncobjs.ne_outSyncobj hp hj hn
  refine hother.set (attributed_idle rfl (.inl rfl) ?_ ?_)
  · simp [Slots.tell, Record.note]
  · simp [Slots.tell, Record.note]

theorem step (hos : Signals os status) (hs : Tracked status s) (h : SlotStep os False s s') :
    Tracked status s' := by
  refine ⟨hs.syncobjs.step hos.syncobj h, hs.fences.step hos.fd hos.ignores h, ?_⟩
  cases h with
  | synced => exact hs.attributed.tell hos rfl
  | createFailed h => exact hs.attributed.tell hos (by rw [h]; rfl)
  | configured _ hr hp hfd _ => exact hs.configured hos hr hp hfd
  | submitFailed _ h => exact hs.attributed.tell hos (by rw [h]; rfl)
  | accepted hp ho hr => exact hs.accepted hos hp ho hr
  | unexported hp ho hr => exact hs.unexported hos hp ho hr
  | reclaimed hp ho => exact hs.reclaimed hos hp ho
  | exported hp _ hr => exact hs.exported hos hp hr
  | lost hf => exact hf.elim
  | polled _ => exact hs.attributed.tell hos rfl
  | uninspected _ _ _ h =>
    exact (hs.attributed.tell hos rfl).tell hos (by rw [h]; rfl)
  | completed hp hr hne hi => exact hs.completed hos hp hr hne hi
  | waited _ => exact hs.attributed.tell hos rfl
  | closed hp hfd => exact hs.closed hos hp hfd
  | destroyed hp _ => exact hs.destroyed hos hp
  | emptied hp _ hz => exact absurd ((hs.syncobjs.eq_zero_iff _).mp hz) hp

end Tracked

end Strela.Lib
