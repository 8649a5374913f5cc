import Strela.Lib.Calls

/-! # The table of job slots

What the calls of the library can do to the slots of a device and to the record
of system calls, one step at a time. Every call is a sequence of such steps, and
so is a call that aborts. In the middle of a release or a resubmission the table
shows the slot without its descriptor as soon as the descriptor is closed; the
device itself drops it later.
-/

namespace Strela.Lib

open Foundation Strela.Allocator

structure Slots where
  jobs : SlotId → JobSlot
  log : List Event

namespace Slots

variable (os : Os)

def tell (r : Request) (s : Slots) : Slots := { s with log := s.log ++ [⟨r, os s.log r⟩] }

def set (i : SlotId) (slot : JobSlot) (s : Slots) : Slots :=
  { s with jobs := Function.update s.jobs i slot }

def submitRequest (s : Slots) (i : SlotId) : Request := .strelaSubmit i (s.jobs i).submit

def exportRequest (s : Slots) (i : SlotId) : Request :=
  .handleToFd i (s.jobs i).submit.outSyncobj

def closeRequest (s : Slots) (i : SlotId) : Request := .close i (s.jobs i).fenceFd

def pollRequest (s : Slots) (i : SlotId) (timeout : ℤ) : Request :=
  .poll i (s.jobs i).fenceFd timeout

def infoRequest (s : Slots) (i : SlotId) : Request := .fileInfo i (s.jobs i).fenceFd

/-- The logs of a submission, after the driver took the job and after the old descriptor is
closed. -/
def submitted (s : Slots) (i : SlotId) : Slots := s.tell os (s.submitRequest i)

def reclaimed (s : Slots) (i : SlotId) : Slots := (s.submitted os i).tell os (s.closeRequest i)

end Slots

def World.slots (w : World) : Slots := ⟨w.dev.jobs, w.log⟩

/-- One step of the table. The step in which a resubmission loses its descriptor is there only
if `stale` holds. -/
inductive SlotStep (os : Os) (stale : Prop) : Slots → Slots → Prop
  | synced {s : Slots} {handle flags : U32} {offset length : ℕ} :
    SlotStep os stale s (s.tell os (.gemSync handle flags offset length))
  | createFailed {s : Slots} {i : SlotId} {e : ℕ+} :
    os s.log (.syncobjCreate i) = .error e → SlotStep os stale s (s.tell os (.syncobjCreate i))
  | configured {s : Slots} {i : SlotId} {h : ℤ} {slot : JobSlot} :
    (s.jobs i).phase = .free → os s.log (.syncobjCreate i) = .ok h →
    slot.phase = .configured → slot.fenceFd = -1 → slot.submit.outSyncobj = BitVec.ofInt 32 h →
    SlotStep os stale s ((s.tell os (.syncobjCreate i)).set i slot)
  | submitFailed {s : Slots} {i : SlotId} {e : ℕ+} :
    (s.jobs i).phase ≠ .free → os s.log (s.submitRequest i) = .error e →
    SlotStep os stale s (s.submitted os i)
  | accepted {s : Slots} {i : SlotId} {v fd : ℤ} :
    (s.jobs i).phase = .configured → os s.log (s.submitRequest i) = .ok v →
    os (s.submitted os i).log (s.exportRequest i) = .ok fd →
    SlotStep os stale s (((s.submitted os i).tell os (s.exportRequest i)).set i
      { s.jobs i with phase := .submitted, fenceFd := fd })
  | unexported {s : Slots} {i : SlotId} {v : ℤ} {e : ℕ+} :
    (s.jobs i).phase = .configured → os s.log (s.submitRequest i) = .ok v →
    os (s.submitted os i).log (s.exportRequest i) = .error e →
    SlotStep os stale s (((s.submitted os i).tell os (s.exportRequest i)).set i
      { s.jobs i with phase := .submitted })
  | reclaimed {s : Slots} {i : SlotId} {v : ℤ} :
    (s.jobs i).phase = .done → os s.log (s.submitRequest i) = .ok v →
    SlotStep os stale s ((s.reclaimed os i).set i
      { s.jobs i with phase := .submitted, fenceFd := -1 })
  | exported {s : Slots} {i : SlotId} {fd : ℤ} :
    (s.jobs i).phase = .submitted → (s.jobs i).fenceFd = -1 →
    os s.log (s.exportRequest i) = .ok fd →
    SlotStep os stale s ((s.tell os (s.exportRequest i)).set i { s.jobs i with fenceFd := fd })
  | lost {s : Slots} {i : SlotId} {v : ℤ} {e : ℕ+} :
    stale → (s.jobs i).phase = .done → os s.log (s.submitRequest i) = .ok v →
    os (s.reclaimed os i).log (s.exportRequest i) = .error e →
    SlotStep os stale s (((s.reclaimed os i).tell os (s.exportRequest i)).set i
      { s.jobs i with phase := .submitted })
  | polled {s : Slots} {i : SlotId} {timeout : ℤ} :
    (s.jobs i).phase = .submitted → SlotStep os stale s (s.tell os (s.pollRequest i timeout))
  | uninspected {s : Slots} {i : SlotId} {timeout ready : ℤ} {e : ℕ+} :
    (s.jobs i).phase = .submitted → os s.log (s.pollRequest i timeout) = .ok ready → ready ≠ 0 →
    os (s.tell os (s.pollRequest i timeout)).log (s.infoRequest i) = .error e →
    SlotStep os stale s ((s.tell os (s.pollRequest i timeout)).tell os (s.infoRequest i))
  | completed {s : Slots} {i : SlotId} {timeout ready status : ℤ} :
    (s.jobs i).phase = .submitted → os s.log (s.pollRequest i timeout) = .ok ready → ready ≠ 0 →
    os (s.tell os (s.pollRequest i timeout)).log (s.infoRequest i) = .ok status →
    SlotStep os stale s (((s.tell os (s.pollRequest i timeout)).tell os (s.infoRequest i)).set i
      { s.jobs i with status, phase := .done })
  | waited {s : Slots} {i : SlotId} :
    (s.jobs i).phase = .submitted →
    SlotStep os stale s (s.tell os (.syncobjWait i (s.jobs i).submit.outSyncobj))
  | closed {s : Slots} {i : SlotId} :
    (s.jobs i).phase ≠ .free → (s.jobs i).fenceFd ≠ -1 →
    SlotStep os stale s ((s.tell os (s.closeRequest i)).set i
      { s.jobs i with phase := .submitted, fenceFd := -1 })
  | destroyed {s : Slots} {i : SlotId} :
    (s.jobs i).phase ≠ .free → (s.jobs i).fenceFd = -1 →
    SlotStep os stale s
      ((s.tell os (.syncobjDestroy i (s.jobs i).submit.outSyncobj)).set i .released)
  | emptied {s : Slots} {i : SlotId} :
    (s.jobs i).phase ≠ .free → (s.jobs i).fenceFd = -1 → (s.jobs i).submit.outSyncobj = 0 →
    SlotStep os stale s (s.set i .released)

end Strela.Lib
