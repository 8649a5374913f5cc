import Strela.Allocator.FreeList
import Strela.Allocator.Pool
import Strela.Driver.Binding
import Mathlib

/-! # The library and the system it calls

The state of one `strela_dev`, the memory of the process, and the record of the
system calls made so far with their answers. The operating system is a function
that may answer as it likes, depending on all that happened before; a call that
fails gives a nonzero `errno`.
-/

namespace Strela.Lib

open Foundation Strela.Allocator

export Strela.Driver (U32 Submit Source StridedSource)

abbrev SlotId := Fin 16

inductive SlotPhase | free | configured | submitted | done
  deriving DecidableEq, Repr

structure JobSlot where
  phase : SlotPhase
  submit : Submit
  fenceFd : ℤ
  status : ℤ

/-- `strela_job`. -/
structure JobHandle where
  valid : Bool
  handle : ℕ
  deriving DecidableEq, Repr

def JobHandle.none : JobHandle := ⟨false, 0⟩

/-- `strela_kernel`. -/
structure Kernel where
  valid : Bool
  handle : ℕ
  deriving DecidableEq, Repr

/-- `strela_buffer`. -/
structure Buffer where
  valid : Bool
  offsetWordsFromBase : ℕ
  sizeWords : ℕ
  deriving DecidableEq, Repr

/-- `strela_dev`, with the error of its `strela_res`. -/
structure Dev where
  fd : ℤ
  tensorsBoHandle : U32
  tensorsBoMap : ℕ
  kernelsBoHandle : U32
  kernelsBoMap : ℕ
  backwardCompatJob : JobHandle
  initialized : Bool
  errnum : ℤ
  kernelPool : Pool
  bufferFreeList : FreeList
  jobs : SlotId → JobSlot

/-! ## System calls -/

/-- A system call; those made for a job say for which slot. -/
inductive Request
  | gemSync (handle flags : U32) (offset length : ℕ)
  | syncobjCreate (slot : SlotId)
  | strelaSubmit (slot : SlotId) (args : Submit)
  | handleToFd (slot : SlotId) (handle : U32)
  | fileInfo (slot : SlotId) (fd : ℤ)
  | syncobjWait (slot : SlotId) (handle : U32)
  | syncobjDestroy (slot : SlotId) (handle : U32)
  | poll (slot : SlotId) (fd : ℤ) (timeout : ℤ)
  | close (slot : SlotId) (fd : ℤ)

/-- The value a call returns or fills in, or the `errno` it fails with. -/
abbrev Reply := Except ℕ+ ℤ

structure Event where
  request : Request
  reply : Reply

def Request.IsIoctl : Request → Bool
  | .poll _ _ _ | .close _ _ => false
  | _ => true

/-- How the system answers a call, given all earlier ones. -/
abbrev Os := List Event → Request → Reply

structure World where
  dev : Dev
  mem : Mem
  log : List Event

/-- `-STRELA_ERR_BAD_ARG` and `-STRELA_ERR_NO_MEM`. -/
def errBadArg : ℤ := -1

def errNoMem : ℤ := -2

namespace World

variable (w : World)

/-- `strela_dev_ok`. -/
def ok : Bool := w.dev.initialized && w.dev.errnum == 0

def setErr (e : ℤ) : World := { w with dev := { w.dev with errnum := e } }

def slot (i : SlotId) : JobSlot := w.dev.jobs i

def setSlot (i : SlotId) (s : JobSlot) : World :=
  { w with dev := { w.dev with jobs := Function.update w.dev.jobs i s } }

def ioctls : List Event := w.log.filter fun e => e.request.IsIoctl

def ask (os : Os) (r : Request) : Reply × World :=
  (os w.log r, { w with log := w.log ++ [⟨r, os w.log r⟩] })

end World

/-! ## Aborting -/

/-- What a call gives: its result or, if the program aborts, the system calls made until then. -/
abbrev Exec := Except (List Event)

variable {α β : Type}

@[simp] theorem ok_bind (a : α) (f : α → Exec β) : (.ok a : Exec α) >>= f = f a := rfl

@[simp] theorem map_ok (f : α → β) (a : α) : (.ok a : Exec α).map f = .ok (f a) := rfl

theorem bind_eq_ok {x : Exec α} {f : α → Exec β} {b : β} (h : x >>= f = .ok b) :
    ∃ a, x = .ok a ∧ f a = .ok b := by
  cases x with
  | error log => cases h
  | ok a => exact ⟨a, rfl, h⟩

theorem map_eq_ok {x : Exec α} {f : α → β} {b : β} (h : x.map f = .ok b) :
    ∃ a, x = .ok a ∧ f a = b := by
  cases x with
  | error log => cases h
  | ok a => exact ⟨a, rfl, Except.ok.inj h⟩

namespace World

def abort (w : World) : Exec α := .error w.log

def orAbort (w : World) : Option α → Exec α
  | some a => .ok a
  | none => w.abort

def askOrAbort (os : Os) (r : Request) (w : World) : Exec World :=
  match w.ask os r with
  | (.error _, w) => w.abort
  | (.ok _, w) => .ok w

end World

def strelaDevResetErr (w : World) : World := if w.dev.initialized then w.setErr 0 else w

end Strela.Lib
