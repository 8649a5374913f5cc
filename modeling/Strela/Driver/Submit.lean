import Strela.Driver.Binding
import Strela.Foundation.Transition

/-! # Submitting and freeing jobs

`strela_submit_ioctl` as the steps it takes on what it shares with other callers,
each with the answer the kernel gives it, through both unwind labels. Any number
of submits, creations, closes and releases of jobs interleave step by step.
-/

namespace Strela.Driver

open Foundation

abbrev SyncId := ℕ

structure Job where
  buffers : Buffers
  seqno : U64

/-- What the ioctls share: the buffer objects, the jobs pushed to the scheduler and not yet freed,
the fence in each sync object, and the number of the last hardware fence. -/
structure Kernel where
  gem : Gem
  jobs : List Job
  fences : SyncId → Option U64
  fenceSeqno : U64

/-- Where a submit stands, named by what it does next. -/
inductive Pc
  | start
  | allocJob
  | allocFence
  | initFence
  | initSched
  | inFence
  | lookup (rest : List Slot)
  | check (slot : Slot) (rest : List Slot) (obj : ObjId)
  | outSyncobj
  | replaceFence (sync : SyncId)
  | push
  | unwind (rest : List Slot) (e : Errno)
  | putFence (e : Errno)
  | free (e : Errno)
  | returned (result : Except Errno Unit)
  deriving DecidableEq

structure SubmitCall where
  file : FileId
  args : Submit
  job : Job
  pc : Pc

/-- The answer to whatever a step asks of the rest of the kernel: an allocation, the scheduler, the
look-up of a sync object. -/
structure Reply where
  error : Option Errno
  syncobj : Option SyncId

def waitSyncobj : U32 := 1

namespace SubmitCall

def enter (file : FileId) (args : Submit) : SubmitCall := ⟨file, args, ⟨.zero, 0⟩, .start⟩

def goto (c : SubmitCall) (pc : Pc) : SubmitCall := { c with pc }

end SubmitCall

def Buffers.bind (b : Buffers) (s : Slot) (src : StridedSource) (o : ObjId) : Buffers :=
  let b := b.set s ⟨some o, src.offset, src.count⟩
  match s with
  | .input i => { b with inputStrides := Function.update b.inputStrides i src.stride }
  | _ => b

variable {w : ℕ} (objs : ObjId → GemObject w)

def submitStep (k : Kernel) (c : SubmitCall) (r : Reply) : Kernel × SubmitCall :=
  match c.pc with
  | .start =>
    if c.args.flags &&& ~~~ waitSyncobj ≠ 0 ∨ c.args.pad ≠ 0 then
      (k, c.goto (.returned (.error .einval)))
    else (k, c.goto .allocJob)
  | .allocJob =>
    if r.error.isSome then (k, c.goto (.returned (.error .enomem))) else (k, c.goto .allocFence)
  | .allocFence =>
    if r.error.isSome then (k, c.goto (.free .enomem)) else (k, c.goto .initFence)
  | .initFence =>
    ({ k with fenceSeqno := k.fenceSeqno + 1 },
      { c with job := { c.job with seqno := k.fenceSeqno + 1 }, pc := .initSched })
  | .initSched =>
    match r.error with
    | some e => (k, c.goto (.putFence e))
    | none => (k, c.goto .inFence)
  | .inFence =>
    if c.args.flags &&& waitSyncobj ≠ 0 then
      match r.error with
      | some e => (k, c.goto (.unwind slots e))
      | none => (k, c.goto (.lookup slots))
    else (k, c.goto (.lookup slots))
  | .lookup [] => (k, c.goto .outSyncobj)
  | .lookup (s :: rest) =>
    match k.gem.lookup c.file (c.args.source s).handle with
    | (none, gem) => ({ k with gem }, c.goto (.unwind slots .enoent))
    | (some o, gem) => ({ k with gem }, c.goto (.check s rest o))
  | .check s rest o =>
    match strelaBindingCheck (objs o).size (c.args.source s) with
    | .error e => ({ k with gem := k.gem.put (some o) }, c.goto (.unwind slots e))
    | .ok () =>
      (k, { c with
        job := { c.job with buffers := c.job.buffers.bind s (c.args.source s) o }
        pc := .lookup rest })
  | .outSyncobj =>
    match r.syncobj with
    | none => (k, c.goto (.unwind slots .enoent))
    | some y => (k, c.goto (.replaceFence y))
  | .replaceFence y =>
    ({ k with fences := Function.update k.fences y (some c.job.seqno) }, c.goto .push)
  | .push => ({ k with jobs := c.job :: k.jobs }, c.goto (.returned (.ok ())))
  | .unwind (s :: rest) e =>
    ({ k with gem := k.gem.put (c.job.buffers.get s).obj }, c.goto (.unwind rest e))
  | .unwind [] e => (k, c.goto (.putFence e))
  | .putFence e => (k, c.goto (.free e))
  | .free e => (k, c.goto (.returned (.error e)))
  | .returned _ => (k, c)

/-! ## Interleavings -/

/-- A call in progress. `GEM_NEW` holds the object it created until it returns, and
`strela_free_job` drops the references of its job one by one. -/
inductive Call
  | submit (c : SubmitCall)
  | gemNew (obj : ObjId)
  | freeJob (job : Job) (rest : List Slot)

structure System where
  kernel : Kernel
  calls : List Call

inductive Label
  | gemNew (file : FileId) (handle : U32) (obj : ObjId)
  | gemNewReturn (obj : ObjId)
  | gemNewFail (obj : ObjId)
  | gemClose (file : FileId) (handle : U32)
  | enter (file : FileId) (args : Submit)
  | submit (c : SubmitCall) (r : Reply)
  | freeJob (job : Job)
  | freePut (job : Job) (slot : Slot)
  | freeReturn (job : Job)

namespace Gem

/-- A new object with a handle, referenced by the handle and by the call that made it. -/
def create (g : Gem) (file : FileId) (handle : U32) (o : ObjId) : Gem :=
  { g with
    handles := ((file, handle), o) :: g.handles
    objects := o :: g.objects
    refs := Function.update g.refs o 2 }

/-- A new object that got no handle and is released again. -/
def createFail (g : Gem) (o : ObjId) : Gem :=
  { g with objects := o :: g.objects, released := o :: g.released }

def close (g : Gem) (file : FileId) (handle : U32) : Gem :=
  { g with handles := g.handles.eraseP fun h => h.1 == (file, handle) }.put
    (g.handles.lookup (file, handle))

end Gem

inductive SystemStep : System → Label → System → Prop
  | gemNew {k : Kernel} {cs : List Call} {file : FileId} {handle : U32} {o : ObjId} :
      k.gem.handles.lookup (file, handle) = none → o ∉ k.gem.objects →
      SystemStep ⟨k, cs⟩ (.gemNew file handle o)
        ⟨{ k with gem := k.gem.create file handle o }, .gemNew o :: cs⟩
  | gemNewReturn {k : Kernel} {pre post : List Call} {o : ObjId} :
      SystemStep ⟨k, pre ++ .gemNew o :: post⟩ (.gemNewReturn o)
        ⟨{ k with gem := k.gem.put (some o) }, pre ++ post⟩
  | gemNewFail {k : Kernel} {cs : List Call} {o : ObjId} : o ∉ k.gem.objects →
      SystemStep ⟨k, cs⟩ (.gemNewFail o) ⟨{ k with gem := k.gem.createFail o }, cs⟩
  | gemClose {k : Kernel} {cs : List Call} {file : FileId} {handle : U32} :
      SystemStep ⟨k, cs⟩ (.gemClose file handle) ⟨{ k with gem := k.gem.close file handle }, cs⟩
  | enter {k : Kernel} {cs : List Call} {file : FileId} {args : Submit} :
      SystemStep ⟨k, cs⟩ (.enter file args) ⟨k, .submit (.enter file args) :: cs⟩
  | submit {k : Kernel} {pre post : List Call} {c : SubmitCall} {r : Reply} :
      SystemStep ⟨k, pre ++ .submit c :: post⟩ (.submit c r)
        ⟨(submitStep objs k c r).1, pre ++ .submit (submitStep objs k c r).2 :: post⟩
  | freeJob {k : Kernel} {cs : List Call} {pre post : List Job} {j : Job} :
      k.jobs = pre ++ j :: post →
      SystemStep ⟨k, cs⟩ (.freeJob j) ⟨{ k with jobs := pre ++ post }, .freeJob j slots :: cs⟩
  | freePut {k : Kernel} {pre post : List Call} {j : Job} {s : Slot} {rest : List Slot} :
      SystemStep ⟨k, pre ++ .freeJob j (s :: rest) :: post⟩ (.freePut j s)
        ⟨{ k with gem := k.gem.put (j.buffers.get s).obj }, pre ++ .freeJob j rest :: post⟩
  | freeReturn {k : Kernel} {pre post : List Call} {j : Job} :
      SystemStep ⟨k, pre ++ .freeJob j [] :: post⟩ (.freeReturn j) ⟨k, pre ++ post⟩

/-- The driver from its probe on, when there is nothing yet but sync objects. -/
def kernelLts : Lts System Label where
  start s := s.kernel.gem = ⟨[], [], fun _ => 0, []⟩ ∧ s.kernel.jobs = [] ∧ s.calls = []
  step := SystemStep objs

end Strela.Driver
