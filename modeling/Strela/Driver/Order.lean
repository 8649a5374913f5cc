import Strela.Driver.Submit
import Mathlib.Data.List.Basic

/-! # The order of submissions

Two counters number the jobs. `strela_submit_ioctl` takes the number of the
hardware fence when it begins, and `drm_sched_job_arm` takes that of the finished
fence of the client's scheduler entity just before the job is queued; neither
section holds a lock until the job is in the queue. Any number of threads submit,
and the scheduler takes the first job of any client whose in-fence has signalled
whenever the device is idle. The queues of all clients are kept in one list, of
which each client's jobs are its own queue.
-/

namespace Strela.Driver

open Foundation

/-- A thread inside the ioctl, with the number of its finished fence from arming to pushing. -/
structure Submitter where
  call : SubmitCall
  number : Option ℕ

/-- A job in the queue of its client; `waiting` until its in-fence has signalled. -/
structure QueuedJob where
  file : FileId
  number : ℕ
  seqno : U64
  waiting : Bool
  deriving DecidableEq, Repr

structure Queueing where
  kernel : Kernel
  threads : List Submitter
  lastNumber : FileId → ℕ
  queue : List QueuedJob
  active : Option QueuedJob
  pushed : List (FileId × ℕ)
  finished : List (FileId × ℕ)
  signaled : List U64

inductive Action
  | enter (file : FileId) (args : Submit)
  | submit (i : ℕ) (r : Reply)
  | arm (i : ℕ)
  | push (i : ℕ)
  | memory (g : Gem)
  | inFence (i : ℕ)
  | runJob (i : ℕ)
  | phaseDone
  | timedout

/-- The ioctl has got past the look-up of the sync object, but its job is not armed. -/
def Submitter.Unarmed (t : Submitter) : Bool :=
  match t.call.pc with
  | .replaceFence _ => t.number.isNone
  | _ => false

def QueuedJob.key (q : QueuedJob) : FileId × ℕ := (q.file, q.number)

variable {w : ℕ} (objs : ObjId → GemObject w)

namespace Queueing

/-- A step of the ioctl other than arming and pushing. -/
def submit (s : Queueing) (i : ℕ) (r : Reply) : Option Queueing := do
  let t ← s.threads[i]?
  if t.call.pc = .push ∨ t.Unarmed then none
  else
    let (kernel, call) := submitStep objs s.kernel t.call r
    some { s with kernel, threads := s.threads.set i { t with call } }

/-- `drm_sched_job_arm`. -/
def arm (s : Queueing) (i : ℕ) : Option Queueing := do
  let t ← s.threads[i]?
  if t.Unarmed then
    let n := s.lastNumber t.call.file + 1
    some { s with
      lastNumber := Function.update s.lastNumber t.call.file n
      threads := s.threads.set i { t with number := some n } }
  else none

/-- `drm_sched_entity_push_job`, with which the ioctl returns. -/
def push (s : Queueing) (i : ℕ) : Option Queueing := do
  let t ← s.threads[i]?
  let n ← t.number
  if t.call.pc = .push then
    let (kernel, call) := submitStep objs s.kernel t.call ⟨none, none⟩
    some { s with
      kernel
      threads := s.threads.set i ⟨call, none⟩
      queue := s.queue ++
        [⟨t.call.file, n, t.call.job.seqno, t.call.args.flags &&& waitSyncobj ≠ 0⟩]
      pushed := s.pushed ++ [(t.call.file, n)] }
  else none

def inFence (s : Queueing) (i : ℕ) : Option Queueing := do
  let q ← s.queue[i]?
  some { s with queue := s.queue.set i { q with waiting := false } }

/-- The scheduler takes the first job of a client, once its in-fence has signalled. -/
def runJob (s : Queueing) (i : ℕ) : Option Queueing := do
  let q ← s.queue[i]?
  if s.active.isNone ∧ q.waiting = false ∧ ∀ p ∈ s.queue.take i, p.file ≠ q.file then
    some { s with queue := s.queue.eraseIdx i, active := some q }
  else none

/-- The active job leaves the device, and the scheduler signals its finished fence. -/
def retire (s : Queueing) (q : QueuedJob) : Queueing :=
  { s with active := none, finished := s.finished ++ [q.key] }

def next (s : Queueing) : Action → Option Queueing
  | .enter file args => some { s with threads := s.threads ++ [⟨.enter file args, none⟩] }
  | .submit i r => s.submit objs i r
  | .arm i => s.arm i
  | .push i => s.push objs i
  | .memory gem => some { s with kernel := { s.kernel with gem } }
  | .inFence i => s.inFence i
  | .runJob i => s.runJob i
  | .phaseDone => do
    let q ← s.active
    some { s.retire q with signaled := s.signaled ++ [q.seqno] }
  | .timedout => do
    let q ← s.active
    some (s.retire q)

def Empty (s : Queueing) : Prop :=
  s.kernel.fenceSeqno = 0 ∧ s.threads = [] ∧ s.queue = [] ∧ s.active = none ∧ s.pushed = [] ∧
    s.finished = [] ∧ s.signaled = []

def runIf (C : Queueing → Action → Prop) [∀ s a, Decidable (C s a)] (s : Queueing) :
    List Action → Option Queueing
  | [] => some s
  | a :: as => if C s a then (s.next objs a).bind fun s => s.runIf C as else none

end Queueing

def queueLts : Lts Queueing Action where
  start := Queueing.Empty
  step s a s' := s.next objs a = some s'

variable {objs} {s s' : Queueing} {a : Action}

theorem Queueing.reach_runIf {C : Queueing → Action → Prop} [∀ s a, Decidable (C s a)]
    {as : List Action} (h : s.runIf objs C as = some s')
    (hr : ((queueLts objs).restrict C).Reach s) : ((queueLts objs).restrict C).Reach s' := by
  induction as generalizing s with
  | nil =>
    obtain rfl := Option.some.inj h
    exact hr
  | cons a as ih =>
    rw [runIf] at h
    split at h
    · rename_i hc
      obtain ⟨t, ht, h⟩ := Option.bind_eq_some_iff.mp h
      exact ih h (hr.step ⟨hc, ht⟩)
    · cases h

/-! ## What a step does to the numbers -/

/-- The submit has the number of its hardware fence and has not failed. -/
def Pc.HoldsFence : Pc → Prop
  | .initSched | .inFence | .lookup _ | .check _ _ _ | .outSyncobj | .replaceFence _ | .push => True
  | _ => False

instance : DecidablePred Pc.HoldsFence
  | .initSched | .inFence | .lookup _ | .check _ _ _ | .outSyncobj | .replaceFence _ | .push =>
    .isTrue trivial
  | .start | .allocJob | .allocFence | .initFence | .unwind _ _ | .putFence _ | .free _
  | .returned _ => .isFalse id

theorem submitStep_file (objs : ObjId → GemObject w) (k : Kernel) (c : SubmitCall) (r : Reply) :
    (submitStep objs k c r).2.file = c.file := by
  unfold submitStep
  repeat' split
  all_goals rfl

theorem submitStep_fence (objs : ObjId → GemObject w) (k : Kernel) (c : SubmitCall) (r : Reply) :
    (c.pc = .initFence ∧ (submitStep objs k c r).1.fenceSeqno = k.fenceSeqno + 1 ∧
      (submitStep objs k c r).2.job.seqno = k.fenceSeqno + 1) ∨
    ((submitStep objs k c r).1.fenceSeqno = k.fenceSeqno ∧
      (submitStep objs k c r).2.job.seqno = c.job.seqno ∧
      ((submitStep objs k c r).2.pc.HoldsFence → c.pc.HoldsFence)) := by
  cases hpc : c.pc with
  | initFence => simp [submitStep, hpc]
  | lookup rest =>
    right
    refine ⟨?_, ?_, fun _ => trivial⟩ <;> cases rest <;> simp only [submitStep, hpc] <;>
      (try split) <;> rfl
  | unwind rest e =>
    right
    cases rest <;> simp [submitStep, hpc, SubmitCall.goto, Pc.HoldsFence]
  | _ =>
    right
    simp only [submitStep, hpc]
    (repeat' split) <;> simp [SubmitCall.goto, Pc.HoldsFence]

/-! ## Finished fences

What `drm_sched_job_arm` and `drm_sched_entity_push_job` do to one client's queue. -/

def numbersOf (f : FileId) (l : List (FileId × ℕ)) : List ℕ :=
  (l.filter fun p => p.1 == f).map Prod.snd

@[simp] theorem numbersOf_append (f : FileId) (l l' : List (FileId × ℕ)) :
    numbersOf f (l ++ l') = numbersOf f l ++ numbersOf f l' := by
  simp [numbersOf]

@[simp] theorem numbersOf_singleton (f : FileId) (p : FileId × ℕ) :
    numbersOf f [p] = if p.1 = f then [p.2] else [] := by
  by_cases h : p.1 = f <;> simp [numbersOf, h]

theorem mem_numbersOf_concat {f : FileId} {l : List (FileId × ℕ)} {p : FileId × ℕ} {k : ℕ} :
    k ∈ numbersOf f (l ++ [p]) ↔ k ∈ numbersOf f l ∨ p.1 = f ∧ k = p.2 := by
  by_cases h : p.1 = f <;> simp [h]

/-- A job is pushed when every other thread of its client that has armed one has a later number. -/
def InTurn (s : Queueing) : Action → Prop
  | .push i => ∀ t ∈ s.threads[i]?, ∀ u ∈ s.threads.eraseIdx i, u.call.file = t.call.file →
      ∀ n ∈ t.number, ∀ m ∈ u.number, n < m
  | _ => True

instance : ∀ s a, Decidable (InTurn s a)
  | s, .push i => inferInstanceAs (Decidable (∀ t ∈ s.threads[i]?, ∀ u ∈ s.threads.eraseIdx i, _))
  | _, .enter _ _ | _, .submit _ _ | _, .arm _ | _, .memory _ | _, .inFence _ | _, .runJob _
  | _, .phaseDone | _, .timedout => inferInstanceAs (Decidable True)

/-- Every queue is a first-in first-out queue, whatever the order of the numbers. -/
def Fifo (s : Queueing) : Prop :=
  ∀ f, numbersOf f s.finished ++ numbersOf f (s.active.toList.map QueuedJob.key) ++
    numbersOf f (s.queue.map QueuedJob.key) = numbersOf f s.pushed

/-- The numbers of a client's pushed jobs increase, and every armed one is still larger. -/
structure Numbered (s : Queueing) : Prop where
  armed : ∀ t ∈ s.threads, ∀ n ∈ t.number, n ≤ s.lastNumber t.call.file
  pushed : ∀ f, ∀ n ∈ numbersOf f s.pushed, n ≤ s.lastNumber f
  later : ∀ t ∈ s.threads, ∀ n ∈ t.number, ∀ m ∈ numbersOf t.call.file s.pushed, m < n
  sorted : ∀ f, (numbersOf f s.pushed).Pairwise (· < ·)

theorem mem_set {α : Type*} {l : List α} {i : ℕ} {x y z : α} (h : l[i]? = some x)
    (hz : z ∈ l.set i y) : z = y ∨ z ∈ l.eraseIdx i := by
  obtain ⟨hi, -⟩ := List.getElem?_eq_some_iff.mp h
  exact List.mem_cons.mp ((List.set_perm_cons_eraseIdx hi y).mem_iff.mp hz)

theorem forall_set {P : Submitter → Prop} {i : ℕ} {t u : Submitter} (h : s.threads[i]? = some t)
    (hP : ∀ v ∈ s.threads, P v) (hu : P u) : ∀ v ∈ s.threads.set i u, P v := by
  intro v hv
  rcases mem_set h hv with rfl | hv
  · exact hu
  · exact hP v (List.mem_of_mem_eraseIdx hv)

namespace Queueing

variable {i : ℕ} {r : Reply}

theorem submit_eq_some (h : s.submit objs i r = some s') : ∃ t, s.threads[i]? = some t ∧
    s' = { s with
      kernel := (submitStep objs s.kernel t.call r).1
      threads := s.threads.set i { t with call := (submitStep objs s.kernel t.call r).2 } } := by
  obtain ⟨t, ht, h⟩ := Option.bind_eq_some_iff.mp h
  split at h
  · cases h
  · exact ⟨t, ht, (Option.some.inj h).symm⟩

theorem arm_eq_some (h : s.arm i = some s') : ∃ t, s.threads[i]? = some t ∧
    s' = { s with
      lastNumber := Function.update s.lastNumber t.call.file (s.lastNumber t.call.file + 1)
      threads := s.threads.set i { t with number := some (s.lastNumber t.call.file + 1) } } := by
  obtain ⟨t, ht, h⟩ := Option.bind_eq_some_iff.mp h
  split at h
  · exact ⟨t, ht, (Option.some.inj h).symm⟩
  · cases h

theorem push_eq_some (h : s.push objs i = some s') : ∃ t n, s.threads[i]? = some t ∧
    t.number = some n ∧ t.call.pc = .push ∧
    s' = { s with
      kernel := (submitStep objs s.kernel t.call ⟨none, none⟩).1
      threads := s.threads.set i ⟨(submitStep objs s.kernel t.call ⟨none, none⟩).2, none⟩
      queue := s.queue ++
        [⟨t.call.file, n, t.call.job.seqno, t.call.args.flags &&& waitSyncobj ≠ 0⟩]
      pushed := s.pushed ++ [(t.call.file, n)] } := by
  obtain ⟨t, ht, h⟩ := Option.bind_eq_some_iff.mp h
  obtain ⟨n, hn, h⟩ := Option.bind_eq_some_iff.mp h
  split at h
  · rename_i hpc
    exact ⟨t, n, ht, hn, hpc, (Option.some.inj h).symm⟩
  · cases h

theorem inFence_eq_some (h : s.inFence i = some s') : ∃ q, s.queue[i]? = some q ∧
    s' = { s with queue := s.queue.set i { q with waiting := false } } := by
  obtain ⟨q, hq, h⟩ := Option.bind_eq_some_iff.mp h
  exact ⟨q, hq, (Option.some.inj h).symm⟩

theorem runJob_eq_some (h : s.runJob i = some s') : ∃ q, s.queue[i]? = some q ∧ s.active = none ∧
    (∀ p ∈ s.queue.take i, p.file ≠ q.file) ∧
    s' = { s with queue := s.queue.eraseIdx i, active := some q } := by
  obtain ⟨q, hq, h⟩ := Option.bind_eq_some_iff.mp h
  split at h
  · rename_i hc
    exact ⟨q, hq, Option.isNone_iff_eq_none.mp hc.1, hc.2.2, (Option.some.inj h).symm⟩
  · cases h

theorem next_retire (h : s.next objs a = some s') (ha : a = .phaseDone ∨ a = .timedout) :
    ∃ q, s.active = some q ∧ (s' = s.retire q ∨
      s' = { s.retire q with signaled := s.signaled ++ [q.seqno] }) := by
  rcases ha with rfl | rfl <;> obtain ⟨q, hq, h⟩ := Option.bind_eq_some_iff.mp h
  · exact ⟨q, hq, .inr (Option.some.inj h).symm⟩
  · exact ⟨q, hq, .inl (Option.some.inj h).symm⟩

end Queueing

open Queueing

/-- The job with the smallest armed number of its client enters the queue. -/
theorem Numbered.push {i n : ℕ} {t u : Submitter} (hs : Numbered s) (ht : s.threads[i]? = some t)
    (hn : t.number = some n) (hu : u.number = none)
    (hfirst : ∀ v ∈ s.threads.eraseIdx i, v.call.file = t.call.file → ∀ m ∈ v.number, n < m)
    {kernel : Kernel} {queue : List QueuedJob} :
    Numbered { s with
      kernel, queue
      threads := s.threads.set i u
      pushed := s.pushed ++ [(t.call.file, n)] } := by
  have hm := List.mem_of_getElem? ht
  constructor
  case armed => exact forall_set ht hs.armed (by simp [hu])
  case pushed =>
    intro f k hk
    rcases mem_numbersOf_concat.mp hk with hk | ⟨rfl, rfl⟩
    · exact hs.pushed f k hk
    · exact hs.armed t hm _ hn
  case later =>
    intro v hv k hk m hmem
    rcases mem_set ht hv with rfl | hother
    · rw [hu] at hk
      cases hk
    rcases mem_numbersOf_concat.mp hmem with hmem | ⟨hf, rfl⟩
    · exact hs.later v (List.mem_of_mem_eraseIdx hother) k hk m hmem
    · exact hfirst v hother hf.symm k hk
  case sorted =>
    intro f
    rw [numbersOf_append, numbersOf_singleton]
    split
    · rename_i hf
      refine List.pairwise_append.mpr ⟨hs.sorted f, List.pairwise_singleton _ _, ?_⟩
      intro m hmem k hk
      obtain rfl := List.mem_singleton.mp hk
      subst hf
      exact hs.later t hm _ hn m hmem
    · simpa using hs.sorted f

theorem Numbered.step (hs : Numbered s) (hc : InTurn s a) (h : s.next objs a = some s') :
    Numbered s' := by
  cases a with
  | enter file args =>
    obtain rfl := Option.some.inj h
    have old {P : Submitter → Prop} (hP : ∀ t ∈ s.threads, P t) (hn : P ⟨.enter file args, none⟩) :
        ∀ t ∈ s.threads ++ [⟨.enter file args, none⟩], P t := by
      simpa [or_imp, forall_and] using ⟨hP, hn⟩
    exact ⟨old hs.armed (by simp), hs.pushed, old hs.later (by simp), hs.sorted⟩
  | submit i r =>
    obtain ⟨t, ht, rfl⟩ := submit_eq_some h
    have hm := List.mem_of_getElem? ht
    have hfile := submitStep_file objs s.kernel t.call r
    refine ⟨forall_set ht hs.armed ?_, hs.pushed, forall_set ht hs.later ?_, hs.sorted⟩
    · simpa only [hfile] using hs.armed t hm
    · simpa only [hfile] using hs.later t hm
  | arm i =>
    obtain ⟨t, ht, rfl⟩ := arm_eq_some h
    have hle (f : FileId) : s.lastNumber f ≤
        Function.update s.lastNumber t.call.file (s.lastNumber t.call.file + 1) f := by
      by_cases hf : f = t.call.file
      · subst hf
        simp
      · simp [Function.update_of_ne hf]
    refine ⟨forall_set ht (fun u hu n hn => (hs.armed u hu n hn).trans (hle _)) ?_,
      fun f n hn => (hs.pushed f n hn).trans (hle f), forall_set ht hs.later ?_, hs.sorted⟩
    · simp
    · intro n hn m hmem
      obtain rfl := Option.some.inj hn
      exact Nat.lt_succ_of_le (hs.pushed _ m hmem)
  | push i =>
    obtain ⟨t, n, ht, hn, -, rfl⟩ := push_eq_some h
    exact hs.push ht hn rfl fun u hu hf m hm => hc t ht u hu hf n hn m hm
  | memory g =>
    obtain rfl := Option.some.inj h
    exact ⟨hs.armed, hs.pushed, hs.later, hs.sorted⟩
  | inFence i =>
    obtain ⟨q, -, rfl⟩ := inFence_eq_some h
    exact ⟨hs.armed, hs.pushed, hs.later, hs.sorted⟩
  | runJob i =>
    obtain ⟨q, -, -, -, rfl⟩ := runJob_eq_some h
    exact ⟨hs.armed, hs.pushed, hs.later, hs.sorted⟩
  | phaseDone =>
    obtain ⟨q, -, rfl | rfl⟩ := next_retire h (.inl rfl) <;>
      exact ⟨hs.armed, hs.pushed, hs.later, hs.sorted⟩
  | timedout =>
    obtain ⟨q, -, rfl | rfl⟩ := next_retire h (.inr rfl) <;>
      exact ⟨hs.armed, hs.pushed, hs.later, hs.sorted⟩

/-- Taking the first job of one client out of the queue leaves the order of every client's jobs. -/
theorem numbersOf_eraseIdx (f : FileId) {l : List QueuedJob} {i : ℕ} {q : QueuedJob}
    (hq : l[i]? = some q) (hfirst : ∀ p ∈ l.take i, p.file ≠ q.file) :
    numbersOf f (l.map QueuedJob.key) =
      numbersOf f [q.key] ++ numbersOf f ((l.eraseIdx i).map QueuedJob.key) := by
  induction l generalizing i with
  | nil => cases hq
  | cons p l ih =>
    cases i with
    | zero =>
      obtain rfl := Option.some.inj hq
      exact numbersOf_append f [p.key] (l.map QueuedJob.key)
    | succ i =>
      rw [List.take_succ_cons, List.forall_mem_cons] at hfirst
      have hcomm : numbersOf f [p.key] ++ numbersOf f [q.key] =
          numbersOf f [q.key] ++ numbersOf f [p.key] := by
        simp only [numbersOf_singleton, QueuedJob.key]
        split
        · rename_i hf
          simp [← hf, hfirst.1.symm]
        · simp
      calc numbersOf f ((p :: l).map QueuedJob.key)
          = numbersOf f [p.key] ++ numbersOf f (l.map QueuedJob.key) := numbersOf_append f [p.key] _
        _ = numbersOf f [q.key] ++ (numbersOf f [p.key] ++
              numbersOf f ((l.eraseIdx i).map QueuedJob.key)) := by
            rw [ih hq hfirst.2, ← List.append_assoc, hcomm, List.append_assoc]
        _ = numbersOf f [q.key] ++ numbersOf f (((p :: l).eraseIdx (i + 1)).map QueuedJob.key) :=
            congrArg (_ ++ ·) (numbersOf_append f [p.key] _).symm

theorem Fifo.retire {q : QueuedJob} (hs : Fifo s) (hq : s.active = some q) : Fifo (s.retire q) := by
  intro f
  have hf := hs f
  rw [hq] at hf
  simpa [Queueing.retire, numbersOf] using hf

theorem Fifo.step (hs : Fifo s) (h : s.next objs a = some s') : Fifo s' := by
  cases a with
  | enter file args =>
    obtain rfl := Option.some.inj h
    exact hs
  | submit i r =>
    obtain ⟨t, -, rfl⟩ := submit_eq_some h
    exact hs
  | arm i =>
    obtain ⟨t, -, rfl⟩ := arm_eq_some h
    exact hs
  | push i =>
    obtain ⟨t, n, -, -, -, rfl⟩ := push_eq_some h
    intro f
    simp only [List.map_append, numbersOf_append, ← hs f, List.append_assoc]
    rfl
  | memory g =>
    obtain rfl := Option.some.inj h
    exact hs
  | inFence i =>
    obtain ⟨q, hq, rfl⟩ := inFence_eq_some h
    have hkeys : (s.queue.set i { q with waiting := false }).map QueuedJob.key =
        s.queue.map QueuedJob.key := by
      obtain ⟨hi, rfl⟩ := List.getElem?_eq_some_iff.mp hq
      have hi' : i < (s.queue.map QueuedJob.key).length := by simpa using hi
      simpa [List.map_set, QueuedJob.key] using List.set_getElem_self hi'
    intro f
    rw [← hs f, hkeys]
  | runJob i =>
    obtain ⟨q, hq, hidle, hfirst, rfl⟩ := runJob_eq_some h
    intro f
    rw [← hs f, hidle, numbersOf_eraseIdx f hq hfirst]
    simp [numbersOf]
  | phaseDone =>
    obtain ⟨q, hq, rfl | rfl⟩ := next_retire h (.inl rfl) <;> exact hs.retire hq
  | timedout =>
    obtain ⟨q, hq, rfl | rfl⟩ := next_retire h (.inr rfl) <;> exact hs.retire hq

theorem fifo_of_reach (h : (queueLts objs).Reach s) : Fifo s := by
  apply h.invariant
  · rintro s ⟨-, -, hq, ha, hp, hf, -⟩ f
    simp [hq, ha, hp, hf, numbersOf]
  · intro s a s' _ hs hstep
    exact hs.step hstep

theorem numbered_of_reach (h : ((queueLts objs).restrict InTurn).Reach s) : Numbered s := by
  apply h.invariant
  · rintro s ⟨-, ht, -, -, hp, -, -⟩
    constructor <;> simp [ht, hp, numbersOf]
  · rintro s a s' - hs ⟨hc, hstep⟩
    exact hs.step hc hstep

/-- The jobs of one client enter its queue in the order in which they were armed, and their
finished fences signal in that order, if every job is pushed in its turn. -/
theorem numbers_increase (h : ((queueLts objs).restrict InTurn).Reach s) (f : FileId) :
    (numbersOf f s.pushed).Pairwise (· < ·) ∧ (numbersOf f s.finished).Pairwise (· < ·) := by
  have hsorted := (numbered_of_reach h).sorted f
  refine ⟨hsorted, hsorted.sublist ?_⟩
  rw [← fifo_of_reach h.of_restrict f, List.append_assoc]
  exact List.sublist_append_left _ _

/-! ## Two clients -/

/-- One buffer of 64 bytes, open in two clients under the same handle. -/
def sharedObjs : ObjId → GemObject 32 := fun _ => ⟨64, 0x1000⟩

def idleQueue : Queueing where
  kernel := ⟨⟨[((0, 1), 0), ((1, 1), 0)], [0], fun _ => 2, []⟩, [], fun _ => none, 0⟩
  threads := []
  lastNumber := fun _ => 0
  queue := []
  active := none
  pushed := []
  finished := []
  signaled := []

theorem idleQueue_empty : idleQueue.Empty := ⟨rfl, rfl, rfl, rfl, rfl, rfl, rfl⟩

def wholeSubmit (flags : U32) : Submit :=
  ⟨⟨1, 0, 16⟩, fun _ => ⟨1, 0, 16, 1⟩, fun _ => ⟨1, 0, 16⟩, 1, flags, 1, 0⟩

def enterAndArm (i : ℕ) (file : FileId) (flags : U32) : List Action :=
  .enter file (wholeSubmit flags) :: List.replicate 26 (.submit i ⟨none, some 0⟩) ++
    [.arm i, .submit i ⟨none, some 0⟩]

theorem numbers_increase_twoThreads : ∃ s, ((queueLts sharedObjs).restrict InTurn).Reach s ∧
    numbersOf 0 s.pushed = [1, 2] ∧ numbersOf 0 s.finished = [1, 2] ∧
    (numbersOf 0 s.finished).Pairwise (· < ·) := by
  let run := idleQueue.runIf sharedObjs InTurn (enterAndArm 0 0 0 ++ enterAndArm 1 0 0 ++
    [.push 0, .push 1, .runJob 0, .phaseDone, .runJob 0, .phaseDone])
  have hrun : run.map (fun s => (numbersOf 0 s.pushed, numbersOf 0 s.finished)) =
      some ([1, 2], [1, 2]) := by decide +kernel
  obtain ⟨s, hs, heq⟩ := Option.map_eq_some_iff.mp hrun
  have hr := reach_runIf hs (.start idleQueue_empty)
  simp only [Prod.mk.injEq] at heq
  exact ⟨s, hr, heq.1, heq.2, (numbers_increase hr 0).2⟩

/-- Of two threads on one open file, the one whose job was armed last pushes first. -/
theorem not_numbers_increase : ¬ ∀ s, (queueLts sharedObjs).Reach s → ∀ f,
    (numbersOf f s.pushed).Pairwise (· < ·) ∧ (numbersOf f s.finished).Pairwise (· < ·) := by
  intro h
  let run := idleQueue.runIf sharedObjs (fun _ _ => True) (enterAndArm 0 0 0 ++ enterAndArm 1 0 0 ++
    [.push 1, .push 0, .runJob 0, .phaseDone, .runJob 0, .phaseDone])
  have hrun : run.map (fun s => numbersOf 0 s.finished) = some [2, 1] := by decide +kernel
  obtain ⟨s, hs, heq⟩ := Option.map_eq_some_iff.mp hrun
  have hr := reach_runIf hs (.start idleQueue_empty)
  have hsorted := (h s hr.of_restrict 0).2
  rw [heq] at hsorted
  simp at hsorted

/-! ## Hardware fences

All of them are in one fence context, whatever client they are for. -/

namespace Queueing

/-- The numbers of the hardware fences that have signalled and of the one on the device. -/
def taken (s : Queueing) : List U64 := s.signaled ++ s.active.toList.map QueuedJob.seqno

def outstanding (s : Queueing) : List U64 :=
  s.queue.map QueuedJob.seqno ++
    (s.threads.filter fun t => t.call.pc.HoldsFence).map fun t => t.call.job.seqno

def Ahead (s : Queueing) (n : U64) : Prop := ∀ m ∈ s.outstanding, n < m

instance (s : Queueing) (n : U64) : Decidable (s.Ahead n) := List.decidableBAll _ _

theorem mem_outstanding {n : U64} : n ∈ s.outstanding ↔ (∃ q ∈ s.queue, q.seqno = n) ∨
    ∃ t ∈ s.threads, t.call.pc.HoldsFence ∧ t.call.job.seqno = n := by
  simp [outstanding, and_assoc]

theorem queued_outstanding {q : QueuedJob} (hq : q ∈ s.queue) : q.seqno ∈ s.outstanding :=
  mem_outstanding.mpr (.inl ⟨q, hq, rfl⟩)

theorem held_outstanding {t : Submitter} (ht : t ∈ s.threads) (hpc : t.call.pc.HoldsFence) :
    t.call.job.seqno ∈ s.outstanding :=
  mem_outstanding.mpr (.inr ⟨t, ht, hpc, rfl⟩)

theorem outstanding_subset (hq : ∀ q ∈ s'.queue, q.seqno ∈ s.outstanding)
    (ht : ∀ t ∈ s'.threads, t.call.pc.HoldsFence → t.call.job.seqno ∈ s.outstanding) :
    s'.outstanding ⊆ s.outstanding := by
  intro n hn
  rcases mem_outstanding.mp hn with ⟨q, hmem, rfl⟩ | ⟨t, hmem, hpc, rfl⟩
  · exact hq q hmem
  · exact ht t hmem hpc

end Queueing

/-- The job taken to the device has the smallest number of those on their way there, and the
counter does not come round to zero. -/
def InOrder (s : Queueing) : Action → Prop
  | .runJob i => ∀ q ∈ s.queue[i]?, { s with queue := s.queue.eraseIdx i }.Ahead q.seqno
  | .submit i _ => ∀ t ∈ s.threads[i]?, t.call.pc = .initFence → s.kernel.fenceSeqno + 1 ≠ 0
  | _ => True

instance : ∀ s a, Decidable (InOrder s a)
  | s, .runJob i => inferInstanceAs (Decidable (∀ q ∈ s.queue[i]?, Ahead _ q.seqno))
  | s, .submit i _ => inferInstanceAs (Decidable (∀ t ∈ s.threads[i]?, t.call.pc = .initFence →
      s.kernel.fenceSeqno + 1 ≠ 0))
  | _, .enter _ _ | _, .push _ | _, .arm _ | _, .memory _ | _, .inFence _ | _, .phaseDone
  | _, .timedout => inferInstanceAs (Decidable True)

/-- The jobs that got to the device did so in the order of their numbers, and ahead of all those
still on their way. -/
structure Ordered (s : Queueing) : Prop where
  ran : s.taken.Pairwise (· < ·)
  later : ∀ n ∈ s.taken, s.Ahead n
  last : ∀ n ∈ s.taken ++ s.outstanding, n ≤ s.kernel.fenceSeqno

theorem Ordered.of_subset (hs : Ordered s) (ht : s'.taken.Sublist s.taken)
    (ho : s'.outstanding ⊆ s.outstanding) (hk : s'.kernel.fenceSeqno = s.kernel.fenceSeqno) :
    Ordered s' := by
  refine ⟨hs.ran.sublist ht, fun n hn m hm => hs.later n (ht.subset hn) m (ho hm), fun n hn => ?_⟩
  rw [hk]
  apply hs.last n
  rcases List.mem_append.mp hn with hn | hn
  · exact List.mem_append_left _ (ht.subset hn)
  · exact List.mem_append_right _ (ho hn)

theorem outstanding_set {i : ℕ} {t u : Submitter} (ht : s.threads[i]? = some t)
    (hseq : u.call.job.seqno = t.call.job.seqno)
    (hold : u.call.pc.HoldsFence → t.call.pc.HoldsFence) :
    { s with threads := s.threads.set i u }.outstanding ⊆ s.outstanding := by
  refine outstanding_subset (fun q hq => queued_outstanding hq) fun v hv hpc => ?_
  rcases mem_set ht hv with rfl | hv
  · rw [hseq]
    exact held_outstanding (List.mem_of_getElem? ht) (hold hpc)
  · exact held_outstanding (List.mem_of_mem_eraseIdx hv) hpc

/-- The step of `strela_submit_ioctl` that takes a number. -/
theorem Ordered.initFence {i : ℕ} {t u : Submitter} (hs : Ordered s) (ht : s.threads[i]? = some t)
    {k : Kernel} (hk : k.fenceSeqno = s.kernel.fenceSeqno + 1)
    (hseq : u.call.job.seqno = s.kernel.fenceSeqno + 1) (hwrap : s.kernel.fenceSeqno + 1 ≠ 0) :
    Ordered { s with kernel := k, threads := s.threads.set i u } := by
  have hlt {n : U64} (hn : n ∈ s.taken ++ s.outstanding) : n < s.kernel.fenceSeqno + 1 := by
    have := hs.last n hn
    bv_omega
  have hnew {n : U64}
      (hn : n ∈ { s with kernel := k, threads := s.threads.set i u }.outstanding) :
      n = s.kernel.fenceSeqno + 1 ∨ n ∈ s.outstanding := by
    rcases mem_outstanding.mp hn with ⟨q, hq, rfl⟩ | ⟨v, hv, hpc, rfl⟩
    · exact .inr (queued_outstanding hq)
    · rcases mem_set ht hv with rfl | hv
      · exact .inl hseq
      · exact .inr (held_outstanding (List.mem_of_mem_eraseIdx hv) hpc)
  refine ⟨hs.ran, fun n hn m hm => ?_, fun n hn => ?_⟩
  · rcases hnew hm with rfl | hm
    · exact hlt (List.mem_append_left _ hn)
    · exact hs.later n hn m hm
  · change n ≤ k.fenceSeqno
    rw [hk]
    rcases List.mem_append.mp hn with hn | hn
    · exact BitVec.le_of_lt (hlt (List.mem_append_left _ hn))
    · rcases hnew hn with rfl | hn
      · exact BitVec.le_refl _
      · exact BitVec.le_of_lt (hlt (List.mem_append_right _ hn))

theorem Ordered.runJob {i : ℕ} {q : QueuedJob} (hs : Ordered s) (hq : s.queue[i]? = some q)
    (hidle : s.active = none) (hfirst : { s with queue := s.queue.eraseIdx i }.Ahead q.seqno) :
    Ordered { s with queue := s.queue.eraseIdx i, active := some q } := by
  have hmine : q.seqno ∈ s.outstanding := queued_outstanding (List.mem_of_getElem? hq)
  have hsub : { s with queue := s.queue.eraseIdx i, active := some q }.outstanding ⊆
      s.outstanding :=
    outstanding_subset (fun p hp => queued_outstanding (List.mem_of_mem_eraseIdx hp))
      fun t ht hpc => held_outstanding ht hpc
  have htaken : s.taken = s.signaled := by simp [taken, hidle]
  have hmem {n : U64} (hn : n ∈ s.signaled ++ [q.seqno]) : n ∈ s.taken ∨ n = q.seqno := by
    simpa [htaken] using hn
  constructor
  case ran =>
    refine List.pairwise_append.mpr ⟨htaken ▸ hs.ran, List.pairwise_singleton _ _, ?_⟩
    intro n hn m hm
    obtain rfl := List.mem_singleton.mp hm
    exact hs.later n (htaken ▸ hn) _ hmine
  case later =>
    intro n hn m hm
    rcases hmem hn with hn | rfl
    · exact hs.later n hn m (hsub hm)
    · exact hfirst m hm
  case last =>
    intro n hn
    rcases List.mem_append.mp hn with hn | hn
    · rcases hmem hn with hn | rfl
      · exact hs.last n (List.mem_append_left _ hn)
      · exact hs.last _ (List.mem_append_right _ hmine)
    · exact hs.last n (List.mem_append_right _ (hsub hn))

theorem Ordered.step (hs : Ordered s) (hc : InOrder s a) (h : s.next objs a = some s') :
    Ordered s' := by
  cases a with
  | enter file args =>
    obtain rfl := Option.some.inj h
    refine hs.of_subset (List.Sublist.refl _) ?_ rfl
    refine outstanding_subset (fun q hq => queued_outstanding hq) fun t ht hpc => ?_
    rcases List.mem_append.mp ht with ht | ht
    · exact held_outstanding ht hpc
    · obtain rfl := List.mem_singleton.mp ht
      exact hpc.elim
  | submit i r =>
    obtain ⟨t, ht, rfl⟩ := submit_eq_some h
    rcases submitStep_fence objs s.kernel t.call r with ⟨hpc, hk, hseq⟩ | ⟨hk, hseq, hold⟩
    · exact hs.initFence ht hk hseq (hc t ht hpc)
    · exact hs.of_subset (List.Sublist.refl _) (outstanding_set ht hseq hold) hk
  | arm i =>
    obtain ⟨t, ht, rfl⟩ := arm_eq_some h
    exact hs.of_subset (List.Sublist.refl _) (outstanding_set ht rfl id) rfl
  | push i =>
    obtain ⟨t, n, ht, -, hpc, rfl⟩ := push_eq_some h
    have hstep : submitStep objs s.kernel t.call ⟨none, none⟩ =
        ({ s.kernel with jobs := t.call.job :: s.kernel.jobs },
          t.call.goto (.returned (.ok ()))) := by
      simp [submitStep, hpc]
    rw [hstep]
    refine hs.of_subset (List.Sublist.refl _) ?_ rfl
    refine outstanding_subset (fun q hq => ?_) fun u hu hupc => ?_
    · rcases List.mem_append.mp hq with hq | hq
      · exact queued_outstanding hq
      · obtain rfl := List.mem_singleton.mp hq
        exact held_outstanding (List.mem_of_getElem? ht) (by rw [hpc]; trivial)
    · rcases mem_set ht hu with rfl | hu
      · exact hupc.elim
      · exact held_outstanding (List.mem_of_mem_eraseIdx hu) hupc
  | memory g =>
    obtain rfl := Option.some.inj h
    exact hs.of_subset (List.Sublist.refl _) (List.Subset.refl _) rfl
  | inFence i =>
    obtain ⟨q, hq, rfl⟩ := inFence_eq_some h
    refine hs.of_subset (List.Sublist.refl _) ?_ rfl
    refine outstanding_subset (fun p hp => ?_) fun t ht hpc => held_outstanding ht hpc
    rcases mem_set hq hp with rfl | hp
    · have hmem := queued_outstanding (List.mem_of_getElem? hq)
      exact hmem
    · exact queued_outstanding (List.mem_of_mem_eraseIdx hp)
  | runJob i =>
    obtain ⟨q, hq, hidle, -, rfl⟩ := runJob_eq_some h
    exact hs.runJob hq hidle (hc q hq)
  | phaseDone =>
    obtain ⟨q, hq, h⟩ := Option.bind_eq_some_iff.mp h
    obtain rfl := Option.some.inj h
    exact hs.of_subset (by simp [taken, retire, hq]) (List.Subset.refl _) rfl
  | timedout =>
    obtain ⟨q, hq, h⟩ := Option.bind_eq_some_iff.mp h
    obtain rfl := Option.some.inj h
    exact hs.of_subset (by simp [taken, retire, hq]) (List.Subset.refl _) rfl

theorem ordered_of_reach (h : ((queueLts objs).restrict InOrder).Reach s) : Ordered s := by
  apply h.invariant
  · rintro s ⟨-, ht, hq, ha, -, -, hs⟩
    constructor <;> simp [taken, outstanding, ht, hq, ha, hs]
  · rintro s a s' - hs ⟨hc, hstep⟩
    exact hs.step hc hstep

/-- The hardware fences signal in the order of their numbers, if the scheduler takes the jobs to
the device in that order. -/
theorem signaled_increase (h : ((queueLts objs).restrict InOrder).Reach s) :
    s.signaled.Pairwise (· < ·) :=
  (ordered_of_reach h).ran.sublist (List.sublist_append_left _ _)

theorem signaled_increase_twoClients : ∃ s, ((queueLts sharedObjs).restrict InOrder).Reach s ∧
    s.signaled = [1, 2] ∧ s.signaled.Pairwise (· < ·) := by
  let run := idleQueue.runIf sharedObjs InOrder
    (enterAndArm 0 0 waitSyncobj ++ enterAndArm 1 1 0 ++
      [.push 0, .push 1, .inFence 0, .runJob 0, .phaseDone, .runJob 0, .phaseDone])
  have hrun : run.map Queueing.signaled = some [1, 2] := by decide +kernel
  obtain ⟨s, hs, heq⟩ := Option.map_eq_some_iff.mp hrun
  have hr := reach_runIf hs (.start idleQueue_empty)
  exact ⟨s, hr, heq, signaled_increase hr⟩

/-- The first client's job waits for its in-fence while the second client's runs. -/
theorem not_signaled_increase : ¬ ∀ s, (queueLts sharedObjs).Reach s →
    s.signaled.Pairwise (· < ·) := by
  intro h
  let run := idleQueue.runIf sharedObjs (fun _ _ => True)
    (enterAndArm 0 0 waitSyncobj ++ enterAndArm 1 1 0 ++
      [.push 0, .push 1, .runJob 1, .phaseDone, .inFence 0, .runJob 0, .phaseDone])
  have hrun : run.map Queueing.signaled = some [2, 1] := by decide +kernel
  obtain ⟨s, hs, heq⟩ := Option.map_eq_some_iff.mp hrun
  have hr := reach_runIf hs (.start idleQueue_empty)
  have hsorted := h s hr.of_restrict
  rw [heq] at hsorted
  simp at hsorted

end Strela.Driver
