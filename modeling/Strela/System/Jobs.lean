import Strela.Driver.Simulator
import Strela.Foundation.Deferred
import Strela.Lib.Execute
import Strela.Lib.Quiet
import Strela.System.Coherence

/-! # Jobs in the background

A submit returns before its job has run, and jobs run one after the other while the
client goes on: it configures and submits more of them, takes and releases buffers,
writes those that no job in the driver uses. A job may also be cut short by its
timeout. All of this looks to the client like a store of buffers in which each job
is done, as far as it gets, at the moment it is submitted: whatever becomes of the
jobs still in the driver, the store has a run with the same buffers, the same bytes
in them and the same results.
-/

namespace Strela.System

open Foundation Foundation.Unsigned Strela.Allocator Strela.Lib
open scoped List

variable {A : Abi} {v : ℕ} (M : Mapping A) (T : Tensors v) (os : Os)

/-! ## What a configuration asks for -/

/-- Column `i` of a configuration, over the addresses of the process. -/
def confGather (conf : Conf) (i : Fin 4) : Gather where
  size := wordSize
  count := min (conf.inpCount i) (conf.outCount i)
  src k := M.base + (conf.inpOffset i + k * conf.inpStride i) * wordSize
  dst := M.base + conf.outOffset i * wordSize

/-- The first columns of a job, one after the other. -/
def firstColumns (conf : Conf) (n : ℕ) : List Gather :=
  ((List.finRange 4).take n).map (confGather M conf)

def allFed (conf : Conf) : Bool :=
  (List.finRange 4).all fun i => decide (conf.outCount i ≤ conf.inpCount i)

def Uses (conf : Conf) (x : ℕ) : Prop :=
  ∃ i, (confGather M conf i).Reads x ∨ (confGather M conf i).Writes x

/-- The columns move words of the buffers, and their numbers fit in a submit. -/
structure On (conf : Conf) (bs : List Buffer) : Prop where
  below : conf.Below (2 ^ 32)
  inside : ∀ x, Uses M conf x → ∃ b ∈ bs, x ∈ M.bytes b

/-! ## The library and the driver -/

/-- A job in the driver: what the client asked for, and what the submit made of it. -/
structure Pending where
  conf : Conf
  buffers : Driver.Buffers

structure Async where
  buffers : BufferState
  confs : SlotId → Conf
  pending : List Pending
  done : List (Conf × Bool)

namespace Async

def mem (s : Async) : Mem := s.buffers.world.mem

def world (s : Async) : World := s.buffers.world

def live (s : Async) : List Buffer := s.buffers.live

def setWorld (s : Async) (w : World) : Async := { s with buffers := ⟨w, s.buffers.live⟩ }

def setMem (s : Async) (mem : Mem) : Async := s.setWorld { s.world with mem }

end Async

def toBus (m : Mem) : Mem := fun y => m (M.base + (y - (T.objs T.obj).dmaAddr.toNat))

/-- The memory of the process, with the tensor memory as the bus leaves it. -/
def fromBus (m bus : Mem) : Mem := fun x =>
  if M.base ≤ x ∧ x < M.base + tensorMemorySize then
    bus ((T.objs T.obj).dmaAddr.toNat + (x - M.base))
  else m x

/-- The client leaves the buffers of the jobs in the driver alone. -/
def Respects (s : Async) : BufferOp → Prop
  | .alloc _ => True
  | .free b => ∀ p ∈ s.pending, ∀ x, Uses M p.conf x → x ∉ M.bytes b
  | .freeAll => s.pending = []
  | .write x _ => ∀ p ∈ s.pending, ¬ Uses M p.conf x
  | .other => False

/-- The calls on jobs that put none in the driver. -/
inductive JobCall : World → World → Prop
  | free {w w' : World} {job : JobHandle} : strelaJobFree os job w = .ok w' → JobCall w w'
  | freeAll {w w' : World} : strelaJobFreeAll os w = .ok w' → JobCall w w'
  | poll {w w' : World} {job : JobHandle} {r : JobState} :
    strelaJobPoll os job w = .ok (r, w') → JobCall w w'
  | wait {w w' : World} {job : JobHandle} {timeout : ℤ} {r : Bool} :
    strelaJobWait os job timeout w = .ok (r, w') → JobCall w w'
  | fd {w w' : World} {job : JobHandle} {r : ℤ} : strelaJobFd job w = .ok (r, w') → JobCall w w'
  | refused {w w' : World} {job : JobHandle} {r : Bool} :
    strelaJobSubmit os job w = .ok (r, w') →
    (∀ i : SlotId, job.handle = i → ∀ n, os w.log (.strelaSubmit i (w.slot i).submit) ≠ .ok n) →
    JobCall w w'
  | unconfigured {w w' : World} {kernel : Kernel} {conf : Conf} {job : JobHandle} :
    strelaJobConfig os kernel conf w = .ok (job, w') → job.valid = false → JobCall w w'
  | resetErr {w : World} : JobCall w (strelaDevResetErr w)

/-- What the submit of a slot asks of the driver for a configuration. -/
def Asks (args : Submit) (conf : Conf) : Prop := ∀ i,
  args.inputs i = ⟨T.handle, BitVec.ofNat 32 (conf.inpOffset i), BitVec.ofNat 32 (conf.inpCount i),
    BitVec.ofNat 32 (conf.inpStride i)⟩ ∧
  args.outputs i = ⟨T.handle, BitVec.ofNat 32 (conf.outOffset i), BitVec.ofNat 32 (conf.outCount i)⟩

/-- The driver resolves each binding of a submit, the handle of the tensors still being open. -/
def Accepts (args : Submit) (buffers : Driver.Buffers) : Prop :=
  (∀ slot, ∃ g g', g.handles.lookup (T.file, T.handle) = some T.obj ∧
    args.bindingGet T.objs g T.file slot = (.ok (buffers.get slot), g')) ∧
  ∀ i, buffers.inputStrides i = (args.inputs i).stride

/-- No word of an output is one of an input or of another output. -/
structure Separate (conf : Conf) : Prop where
  inputs : ∀ i j, ∀ k < conf.outCount i, ∀ l < conf.inpCount j,
    conf.outOffset i + k ≠ conf.inpOffset j + l * conf.inpStride j
  outputs : ∀ i j, i ≠ j → ∀ k < conf.outCount i, ∀ l < conf.outCount j,
    conf.outOffset i + k ≠ conf.outOffset j + l

inductive AsyncAction
  | buffer (op : BufferOp)
  | read (x : ℕ)
  | config (kernel : Kernel) (conf : Conf)
  | call
  | submit (i : SlotId)
  | simulate (configWait : Bool) (wait : Fin 4 → Bool)
  | array

inductive AsyncStep : Async → AsyncAction → Async → Prop
  | buffer {s : Async} {op : BufferOp} {t : BufferState} :
    BufferStep M s.buffers op t → Respects M s op →
    AsyncStep s (.buffer op) { s with buffers := t }
  -- A client reads what no job in the driver writes.
  | read {s : Async} {b : Buffer} {x : ℕ} : b ∈ s.live → x ∈ M.bytes b →
    (∀ p ∈ s.pending, ∀ i, ¬ (confGather M p.conf i).Writes x) → AsyncStep s (.read x) s
  | config {s : Async} {kernel : Kernel} {conf : Conf} {i : SlotId} {w : World} :
    strelaJobConfig os kernel conf s.world = .ok (⟨true, i⟩, w) →
    AsyncStep s (.config kernel conf)
      { s.setWorld w with confs := Function.update s.confs i conf }
  | call {s : Async} {w : World} : JobCall os s.world w → AsyncStep s .call (s.setWorld w)
  -- The driver takes the job, whatever the export of its fence does.
  | submit {s : Async} {i : SlotId} {r : Bool} {w : World} {n : ℤ} {buffers : Driver.Buffers} :
    strelaJobSubmit os ⟨true, i⟩ s.world = .ok (r, w) → (s.world.slot i).phase ≠ .free →
    os s.world.log (.strelaSubmit i (s.world.slot i).submit) = .ok n →
    Accepts T (s.world.slot i).submit buffers → On M (s.confs i) s.live →
    AsyncStep s (.submit i)
      { s.setWorld w with pending := s.pending ++ [⟨s.confs i, buffers⟩] }
  -- The worker of a simulated device, whose waits end early when the job is aborted.
  | simulate {s : Async} {p : Pending} {rest : List Pending} {configWait : Bool}
      {wait : Fin 4 → Bool} {phases : List Driver.Phase} {bus : Mem} :
    s.pending = p :: rest →
    Driver.strelaSimWork T.objs (fun _ => true) (some p.buffers) configWait wait
      (toBus M T s.mem) = some (phases, bus) →
    AsyncStep s (.simulate configWait wait) { s.setMem (fromBus M T s.mem bus) with
      pending := rest, done := s.done ++ [(p.conf, decide (.exec ∈ phases))] }
  -- The array, where its columns do not meet.
  | array {s : Async} {p : Pending} {rest : List Pending} {r r' : Driver.Regs} {fed : Bool}
      {bus : Mem} :
    s.pending = p :: rest → Separate p.conf →
    Driver.strelaHwProgram T.objs false p.buffers r = some r' →
    Driver.Bypassed r' (toBus M T s.mem) bus → (fed = true ↔ Driver.AllFed r') →
    AsyncStep s .array { s.setMem (fromBus M T s.mem bus) with
      pending := rest, done := s.done ++ [(p.conf, fed)] }

/-- At the start no slot is in use and no job in the driver. -/
def asyncLts : Lts Async AsyncAction where
  start s := (bufferLts M).start s.buffers ∧ s.world.dev.tensorsBoHandle = T.handle ∧
    (∀ i, (s.world.slot i).phase = .free) ∧ s.pending = [] ∧ s.done = []
  step := AsyncStep M T os

variable {M T os} {s s' : Async} {conf : Conf} {bs : List Buffer} {live : List Alloc} {a d : Alloc}
  {w w' : World} {m m' : Mem} {n x : ℕ}

/-! ## What a job touches -/

def bytesOf (M : Mapping A) (bs : List Buffer) : Set ℕ := {x | ∃ b ∈ bs, x ∈ M.bytes b}

theorem storeByte_eq_update (m : Mem) (x : ℕ) (b : UInt8) :
    m.storeByte x b = Function.update m x b := by
  funext y
  by_cases hy : y = x
  · rw [hy, Function.update_self, Mem.storeByte, if_pos rfl]
  · rw [Function.update_of_ne hy, Mem.storeByte, if_neg hy]

theorem runAll_eq_carryOut (gs : List Gather) (m : Mem) :
    Gather.runAll gs m = carryOut (gs.map Gather.run) m := by
  rw [Gather.runAll, carryOut, List.foldl_map]

theorem local_firstColumns (M : Mapping A) (conf : Conf) (n : ℕ) :
    Local {x | Uses M conf x} (Gather.runAll (firstColumns M conf n)) := by
  rw [show Gather.runAll (firstColumns M conf n) =
    carryOut ((firstColumns M conf n).map Gather.run) from funext (runAll_eq_carryOut _)]
  apply Local.carryOut
  intro f hf
  obtain ⟨g, hg, rfl⟩ := List.mem_map.mp hf
  obtain ⟨i, -, rfl⟩ := List.mem_map.mp hg
  exact (Gather.local_run _).mono fun _ hx => ⟨i, hx⟩

/-- What becomes of a job in the driver: its first columns are done. -/
def outcome (M : Mapping A) (p : Pending × ℕ) : Mem → Mem :=
  Gather.runAll (firstColumns M p.1.conf p.2)

/-- The memory once each job in the driver has got as far as it gets. -/
def carried (M : Mapping A) (ps : List (Pending × ℕ)) (m : Mem) : Mem :=
  carryOut (ps.map (outcome M)) m

def result (p : Pending × ℕ) : Conf × Bool := (p.1.conf, decide (p.2 = 4) && allFed p.1.conf)

theorem local_outcome {p : Pending × ℕ} (h : On M p.1.conf bs) :
    Local (bytesOf M bs) (outcome M p) :=
  (local_firstColumns M p.1.conf p.2).mono h.inside

theorem local_carried (M : Mapping A) (ps : List (Pending × ℕ)) :
    Local {x | ∃ p ∈ ps, Uses M p.1.conf x} (carried M ps) := by
  apply Local.carryOut
  intro f hf
  obtain ⟨p, hp, rfl⟩ := List.mem_map.mp hf
  exact (local_firstColumns M p.1.conf p.2).mono fun _ hx => ⟨p, hp, hx⟩

theorem carried_of_not_writes {ps : List (Pending × ℕ)}
    (h : ∀ p ∈ ps, ∀ i, ¬ (confGather M p.1.conf i).Writes x) : carried M ps m x = m x := by
  apply carryOut_of_keeps
  intro f hf m
  obtain ⟨p, hp, rfl⟩ := List.mem_map.mp hf
  rw [outcome, runAll_eq_carryOut]
  apply carryOut_of_keeps
  intro f hf m
  obtain ⟨g, hg, rfl⟩ := List.mem_map.mp hf
  obtain ⟨i, -, rfl⟩ := List.mem_map.mp hg
  exact Gather.after_of_not_writes le_rfl (h p hp i)

/-! ## What the calls keep -/

theorem slots_bufferStep {t : BufferState} {op : BufferOp} {b : BufferState}
    (h : BufferStep M b op t) (hop : op ≠ .other) :
    t.world.dev.jobs = b.world.dev.jobs ∧
      t.world.dev.tensorsBoHandle = b.world.dev.tensorsBoHandle := by
  cases h with
  | @alloc n d w hn he =>
    unfold strelaBufferAlloc at he
    split at he
    · dsimp only at he
      split at he
      · obtain ⟨⟨h, ptr⟩, -, he⟩ := bind_eq_ok he
        dsimp only at he
        split at he
        · obtain ⟨o, -, he⟩ := bind_eq_ok he
          obtain ⟨-, rfl⟩ := Prod.mk.inj (Except.ok.inj he)
          exact ⟨rfl, rfl⟩
        · obtain ⟨-, rfl⟩ := Prod.mk.inj (Except.ok.inj he)
          exact ⟨rfl, rfl⟩
      · obtain ⟨-, rfl⟩ := Prod.mk.inj (Except.ok.inj he)
        exact ⟨rfl, rfl⟩
    · obtain ⟨-, rfl⟩ := Prod.mk.inj (Except.ok.inj he)
      exact ⟨rfl, rfl⟩
  | @free d w hd he =>
    unfold strelaBufferFree withBuffer at he
    split at he
    · split at he
      · obtain rfl := Except.ok.inj he
        exact ⟨rfl, rfl⟩
      · obtain ⟨ptr, -, he⟩ := bind_eq_ok he
        obtain ⟨h, -, rfl⟩ := map_eq_ok he
        exact ⟨rfl, rfl⟩
    · obtain rfl := Except.ok.inj he
      exact ⟨rfl, rfl⟩
  | freeAll =>
    unfold strelaBufferFreeAll
    split <;> exact ⟨rfl, rfl⟩
  | write => exact ⟨rfl, rfl⟩
  | other => exact absurd rfl hop

theorem JobCall.quiet (h : JobCall os w w') : Quiet w w' := by
  cases h with
  | free h => exact quiet_strelaJobFree h
  | freeAll h => exact quiet_strelaJobFreeAll h
  | poll h => exact quiet_strelaJobPoll h
  | wait h => exact quiet_strelaJobWait h
  | fd h => exact quiet_strelaJobFd h
  | refused h _ => exact quiet_strelaJobSubmit h
  | unconfigured h hv => exact quiet_strelaJobConfig h hv
  | resetErr =>
    unfold strelaDevResetErr
    split
    · exact .setErr w 0
    · exact .refl w

/-! ## What a job in the driver does -/

theorem Accepts.buffers {args : Submit} {buffers : Driver.Buffers} (h : Accepts T args buffers)
    (ha : Asks T args conf) (i : Fin 4) :
    buffers.inputs i = ⟨some T.obj, BitVec.ofNat 32 (conf.inpOffset i),
      BitVec.ofNat 32 (conf.inpCount i)⟩ ∧
    buffers.inputStrides i = BitVec.ofNat 32 (conf.inpStride i) ∧
    buffers.outputs i = ⟨some T.obj, BitVec.ofNat 32 (conf.outOffset i),
      BitVec.ofNat 32 (conf.outCount i)⟩ := by
  have resolved (slot : Driver.Slot) (hh : (args.source slot).handle = T.handle) :
      buffers.get slot = ⟨some T.obj, (args.source slot).offset, (args.source slot).count⟩ := by
    obtain ⟨g, g', hg, hget⟩ := h.1 slot
    rw [Driver.Submit.bindingGet_eq] at hget
    obtain ⟨o, ho, -, he⟩ := Driver.strelaStridedBindingGet_ok hget
    rw [hh, hg] at ho
    obtain rfl := Option.some.inj ho
    exact he
  obtain ⟨hi, ho⟩ := ha i
  have hinp := resolved (.input i) (by rw [Driver.Submit.source, hi])
  have hout := resolved (.output i) (by rw [Driver.Submit.source, ho]; rfl)
  rw [Driver.Submit.source, hi] at hinp
  rw [Driver.Submit.source, ho] at hout
  refine ⟨hinp, ?_, hout⟩
  rw [h.2 i, hi]

theorem Accepts.objects {args : Submit} {buffers : Driver.Buffers} (h : Accepts T args buffers)
    (slot : Driver.Slot) : ∃ o, (buffers.get slot).obj = some o := by
  obtain ⟨g, g', -, hget⟩ := h.1 slot
  rw [Driver.Submit.bindingGet_eq] at hget
  obtain ⟨o, -, -, he⟩ := Driver.strelaStridedBindingGet_ok hget
  exact ⟨o, by rw [he]⟩

theorem Accepts.resolved {args : Submit} {buffers : Driver.Buffers} (h : Accepts T args buffers) :
    Driver.Resolved T.objs T.file args buffers := by
  refine ⟨fun slot => ?_, h.2⟩
  obtain ⟨g, g', -, hget⟩ := h.1 slot
  exact ⟨g, g', hget⟩

theorem simColumns_takeWhile {w : ℕ} {objs : Driver.ObjId → Driver.GemObject w}
    {mapped : Driver.ObjId → Bool} {job : Driver.Buffers} {obj : Driver.Slot → Driver.ObjId}
    (ho : ∀ slot, (job.get slot).obj = some (obj slot)) (wait : Fin 4 → Bool) (is : List (Fin 4))
    (fed : Bool) (m : Mem) :
    Driver.simColumns objs mapped job wait is fed m =
      some (if is.all wait then
          some (fed && is.all fun i => decide ((job.outputs i).count ≤ (job.inputs i).count))
        else none,
        Gather.runAll
          ((is.takeWhile wait).map (Driver.mappedJobGather objs mapped job obj)) m) := by
  induction is generalizing fed m with
  | nil => simp [Driver.simColumns, Gather.runAll]
  | cons i is ih =>
    have hcol : Driver.strelaSimBypassColumn objs mapped (job.inputs i) (job.inputStrides i)
        (job.outputs i) m = _ :=
      Driver.strelaSimBypassColumn_eq (ho (.input i)) (ho (.output i)) _
    cases hw : wait i with
    | false => simp [Driver.simColumns, hw, Gather.runAll]
    | true =>
      rw [Driver.simColumns, if_pos hw, hcol]
      simp only [Option.bind_eq_bind, Option.bind_some, ih, List.all_cons, hw, Bool.true_and,
        Bool.and_assoc, List.takeWhile_cons, if_true, List.map_cons]
      rfl

theorem word_inside (ho : Owned M s.buffers) (hon : On M conf s.live) {word : ℕ}
    (hu : Uses M conf (M.base + word * wordSize)) :
    word * wordSize + wordSize ≤ tensorMemorySize := by
  obtain ⟨live, hp, B⟩ := ho
  obtain ⟨b, hb, hx⟩ := hon.inside _ hu
  obtain ⟨a, ha, rfl⟩ := Owned.mem hp hb
  have hin := B.buffer_inside ha
  simp only [Mapping.bytes, Mapping.addr, Block.mem_def, Block.stop, wordSize] at hx hin ⊢
  omega

theorem moved_column (ho : Owned M s.buffers) (hon : On M conf s.live) (i : Fin 4) :
    Gather.Moved (T.objs T.obj).dmaAddr.toNat M.base tensorMemorySize
      (Driver.columnGather T.objs T.obj T.obj
        ⟨some T.obj, BitVec.ofNat 32 (conf.inpOffset i), BitVec.ofNat 32 (conf.inpCount i)⟩
        (BitVec.ofNat 32 (conf.inpStride i))
        ⟨some T.obj, BitVec.ofNat 32 (conf.outOffset i), BitVec.ofNat 32 (conf.outCount i)⟩)
      (confGather M conf i) := by
  obtain ⟨⟨h₁, h₂, h₃⟩, h₄, h₅⟩ := hon.below i
  have hcount : (Driver.min32 (BitVec.ofNat 32 (conf.inpCount i))
      (BitVec.ofNat 32 (conf.outCount i))).toNat = min (conf.inpCount i) (conf.outCount i) := by
    rw [Driver.toNat_min32, (toNat_ofNat_iff _).mpr h₂, (toNat_ofNat_iff _).mpr h₅]
  have hsize : (confGather M conf i).size = wordSize := rfl
  constructor
  · rfl
  · exact hcount.symm
  · intro k hk
    have hk' : k < (confGather M conf i).count := hk.trans_eq hcount
    have hu : Uses M conf (M.base + (conf.inpOffset i + k * conf.inpStride i) * wordSize) :=
      ⟨i, .inl ⟨k, hk', 0, hsize.symm ▸ (by decide : 0 < wordSize), rfl⟩⟩
    have hword := word_inside ho hon hu
    have hlt : k < 2 ^ 32 := by
      have : (confGather M conf i).count ≤ conf.inpCount i := min_le_left _ _
      omega
    refine ⟨(conf.inpOffset i + k * conf.inpStride i) * wordSize, ?_, rfl, hword⟩
    have hmul : (BitVec.ofNat 32 k * BitVec.ofNat 32 (conf.inpStride i)).toNat =
        k * conf.inpStride i := by
      simp only [tensorMemorySize, wordSize] at hword
      rw [BitVec.toNat_mul, (toNat_ofNat_iff _).mpr hlt, (toNat_ofNat_iff _).mpr h₃,
        Nat.mod_eq_of_lt (by omega)]
    simp only [Driver.columnGather, Driver.wordAddr, hmul, (toNat_ofNat_iff _).mpr h₁]
    rfl
  · intro k hk
    have hk' : k < (confGather M conf i).count := hk.trans_eq hcount
    have hu : Uses M conf (M.base + (conf.outOffset i + k) * wordSize) := by
      refine ⟨i, .inr ⟨?_, ?_⟩⟩
      · simp only [confGather, wordSize]
        omega
      · rw [hsize]
        simp only [confGather, wordSize] at hk' ⊢
        omega
    have hword := word_inside ho hon hu
    refine ⟨(conf.outOffset i + k) * wordSize, ?_, ?_, hword⟩
    · simp only [Driver.columnGather, Driver.wordAddr, (toNat_ofNat_iff _).mpr h₄, Driver.wordSize,
        wordSize]
      omega
    · simp only [confGather, Driver.columnGather, Driver.wordSize, wordSize]
      omega

theorem fromBus_runAll {ι : Type} {f g : ι → Gather} (is : List ι)
    (h : ∀ i, Gather.Moved (T.objs T.obj).dmaAddr.toNat M.base tensorMemorySize (f i) (g i))
    (m : Mem) :
    fromBus M T m (Gather.runAll (is.map f) (toBus M T m)) = Gather.runAll (is.map g) m := by
  have hin (is : List ι) (bus m : Mem) (hm : ∀ o < tensorMemorySize,
      bus ((T.objs T.obj).dmaAddr.toNat + o) = m (M.base + o)) (o : ℕ) (ho : o < tensorMemorySize) :
      Gather.runAll (is.map f) bus ((T.objs T.obj).dmaAddr.toNat + o) =
        Gather.runAll (is.map g) m (M.base + o) := by
    induction is generalizing bus m with
    | nil => exact hm o ho
    | cons i is ih => exact ih _ _ fun o ho => (h i).run hm ho
  funext x
  unfold fromBus
  split
  · rename_i hx
    have := hin is (toBus M T m) m (fun o _ => by simp [toBus]) (x - M.base) (by omega)
    rwa [show M.base + (x - M.base) = x by omega] at this
  · rename_i hx
    rw [runAll_eq_carryOut, carryOut_of_keeps]
    intro k hk m
    obtain ⟨c, hc, rfl⟩ := List.mem_map.mp hk
    obtain ⟨i, -, rfl⟩ := List.mem_map.mp hc
    exact Gather.after_of_not_writes le_rfl fun hw => hx ((h i).writes hw)

/-- How many columns the worker does before a wait is cut short. -/
def columnsDone (configWait : Bool) (wait : Fin 4 → Bool) : ℕ :=
  if configWait then ((List.finRange 4).takeWhile wait).length else 0

theorem columnsDone_le (configWait : Bool) (wait : Fin 4 → Bool) :
    columnsDone configWait wait ≤ 4 := by
  unfold columnsDone
  split
  · have := (List.takeWhile_prefix wait (l := List.finRange 4)).length_le
    rwa [List.length_finRange] at this
  · decide

section Job

variable {p : Pending} {args : Submit} (ho : Owned M s.buffers) (hon : On M p.conf s.live)
  (hasks : Asks T args p.conf) (hacc : Accepts T args p.buffers)

include hasks hacc

theorem fed_eq (hbelow : p.conf.Below (2 ^ 32)) :
    ((List.finRange 4).all fun i =>
      decide ((p.buffers.outputs i).count ≤ (p.buffers.inputs i).count)) = allFed p.conf := by
  unfold allFed
  congr 1
  funext i
  obtain ⟨hi, -, ho⟩ := hacc.buffers hasks i
  obtain ⟨⟨-, h₂, -⟩, -, h₅⟩ := hbelow i
  apply decide_eq_decide.mpr
  rw [hi, ho, BitVec.le_def, (toNat_ofNat_iff _).mpr h₂, (toNat_ofNat_iff _).mpr h₅]

include ho hon

theorem fromBus_columns {obj : Driver.Slot → Driver.ObjId}
    (hobj : ∀ slot, (p.buffers.get slot).obj = some (obj slot)) (is : List (Fin 4)) (m : Mem) :
    fromBus M T m (Gather.runAll (is.map (Driver.jobGather T.objs p.buffers obj)) (toBus M T m)) =
      Gather.runAll (is.map (confGather M p.conf)) m := by
  apply fromBus_runAll is
  intro i
  obtain ⟨hi, hs, hout⟩ := hacc.buffers hasks i
  have hoi : obj (.input i) = T.obj := by
    have := hobj (.input i)
    rw [show p.buffers.get (.input i) = _ from hi] at this
    exact (Option.some.inj this).symm
  have hoo : obj (.output i) = T.obj := by
    have := hobj (.output i)
    rw [show p.buffers.get (.output i) = _ from hout] at this
    exact (Option.some.inj this).symm
  rw [Driver.jobGather, hoi, hoo, hi, hs, hout]
  exact moved_column ho hon i

/-- The worker of the simulated device does the first columns of the job, and reports it done if
it did them all and each output got its words. -/
theorem strelaSimWork_columns {configWait : Bool} {wait : Fin 4 → Bool} {phases : List Driver.Phase}
    {bus : Mem} (h : Driver.strelaSimWork T.objs (fun _ => true) (some p.buffers) configWait wait
      (toBus M T m) = some (phases, bus)) :
    fromBus M T m bus = outcome M (p, columnsDone configWait wait) m ∧
      (p.conf, decide (Driver.Phase.exec ∈ phases)) = result (p, columnsDone configWait wait) := by
  choose obj hobj using hacc.objects
  have hmapped : Driver.mappedJobGather T.objs (fun _ => true) p.buffers obj =
      Driver.jobGather T.objs p.buffers obj :=
    funext fun i => Driver.mappedGather_eq rfl rfl _ _ _
  have hgather := fromBus_columns ho hon hasks hacc hobj
  unfold Driver.strelaSimWork at h
  dsimp only at h
  unfold columnsDone
  split at h
  · rename_i hc
    rw [simColumns_takeWhile hobj, fed_eq hasks hacc hon.below, hmapped] at h
    simp only [Option.bind_eq_bind, Option.bind_some, Bool.true_and, Option.some.injEq,
      Prod.mk.injEq] at h
    obtain ⟨rfl, rfl⟩ := h
    have hpre := List.takeWhile_prefix wait (l := List.finRange 4)
    rw [if_pos hc]
    constructor
    · rw [hgather, outcome, firstColumns, ← List.prefix_iff_eq_take.mp hpre]
    · have hall : (List.finRange 4).all wait =
          decide (((List.finRange 4).takeWhile wait).length = 4) := by
        rw [Bool.eq_iff_iff, List.all_eq_true, decide_eq_true_iff, ← List.takeWhile_eq_self_iff]
        constructor
        · intro h
          rw [h, List.length_finRange]
        · exact fun h => hpre.eq_of_length (by rw [h, List.length_finRange])
      rw [result, ← hall]
      cases (List.finRange 4).all wait <;> cases allFed p.conf <;> simp
  · rename_i hc
    obtain ⟨rfl, rfl⟩ := Prod.mk.inj (Option.some.inj h)
    rw [if_neg hc]
    exact ⟨hgather [] m, by simp [result]⟩

end Job

theorem noOverlap_of_separate {p : Pending} {args : Submit} (hsep : Separate p.conf)
    (hbelow : p.conf.Below (2 ^ 32)) (hasks : Asks T args p.conf) {r : Driver.Regs}
    {obj : Driver.Slot → Driver.ObjId}
    (he : ∀ slot, p.buffers.get slot =
      ⟨some (obj slot), (args.source slot).offset, (args.source slot).count⟩)
    (hacc : Accepts T args p.buffers)
    (hb : ∀ slot, Driver.ReadsBack (T.objs (obj slot)) (args.source slot) (Driver.decode r slot)) :
    Driver.NoOverlap r := by
  -- A byte that a column touches is in a word that the configuration names.
  have word (slot : Driver.Slot) (ho : obj slot = T.obj) {x : ℕ}
      (hx : x ∈ (Driver.decode r slot).touches) :
      ∃ k < (args.source slot).count.toNat, ∃ j < 4, x = (T.objs T.obj).dmaAddr.toNat +
        ((args.source slot).offset.toNat + k * (args.source slot).stride.toNat) * 4 + j := by
    obtain ⟨k, hk, j, hj, rfl⟩ := hx
    have hback := hb slot
    rw [ho] at hback
    have haddr := hback.addr_eq hk
    have hle := hback.word_le hk
    have hstride := hback.stride (hback.count_ne_zero hk)
    have hbound := hback.bound
    refine ⟨k, hback.words ▸ hk, j, hj, ?_⟩
    simp only [Driver.wordSize] at haddr hle hstride hj
    rw [Nat.mod_eq_of_lt (by omega), haddr, hstride, Nat.add_mul, ← mul_assoc]
    omega
  have hinp (i : Fin 4) {x : ℕ} (hx : x ∈ (Driver.decode r (.input i)).touches) :
      ∃ k < p.conf.inpCount i, ∃ j < 4, x = (T.objs T.obj).dmaAddr.toNat +
        (p.conf.inpOffset i + k * p.conf.inpStride i) * 4 + j := by
    obtain ⟨⟨h₁, h₂, h₃⟩, -⟩ := hbelow i
    have ho : obj (.input i) = T.obj := by
      have := he (.input i)
      rw [show p.buffers.get (.input i) = _ from (hacc.buffers hasks i).1] at this
      exact (Option.some.inj (congrArg Driver.Binding.obj this)).symm
    have := word (.input i) ho hx
    simpa only [Driver.Submit.source, (hasks i).1, (toNat_ofNat_iff _).mpr h₁,
      (toNat_ofNat_iff _).mpr h₂, (toNat_ofNat_iff _).mpr h₃] using this
  have hout (i : Fin 4) {x : ℕ} (hx : x ∈ (Driver.decode r (.output i)).touches) :
      ∃ k < p.conf.outCount i, ∃ j < 4, x = (T.objs T.obj).dmaAddr.toNat +
        (p.conf.outOffset i + k) * 4 + j := by
    obtain ⟨-, h₄, h₅⟩ := hbelow i
    have ho : obj (.output i) = T.obj := by
      have := he (.output i)
      rw [show p.buffers.get (.output i) = _ from (hacc.buffers hasks i).2.2] at this
      exact (Option.some.inj (congrArg Driver.Binding.obj this)).symm
    have hone : (1 : U32).toNat = 1 := rfl
    have := word (.output i) ho hx
    simpa only [Driver.Submit.source, (hasks i).2, Driver.Source.strided,
      (toNat_ofNat_iff _).mpr h₄, (toNat_ofNat_iff _).mpr h₅, hone, mul_one] using this
  constructor
  · intro i j
    rw [Set.disjoint_left]
    intro x ho hi
    obtain ⟨k, hk, a, ha, hx⟩ := hout i ho
    obtain ⟨l, hl, b, hb, hx'⟩ := hinp j hi
    exact hsep.inputs i j k hk l hl (by omega)
  · intro i j hij
    rw [Set.disjoint_left]
    intro x ho hi
    obtain ⟨k, hk, a, ha, hx⟩ := hout i ho
    obtain ⟨l, hl, b, hb, hx'⟩ := hout j hi
    exact hsep.outputs i j hij k hk l hl (by omega)

/-- The array does all columns of a job whose words are separate. -/
theorem bypassed_columns {p : Pending} {args : Submit} (hv : 32 ≤ v)
    (hlow : ∀ o, (T.objs o).dmaAddr.toNat + (T.objs o).size.toNat ≤ 2 ^ 32)
    (ho : Owned M s.buffers) (hon : On M p.conf s.live) (hasks : Asks T args p.conf)
    (hacc : Accepts T args p.buffers) (hsep : Separate p.conf) {r r' : Driver.Regs} {fed : Bool}
    {bus : Mem} (hprog : Driver.strelaHwProgram T.objs false p.buffers r = some r')
    (hbyp : Driver.Bypassed r' (toBus M T m) bus) (hfed : fed = true ↔ Driver.AllFed r') :
    fromBus M T m bus = outcome M (p, 4) m ∧ (p.conf, fed) = result (p, 4) := by
  have hres := hacc.resolved
  obtain ⟨r₁, hprog₁, hdec⟩ := Driver.strelaHwProgram_decode hv hres (fun _ o _ => hlow o) r
  obtain rfl := Option.some.inj (hprog₁.symm.trans hprog)
  choose obj he hback using hdec
  have hno := noOverlap_of_separate hsep hon.below hasks he hacc hback
  obtain rfl := hbyp.unique (Driver.runAll_bypassed hres he hback hno (toBus M T m))
  have hobj (slot : Driver.Slot) : (p.buffers.get slot).obj = some (obj slot) := by rw [he slot]
  constructor
  · exact fromBus_columns ho hon hasks hacc hobj (List.finRange 4) m
  · have hall : allFed p.conf = true ↔ Driver.AllFed r₁ := by
      rw [← fed_eq hasks hacc hon.below]
      simp only [List.all_eq_true, decide_eq_true_eq, Driver.count_le_iff he hback]
      exact ⟨fun h i => h i (List.mem_finRange i), fun h i _ => h i⟩
    rw [result, Prod.mk.injEq, Bool.eq_iff_iff, hfed, ← hall]
    simp

/-! ## The invariant of a run -/

/-- The buffers have allocations behind them, each slot in use asks for what it was configured with,
and each job in the driver is on live buffers. -/
structure AsyncValid (M : Mapping A) (T : Tensors v) (s : Async) : Prop where
  owned : Owned M s.buffers
  tensors : s.world.dev.tensorsBoHandle = T.handle
  slots : ∀ i, (s.world.slot i).phase ≠ .free → Asks T (s.world.slot i).submit (s.confs i)
  pending : ∀ p ∈ s.pending, On M p.conf s.live ∧
    ∃ args, Asks T args p.conf ∧ Accepts T args p.buffers

/-- No request for a buffer overruns. -/
def AsyncBounded (s : Async) (op : AsyncAction) : Prop :=
  ∀ o, op = .buffer o → NoOverrun A s.buffers o

theorem On.mono {bs' : List Buffer} (h : On M conf bs)
    (hb : ∀ x, Uses M conf x → ∀ b ∈ bs, x ∈ M.bytes b → b ∈ bs') : On M conf bs' := by
  refine ⟨h.below, fun x hx => ?_⟩
  obtain ⟨b, hbs, hxb⟩ := h.inside x hx
  exact ⟨b, hb x hx b hbs hxb, hxb⟩

theorem on_bufferStep {op : BufferOp} {t : BufferState} (h : BufferStep M s.buffers op t)
    (hr : Respects M s op) {p : Pending} (hp : p ∈ s.pending) (hon : On M p.conf s.live) :
    On M p.conf t.live := by
  apply hon.mono
  intro x hx b hb hxb
  cases h with
  | alloc =>
    dsimp only
    split
    · exact List.mem_cons_of_mem _ hb
    · exact hb
  | @free d w hd he =>
    dsimp only
    split
    · refine (List.mem_erase_of_ne ?_).mpr hb
      rintro rfl
      exact hr p hp x hx hxb
    · exact hb
  | freeAll =>
    rw [show s.pending = [] from hr] at hp
    cases hp
  | write => exact hb
  | other => exact hr.elim

theorem Same.of_quiet (h : Quiet w w') (M : Mapping A) : M.Same w w' :=
  ⟨h.list, h.base, fun x _ _ => by rw [h.mem]⟩

theorem AsyncValid.quiet (V : AsyncValid M T s) (h : Quiet s.world w) :
    AsyncValid M T (s.setWorld w) := by
  obtain ⟨live, hp, B⟩ := V.owned
  refine ⟨⟨live, hp, B.same (Same.of_quiet h M)⟩, h.tensors.trans V.tensors, fun i hi => ?_,
    V.pending⟩
  obtain ⟨hp, hs⟩ := h.slots i hi
  have := V.slots i hp
  rwa [← hs] at this

theorem lent_of_bytes {b : Buffer} {L : ℕ} (hb : b ∈ bs) (hx : x ∈ M.bytes b) :
    Lent M L bs (x / L) := by
  have hle := le_roundUp (b.sizeWords * wordSize) cachelineSize
  simp only [Mapping.bytes, Block.mem_def, Block.stop] at hx
  exact ⟨b, hb, x, rfl, hx.1, by omega⟩

theorem owned_setMem {b : BufferState} (ho : Owned M b) {f : Mem → Mem}
    (hf : Local (bytesOf M b.live) f) :
    Owned M ⟨{ b.world with mem := f b.world.mem }, b.live⟩ := by
  obtain ⟨live, hp, B⟩ := ho
  have R := represents_of_lent B (fun b => Owned.mem hp) (dvd_refl cachelineSize)
    (m := f b.world.mem) fun x _ _ hn => hf.outside _ x fun hx => by
      obtain ⟨d, hd, hx⟩ := hx
      exact hn (lent_of_bytes hd hx)
  exact ⟨live, hp, .of_represents (w := b.world) B.base B.data B.size B.policy R B.lines B.words⟩

theorem AsyncValid.start (c : CacheLine A cachelineSize) (h : (asyncLts M T os).start s) :
    AsyncValid M T s := by
  obtain ⟨hb, ht, hs, hp, -⟩ := h
  refine ⟨Owned.start c hb, ht, fun i hi => absurd (hs i) hi, ?_⟩
  rw [hp]
  simp

theorem AsyncValid.retire (V : AsyncValid M T s) {p : Pending} {rest : List Pending}
    (hp : s.pending = p :: rest) {n : ℕ} {done : List (Conf × Bool)} :
    AsyncValid M T { s.setMem (outcome M (p, n) s.mem) with pending := rest, done } := by
  have hmem : p ∈ s.pending := by
    rw [hp]
    exact List.mem_cons_self
  have hlocal : Local (bytesOf M s.buffers.live) (outcome M (p, n)) :=
    local_outcome (V.pending p hmem).1
  refine ⟨owned_setMem V.owned hlocal, V.tensors, V.slots, fun q hq => V.pending q ?_⟩
  rw [hp]
  exact List.mem_cons_of_mem p hq

/-- The steps in which a job leaves the driver, by how far it got. -/
theorem retire_cases (V : AsyncValid M T s) (hv : 32 ≤ v)
    (hlow : ∀ o, (T.objs o).dmaAddr.toNat + (T.objs o).size.toNat ≤ 2 ^ 32) {op : AsyncAction}
    (hop : (∃ c wait, op = .simulate c wait) ∨ op = .array) (h : AsyncStep M T os s op s') :
    ∃ p rest n, s.pending = p :: rest ∧ n ≤ 4 ∧
      s' = { s.setMem (outcome M (p, n) s.mem) with
        pending := rest, done := s.done ++ [result (p, n)] } := by
  cases h with
  | buffer => simp at hop
  | read => simp at hop
  | config => simp at hop
  | call => simp at hop
  | submit => simp at hop
  | @simulate p rest configWait wait phases bus hp hw =>
    obtain ⟨hon, args, hasks, hacc⟩ := V.pending p (by rw [hp]; exact List.mem_cons_self)
    obtain ⟨hmem, hres⟩ := strelaSimWork_columns V.owned hon hasks hacc hw
    exact ⟨p, rest, _, hp, columnsDone_le configWait wait, by rw [hmem, hres]⟩
  | @array p rest r r' fed bus hp hsep hprog hbyp hfed =>
    obtain ⟨hon, args, hasks, hacc⟩ := V.pending p (by rw [hp]; exact List.mem_cons_self)
    obtain ⟨hmem, hres⟩ := bypassed_columns hv hlow V.owned hon hasks hacc hsep hprog hbyp hfed
    exact ⟨p, rest, 4, hp, le_rfl, by rw [hmem, hres]⟩

theorem strelaJobConfig_valid {kernel : Kernel} {i : SlotId}
    (h : strelaJobConfig os kernel conf w = .ok (⟨true, i⟩, w')) :
    Silent w w' ∧ w'.dev.tensorsBoHandle = w.dev.tensorsBoHandle ∧
      (∃ sync, (w'.slot i).submit = confSubmit w.dev kernel conf sync) ∧
      ∀ j, j ≠ i → w'.slot j = w.slot j := by
  rcases strelaJobConfig_cases os kernel conf w with
    ⟨j, n, -, he⟩ | ⟨j, e, -, -, he⟩ | ⟨-, w₁, he, -⟩
  · obtain ⟨hj, rfl⟩ := Prod.mk.inj (Except.ok.inj (he.symm.trans h))
    obtain rfl : j = i := Fin.ext (JobHandle.mk.inj hj).2
    refine ⟨⟨rfl, rfl, rfl⟩, rfl, ⟨BitVec.ofInt 32 n, ?_⟩, fun k hk => Function.update_of_ne hk _ _⟩
    rw [slot_setSlot]
  · cases (Prod.mk.inj (Except.ok.inj (he.symm.trans h))).1
  · cases (Prod.mk.inj (Except.ok.inj (he.symm.trans h))).1

theorem AsyncValid.step (c : CacheLine A cachelineSize) (hv : 32 ≤ v)
    (hlow : ∀ o, (T.objs o).dmaAddr.toNat + (T.objs o).size.toNat ≤ 2 ^ 32) (V : AsyncValid M T s)
    {op : AsyncAction} (hb : AsyncBounded (A := A) s op) (h : AsyncStep M T os s op s') :
    AsyncValid M T s' := by
  have retired (hop : (∃ c wait, op = .simulate c wait) ∨ op = .array) : AsyncValid M T s' := by
    obtain ⟨p, rest, n, hp, -, rfl⟩ := retire_cases V hv hlow hop h
    exact V.retire hp
  cases h with
  | @buffer op t hst hr =>
    obtain ⟨hjobs, htens⟩ := slots_bufferStep hst (by rintro rfl; exact hr)
    refine ⟨V.owned.step c (hb op rfl) hst, htens.trans V.tensors, fun i hi => ?_, fun p hp => ?_⟩
    · have hslot : t.world.slot i = s.world.slot i := congrFun hjobs i
      change (t.world.slot i).phase ≠ .free at hi
      change Asks T (t.world.slot i).submit _
      rw [hslot] at hi ⊢
      exact V.slots i hi
    · exact ⟨on_bufferStep hst hr hp (V.pending p hp).1, (V.pending p hp).2⟩
  | read => exact V
  | @config kernel conf i w h =>
    obtain ⟨hsame, htens, ⟨sync, hsub⟩, hother⟩ := strelaJobConfig_valid h
    obtain ⟨live, hp, B⟩ := V.owned
    refine ⟨⟨live, hp, B.same (hsame.same M)⟩, htens.trans V.tensors, fun j hj => ?_, V.pending⟩
    change Asks T (w.slot j).submit _
    by_cases hji : j = i
    · subst hji
      have ht : s.world.dev.tensorsBoHandle = T.handle := V.tensors
      rw [hsub]
      intro k
      simp only [confSubmit, ht, Function.update_self, and_self]
    · change (w.slot j).phase ≠ .free at hj
      rw [hother j hji] at hj ⊢
      simp only [Function.update_of_ne hji]
      exact V.slots j hj
  | call h => exact V.quiet h.quiet
  | @submit i r w n buffers h hp _ hacc hon =>
    have V' := V.quiet (quiet_strelaJobSubmit h)
    refine ⟨V'.owned, V'.tensors, V'.slots, fun p hp' => ?_⟩
    rcases List.mem_append.mp hp' with hp' | hp'
    · exact V.pending p hp'
    · obtain rfl := List.mem_singleton.mp hp'
      exact ⟨hon, _, V.slots i hp, hacc⟩
  | simulate => exact retired (.inl ⟨_, _, rfl⟩)
  | array => exact retired (.inr rfl)

end Strela.System
