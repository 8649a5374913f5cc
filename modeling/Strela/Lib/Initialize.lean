import Strela.Allocator.PoolRuns
import Strela.Lib.Buffers
import Strela.Lib.Teardown
import Strela.Lib.Enumerate

/-! # Setting up a device

`strela_dev_init` finds the device, creates the objects of its two memories and
maps them. Each step is made unless there is an error by then, and in the end
either the device is set up or all that was opened is given back.
-/

namespace Strela.Lib

open Foundation Foundation.Unsigned Strela.Allocator

def deviceMax : ℕ := 8

def enodev : ℕ+ := Nat.toPNat' 19

structure GemNew where
  size : ℕ
  handle : U32
  offset : ℕ

/-- What a call that gives back a part does to the handles in use. -/
def Disposal.giveBack (held : Held) : Disposal → Held
  | .munmap base size => held.give (.map base size)
  | .close fd => held.give (.fd fd)

variable {A : Abi} (sys : System A) (os : Os) (dos : List Disposal → Disposal → Reply)

def gemNew (fd : ℤ) (size : ℕ) (held : Held) (w : World) : GemNew × World :=
  if w.dev.errnum = 0 then
    match sys.gemNew held fd size with
    | .error e => (⟨size, 0, 0⟩, w.setErr e)
    | .ok made => (⟨size, made.1, made.2⟩, w)
  else (⟨size, 0, 0⟩, w)

def mapGem (fd : ℤ) (args : GemNew) (held : Held) (w : World) : ℕ × Held × World :=
  if w.dev.errnum = 0 then
    match sys.mmap held args.size fd args.offset with
    | .error e => (mapFailed A, held, w.setErr e)
    | .ok base => (base, held.take (.map base args.size) (.memory fd args.offset), w)
  else (0, held, w)

def fillDev (fd : ℤ) (kernels tensors : GemNew) (kernelsBase tensorsBase : ℕ) (w : World) :
    Exec World := do
  let w := { w with dev := { w.dev with
    fd
    initialized := true
    tensorsBoHandle := tensors.handle
    tensorsBoMap := tensorsBase
    kernelsBoHandle := kernels.handle
    kernelsBoMap := kernelsBase } }
  let (kernelPool, mem) ← w.orAbort
    (poolInit A w.mem kernelsBase kernelMemorySize (wordSize * kernelSize) wordSize)
  let w := { w with dev := { w.dev with kernelPool }, mem }
  let h ← w.orAbort (freeListInit A w.heap tensorsBase tensorMemorySize)
  let w := w.setHeap h
  .ok { w with dev := { w.dev with backwardCompatJob := .none, jobs := fun _ => .zero } }

/-- The last step of setting up: keep everything, or give everything back. -/
def settle (fd : ℤ) (kernels tensors : GemNew) (kernelsBase tensorsBase : ℕ) (held : Held)
    (w : World) : Exec (World × Held) :=
  if w.dev.errnum = 0 then
    (fillDev (A := A) fd kernels tensors kernelsBase tensorsBase w).map fun w => (w, held)
  else if w.dev.initialized then w.abort
  else
    match strelaDevDeinitInternal A dos tensorsBase tensorMemorySize kernelsBase kernelMemorySize
      fd with
    | .error _ => w.abort
    | .ok done => .ok (w, done.foldl Disposal.giveBack held)

/-- Create and map the memory of the tensors, after that of the kernels. -/
def setUpTensors (fd : ℤ) (kernels : GemNew) (kernelsBase : ℕ) (held : Held) (w : World) :
    Exec (World × Held) :=
  let (tensors, w) := gemNew sys fd tensorMemorySize held w
  let (tensorsBase, held, w) := mapGem sys fd tensors held w
  settle (A := A) dos fd kernels tensors kernelsBase tensorsBase held w

/-- Create and map both memories of the device with the descriptor. -/
def setUpMemories (fd : ℤ) (held : Held) (w : World) : Exec (World × Held) :=
  let (kernels, w) := gemNew sys fd kernelMemorySize held w
  let (kernelsBase, held, w) := mapGem sys fd kernels held w
  setUpTensors sys dos fd kernels kernelsBase held w

def setUp (whichStrela : U32) (held : Held) (w : World) : Exec (World × Held) :=
  let (fd, held) := findDevice sys whichStrela held
  let w := if fd = -1 then w.setErr enodev else w
  setUpMemories sys dos fd held w

def strelaDevInitWhich (whichStrela : U32) (held : Held) (w : World) : Exec (World × Held) :=
  if whichStrela.toNat ≥ deviceMax then w.abort
  else do
    let w := w.setErr 0
    let (w, held) ← if ¬ w.dev.initialized then setUp sys dos whichStrela held w else .ok (w, held)
    let w ←
      if w.dev.initialized then
        if w.dev.errnum = 0 then strelaDevInit A os w else w.abort
      else .ok w
    if w.dev.errnum ≠ 0 ↔ w.dev.initialized = false then .ok (w, held) else w.abort

/-! ## What is opened -/

/-- The answers of the system to the steps of a setup that succeeds. -/
structure Opened where
  entry : DirEntry
  fd : ℤ
  kernels : U32 × ℕ
  kernelsBase : ℕ
  tensors : U32 × ℕ
  tensorsBase : ℕ

namespace Opened

variable (o : Opened)

/-- The handles in use when the device is open, then its kernels mapped, then its tensors. -/
def device (held : Held) : Held := held.take (.fd o.fd) (.accel o.entry)

def withKernels (held : Held) : Held :=
  (o.device held).take (.map o.kernelsBase kernelMemorySize) (.memory o.fd o.kernels.2)

def withTensors (held : Held) : Held :=
  (o.withKernels held).take (.map o.tensorsBase tensorMemorySize) (.memory o.fd o.tensors.2)

end Opened

/-- The steps on an open device succeed, with the given answers. -/
structure Maps (sys : System A) (held : Held) (o : Opened) : Prop where
  kernels : sys.gemNew (o.device held) o.fd kernelMemorySize = .ok o.kernels
  kernelsMap : sys.mmap (o.device held) kernelMemorySize o.fd o.kernels.2 = .ok o.kernelsBase
  tensors : sys.gemNew (o.withKernels held) o.fd tensorMemorySize = .ok o.tensors
  tensorsMap :
    sys.mmap (o.withKernels held) tensorMemorySize o.fd o.tensors.2 = .ok o.tensorsBase

/-- Every step succeeds, with the given answers. -/
structure Succeeds (sys : System A) (n : ℕ) (held : Held) (o : Opened) : Prop extends
    Maps sys held o where
  entry : sys.devices[n]? = some o.entry
  fd : sys.nextFd (held.take (.dir (sys.nextDir held)) .listing) = o.fd

/-- The device is set up, and its descriptor and two mappings are all that was opened. -/
structure SetsUp (sys : System A) (n : ℕ) (held : Held) (w' : World) (held' : Held) (o : Opened) :
    Prop where
  succeeds : Succeeds sys n held o
  initialized : w'.dev.initialized = true
  errnum : w'.dev.errnum = 0
  fd : w'.dev.fd = o.fd
  kernels : w'.dev.kernelsBoMap = o.kernelsBase
  tensors : w'.dev.tensorsBoMap = o.tensorsBase
  held : held' = o.withTensors held

structure Undone (held : Held) (w' : World) (held' : Held) : Prop where
  initialized : w'.dev.initialized = false
  errnum : w'.dev.errnum ≠ 0
  restored : held' = held

/-- A step failed, and nothing is left open. -/
structure GivesUp (sys : System A) (n : ℕ) (held : Held) (w' : World) (held' : Held) : Prop extends
    Undone held w' held' where
  fails : ∀ o, ¬ Succeeds sys n held o

/-- `munmap` and `close` of what is open succeed. -/
def Willing (dos : List Disposal → Disposal → Reply) : Prop := ∀ done d, ∃ v, dos done d = .ok v

variable {sys os dos} {w w' : World} {held held' : Held} {fd : ℤ} {n size base : ℕ}

/-! ## Giving everything back -/

theorem dispose_willing (hdos : Willing dos) (d : Disposal) (done : List Disposal) :
    dispose dos d done = .ok (done ++ [d]) := by
  obtain ⟨v, hv⟩ := hdos done d
  simp only [dispose, hv]

theorem disposeMap_mapped (hdos : Willing dos) (hb : base ≠ 0 ∧ base ≠ mapFailed A)
    (done : List Disposal) :
    disposeMap A dos base size done = .ok (done ++ [.munmap base size]) := by
  rw [disposeMap, if_pos hb, dispose_willing hdos]

theorem disposeMap_unmapped (hb : base = 0 ∨ base = mapFailed A) (done : List Disposal) :
    disposeMap A dos base size done = .ok done :=
  if_neg (by tauto)

theorem strelaDevDeinitInternal_eq {tensors kernels : ℕ} {done done' : List Disposal}
    (ht : disposeMap A dos tensors tensorMemorySize [] = .ok done)
    (hk : disposeMap A dos kernels kernelMemorySize done = .ok done') :
    strelaDevDeinitInternal A dos tensors tensorMemorySize kernels kernelMemorySize fd =
      if fd ≠ -1 then dispose dos (.close fd) done' else .ok done' := by
  rw [strelaDevDeinitInternal, ht]
  change (disposeMap A dos kernels kernelMemorySize done >>= _) = _
  rw [hk]
  rfl

section GivingBack

variable {kernels tensors : GemNew} {kernelsBase tensorsBase : ℕ}
  (hi : w.dev.initialized = false) (he : w.dev.errnum ≠ 0)

include hi he

theorem settle_of_err {done : List Disposal}
    (hd : strelaDevDeinitInternal A dos tensorsBase tensorMemorySize kernelsBase kernelMemorySize
      fd = .ok done) :
    settle (A := A) dos fd kernels tensors kernelsBase tensorsBase held w =
      .ok (w, done.foldl Disposal.giveBack held) := by
  simp only [settle, he, hi, hd, if_false, Bool.false_eq_true]

theorem settle_nothing : settle (A := A) dos (-1) kernels tensors 0 0 held w = .ok (w, held) := by
  have hd : strelaDevDeinitInternal A dos 0 tensorMemorySize 0 kernelMemorySize (-1) = .ok [] :=
    strelaDevDeinitInternal_eq (disposeMap_unmapped (.inl rfl) [])
      (disposeMap_unmapped (.inl rfl) [])
  rw [settle_of_err hi he hd]
  rfl

variable (hdos : Willing dos) (hfd : fd ≠ -1) (hfree : held.Free (.fd fd)) {e : DirEntry}
  (ht : tensorsBase = 0 ∨ tensorsBase = mapFailed A)

include hdos hfd hfree ht

theorem settle_device (hk : kernelsBase = 0 ∨ kernelsBase = mapFailed A) :
    settle (A := A) dos fd kernels tensors kernelsBase tensorsBase
      (held.take (.fd fd) (.accel e)) w = .ok (w, held) := by
  have hd : strelaDevDeinitInternal A dos tensorsBase tensorMemorySize kernelsBase kernelMemorySize
      fd = .ok [.close fd] := by
    rw [strelaDevDeinitInternal_eq (disposeMap_unmapped ht []) (disposeMap_unmapped hk []),
      if_pos hfd]
    exact dispose_willing hdos _ _
  rw [settle_of_err hi he hd]
  simp only [List.foldl_cons, List.foldl_nil, Disposal.giveBack]
  rw [Handles.give_take hfree]

theorem settle_kernels {offset : ℕ} (hk : kernelsBase ≠ 0 ∧ kernelsBase ≠ mapFailed A)
    (hmap : (held.take (.fd fd) (.accel e)).Free (.map kernelsBase kernelMemorySize)) :
    settle (A := A) dos fd kernels tensors kernelsBase tensorsBase
      ((held.take (.fd fd) (.accel e)).take (.map kernelsBase kernelMemorySize) (.memory fd offset))
      w = .ok (w, held) := by
  have hd : strelaDevDeinitInternal A dos tensorsBase tensorMemorySize kernelsBase kernelMemorySize
      fd = .ok [.munmap kernelsBase kernelMemorySize, .close fd] := by
    rw [strelaDevDeinitInternal_eq (disposeMap_unmapped ht []) (disposeMap_mapped hdos hk []),
      if_pos hfd]
    exact dispose_willing hdos _ _
  rw [settle_of_err hi he hd]
  simp only [List.foldl_cons, List.foldl_nil, Disposal.giveBack]
  rw [Handles.give_take hmap, Handles.give_take hfree]

end GivingBack

/-! ## The steps -/

theorem errnum_setErr (w : World) (e : ℕ+) : (w.setErr e).dev.errnum ≠ 0 := by
  change (e : ℤ) ≠ 0
  exact_mod_cast e.ne_zero

theorem gemNew_of_error {e : ℕ+} (hz : w.dev.errnum = 0) (h : sys.gemNew held fd size = .error e) :
    gemNew sys fd size held w = (⟨size, 0, 0⟩, w.setErr e) := by
  rw [gemNew, if_pos hz, h]

theorem gemNew_of_ok {made : U32 × ℕ} (hz : w.dev.errnum = 0)
    (h : sys.gemNew held fd size = .ok made) :
    gemNew sys fd size held w = (⟨size, made.1, made.2⟩, w) := by
  rw [gemNew, if_pos hz, h]

theorem mapGem_of_error {e : ℕ+} (args : GemNew) (hz : w.dev.errnum = 0)
    (h : sys.mmap held args.size fd args.offset = .error e) :
    mapGem sys fd args held w = (mapFailed A, held, w.setErr e) := by
  rw [mapGem, if_pos hz, h]

theorem mapGem_of_ok (args : GemNew) (hz : w.dev.errnum = 0)
    (h : sys.mmap held args.size fd args.offset = .ok base) :
    mapGem sys fd args held w =
      (base, held.take (.map base args.size) (.memory fd args.offset), w) := by
  rw [mapGem, if_pos hz, h]

theorem gemNew_of_err (he : w.dev.errnum ≠ 0) : gemNew sys fd size held w = (⟨size, 0, 0⟩, w) :=
  if_neg he

theorem mapGem_of_err (he : w.dev.errnum ≠ 0) (args : GemNew) :
    mapGem sys fd args held w = (0, held, w) := if_neg he

theorem setUpTensors_of_err (he : w.dev.errnum ≠ 0) (kernels : GemNew) (kernelsBase : ℕ) :
    setUpTensors sys dos fd kernels kernelsBase held w =
      settle (A := A) dos fd kernels ⟨tensorMemorySize, 0, 0⟩ kernelsBase 0 held w := by
  simp only [setUpTensors, gemNew_of_err he, mapGem_of_err he]

theorem setUpMemories_of_err (he : w.dev.errnum ≠ 0) :
    setUpMemories sys dos fd held w =
      settle (A := A) dos fd ⟨kernelMemorySize, 0, 0⟩ ⟨tensorMemorySize, 0, 0⟩ 0 0 held w := by
  simp only [setUpMemories, gemNew_of_err he, mapGem_of_err he, setUpTensors_of_err he]

/-! ## A device that is set up -/

/-- A mapping of whole pages, inside the address space. -/
def Placed (A : Abi) (base size : ℕ) : Prop := 0 < base ∧ 4096 ∣ base ∧ base + size < A.modulus

theorem Placed.mapped (h : Placed A base size) (hs : 0 < size) : base ≠ 0 ∧ base ≠ mapFailed A := by
  obtain ⟨hpos, -, hlt⟩ := h
  simp only [mapFailed]
  omega

theorem poolInit_placed (c : CacheLine A cachelineSize) (h : Placed A base kernelMemorySize)
    (m : Mem) :
    ∃ q, poolInit A m base kernelMemorySize (wordSize * kernelSize) wordSize = some q := by
  obtain ⟨hpos, hpage, hlt⟩ := h
  have hword : wordSize ∣ base := (show wordSize ∣ 4096 by decide).trans hpage
  have hround : roundUp base wordSize = base := by
    rw [roundUp, if_pos (Nat.mod_eq_zero_of_dvd hword)]
  have hchunk : roundUp (wordSize * kernelSize) wordSize = 320 := by decide
  have hsize : kernelMemorySize = 40960 := rfl
  let B : PoolBacking A :=
    { data := base
      size := kernelMemorySize
      chunk := wordSize * kernelSize
      alignment := wordSize
      data_pos := hpos
      bound := hlt
      pow2 := ⟨2, rfl⟩
      alignment_lt := by simp only [wordSize]; omega
      room := by rw [hround, hchunk]; omega }
  have hheader := c.header
  have hacc : A.sizeofPoolNode ≤ B.chunkSize ∧ B.chunkSize ≤ B.length := by
    simp only [B, PoolBacking.chunkSize, PoolBacking.length, PoolBacking.start, hround, hchunk,
      Abi.sizeofPoolNode, Abi.sizeofHeader, cachelineSize] at hheader ⊢
    omega
  exact ⟨_, (poolInit_eq B m).trans (if_pos hacc)⟩

/-- What a device that was just set up is like. -/
structure Filled (fd : ℤ) (kernelsBase tensorsBase : ℕ) (w w' : World) : Prop where
  fixed : w'.fixed = ⟨fd, tensorsBase, kernelsBase, true, .none⟩
  errnum : w'.dev.errnum = w.dev.errnum
  slots : w'.slots = ⟨fun _ => .zero, w.log⟩

theorem fillDev_ok (c : CacheLine A cachelineSize) (fd : ℤ) (kernels tensors : GemNew) {kb tb : ℕ}
    (hk : Placed A kb kernelMemorySize) (ht : Placed A tb tensorMemorySize) (w : World) :
    ∃ w', fillDev (A := A) fd kernels tensors kb tb w = .ok w' ∧ Filled fd kb tb w w' := by
  let M : Mapping A := ⟨tb, ht.1, ht.2.1, ht.2.2⟩
  have hlist (h : Heap) : freeListInit A h tb tensorMemorySize = some (freeListFreeAll A
      { h with fl := { h.fl with data := tb, size := tensorMemorySize } }) :=
    freeListInit_eq (M := M) c h
  obtain ⟨q, hq⟩ := poolInit_placed c hk w.mem
  simp only [fillDev, hq, World.orAbort, ok_bind, hlist]
  exact ⟨_, rfl, rfl, rfl, rfl⟩

section SettingUp

variable (sys : System A) (c : CacheLine A cachelineSize) (hdos : Willing dos)
  (hi : w.dev.initialized = false) (hz : w.dev.errnum = 0) (hfd : fd ≠ -1)
  (hfree : held.Free (.fd fd)) (e : DirEntry)

include c hdos hi hz hfd hfree

theorem setUpTensors_spec {kernels : U32 × ℕ} {kb : ℕ}
    (hkm : sys.mmap (held.take (.fd fd) (.accel e)) kernelMemorySize fd kernels.2 = .ok kb)
    {mapped : Held}
    (hmapped : mapped = (held.take (.fd fd) (.accel e)).take (.map kb kernelMemorySize)
      (.memory fd kernels.2)) : ∃ w' held',
      setUpTensors sys dos fd ⟨kernelMemorySize, kernels.1, kernels.2⟩ kb mapped w =
        .ok (w', held') ∧
      ((∃ tensors tb, sys.gemNew mapped fd tensorMemorySize = .ok tensors ∧
          sys.mmap mapped tensorMemorySize fd tensors.2 = .ok tb ∧ Filled fd kb tb w w' ∧
          held' = mapped.take (.map tb tensorMemorySize) (.memory fd tensors.2)) ∨
        (∀ tensors tb, sys.gemNew mapped fd tensorMemorySize = .ok tensors →
          sys.mmap mapped tensorMemorySize fd tensors.2 ≠ .ok tb) ∧ Undone held w' held') := by
  have hkp : Placed A kb kernelMemorySize := sys.map_placed hkm
  have hkb := hkp.mapped (show 0 < kernelMemorySize by decide)
  have hkfree := sys.map_free hkm
  cases ht : sys.gemNew mapped fd tensorMemorySize with
  | error err =>
    have he := errnum_setErr w err
    refine ⟨w.setErr err, held, ?_, .inr ⟨nofun, hi, he, rfl⟩⟩
    simp only [setUpTensors, gemNew_of_error hz ht, mapGem_of_err he]
    rw [hmapped]
    exact settle_kernels (w := w.setErr err) hi he hdos hfd hfree (.inl rfl) hkb hkfree
  | ok tensors =>
  cases htm : sys.mmap mapped tensorMemorySize fd tensors.2 with
  | error err =>
    have he := errnum_setErr w err
    refine ⟨w.setErr err, held, ?_, .inr ⟨?_, hi, he, rfl⟩⟩
    · simp only [setUpTensors, gemNew_of_ok hz ht,
        mapGem_of_error ⟨tensorMemorySize, tensors.1, tensors.2⟩ hz htm]
      rw [hmapped]
      exact settle_kernels (w := w.setErr err) hi he hdos hfd hfree (.inr rfl) hkb hkfree
    · rintro _ tb ⟨⟩ hm
      cases htm.symm.trans hm
  | ok tb =>
    obtain ⟨w', hfill, hw'⟩ := fillDev_ok c fd ⟨kernelMemorySize, kernels.1, kernels.2⟩
      ⟨tensorMemorySize, tensors.1, tensors.2⟩ hkp (sys.map_placed htm) w
    refine ⟨w', _, ?_, .inl ⟨tensors, tb, rfl, htm, hw', rfl⟩⟩
    simp only [setUpTensors, gemNew_of_ok hz ht,
      mapGem_of_ok ⟨tensorMemorySize, tensors.1, tensors.2⟩ hz htm, settle, hz, if_true, hfill]
    rfl

/-- Both memories are mapped, or the device is closed again. -/
theorem setUpMemories_spec : ∃ w' held',
      setUpMemories sys dos fd (held.take (.fd fd) (.accel e)) w = .ok (w', held') ∧
      ((∃ o : Opened, o.entry = e ∧ o.fd = fd ∧ Maps sys held o ∧
          Filled fd o.kernelsBase o.tensorsBase w w' ∧ held' = o.withTensors held) ∨
        (∀ o : Opened, o.entry = e → o.fd = fd → ¬ Maps sys held o) ∧ Undone held w' held') := by
  cases hk : sys.gemNew (held.take (.fd fd) (.accel e)) fd kernelMemorySize with
  | error err =>
    have he := errnum_setErr w err
    refine ⟨w.setErr err, held, ?_, .inr ⟨?_, hi, he, rfl⟩⟩
    · simp only [setUpMemories, gemNew_of_error hz hk, mapGem_of_err he, setUpTensors_of_err he]
      exact settle_device (w := w.setErr err) hi he hdos hfd hfree (.inl rfl) (.inl rfl)
    · rintro o rfl rfl hm
      cases hk.symm.trans hm.kernels
  | ok kernels =>
  cases hkm : sys.mmap (held.take (.fd fd) (.accel e)) kernelMemorySize fd kernels.2 with
  | error err =>
    have he := errnum_setErr w err
    refine ⟨w.setErr err, held, ?_, .inr ⟨?_, hi, he, rfl⟩⟩
    · simp only [setUpMemories, gemNew_of_ok hz hk,
        mapGem_of_error ⟨kernelMemorySize, kernels.1, kernels.2⟩ hz hkm, setUpTensors_of_err he]
      exact settle_device (w := w.setErr err) hi he hdos hfd hfree (.inl rfl) (.inr rfl)
    · rintro o rfl rfl hm
      obtain rfl := Except.ok.inj (hk.symm.trans hm.kernels)
      cases hkm.symm.trans hm.kernelsMap
  | ok kb =>
    obtain ⟨w', held', hset, hcases⟩ := setUpTensors_spec sys c hdos hi hz hfd hfree e hkm rfl
    refine ⟨w', held', ?_, ?_⟩
    · simp only [setUpMemories, gemNew_of_ok hz hk,
        mapGem_of_ok ⟨kernelMemorySize, kernels.1, kernels.2⟩ hz hkm]
      exact hset
    · rcases hcases with ⟨tensors, tb, ht, htm, hfill, hheld⟩ | ⟨hfails, hundone⟩
      · exact .inl ⟨⟨e, fd, kernels, kb, tensors, tb⟩, rfl, rfl, ⟨hk, hkm, ht, htm⟩, hfill, hheld⟩
      · refine .inr ⟨?_, hundone⟩
        rintro o rfl rfl hm
        obtain rfl := Except.ok.inj (hk.symm.trans hm.kernels)
        obtain rfl := Except.ok.inj (hkm.symm.trans hm.kernelsMap)
        exact hfails o.tensors o.tensorsBase hm.tensors hm.tensorsMap

end SettingUp

theorem setUp_spec (sys : System A) (c : CacheLine A cachelineSize) (hdos : Willing dos)
    (hi : w.dev.initialized = false) (hz : w.dev.errnum = 0) (whichStrela : U32) (held : Held) :
    ∃ w' held', setUp sys dos whichStrela held w = .ok (w', held') ∧
      ((∃ o, Succeeds sys whichStrela.toNat held o ∧
          Filled o.fd o.kernelsBase o.tensorsBase w w' ∧ held' = o.withTensors held) ∨
        GivesUp sys whichStrela.toNat held w' held') := by
  unfold setUp
  rw [findDevice_eq]
  cases hdev : sys.devices[whichStrela.toNat]? with
  | none =>
    have he := errnum_setErr w enodev
    refine ⟨w.setErr enodev, held, ?_, .inr ⟨⟨hi, he, rfl⟩, ?_⟩⟩
    · simp only [System.opens, if_true, setUpMemories_of_err he]
      exact settle_nothing (w := w.setErr enodev) hi he
    · intro o ho
      cases hdev.symm.trans ho.entry
  | some e =>
    have hne := nextFd_ne sys (held.take (.dir (sys.nextDir held)) .listing)
    have hfree := (sys.fd_free (held.take (.dir (sys.nextDir held)) .listing)).of_take
    obtain ⟨w', held', hset, hcases⟩ := setUpMemories_spec sys c hdos hi hz hne hfree e
    refine ⟨w', held', ?_, ?_⟩
    · refine Eq.trans ?_ hset
      exact congrArg (setUpMemories sys dos _ _) (if_neg hne)
    · rcases hcases with ⟨o, rfl, hfd, hm, hfill, hheld⟩ | ⟨hfails, hundone⟩
      · exact .inl ⟨o, ⟨hm, hdev, hfd.symm⟩, hfd ▸ hfill, hheld⟩
      · refine .inr ⟨hundone, fun o ho => ?_⟩
        obtain rfl := Option.some.inj (hdev.symm.trans ho.entry)
        exact hfails o rfl ho.fd.symm ho.toMaps

/-! ## The whole call -/

theorem releaseEach_of_free (hi : w.dev.initialized = true) (hfree : ∀ i, (w.slot i).phase = .free)
    (is : List SlotId) : releaseEach os is w = .ok w := by
  induction is with
  | nil => rfl
  | cons i is ih =>
    have hrelease : strelaJobSlotRelease os i w = .ok w := by
      simp [strelaJobSlotRelease, strelaJobSlotFinish, hi, hfree i]
    rw [releaseEach, hrelease, ok_bind, ih]

theorem strelaDevInit_of_free (A : Abi) (os : Os) (hi : w.dev.initialized = true)
    (hfree : ∀ i, (w.slot i).phase = .free) :
    strelaDevInit A os w = .ok (strelaKernelFreeAll A (strelaBufferFreeAll A (w.setErr 0))) := by
  have hjobs : strelaJobFreeAll os (w.setErr 0) = .ok (w.setErr 0) := by
    unfold strelaJobFreeAll
    split
    · exact releaseEach_of_free (w := w.setErr 0) hi hfree _
    · rfl
  rw [strelaDevInit, hjobs, ok_bind]

theorem Filled.strelaDevInit {kb tb : ℕ} (h : Filled fd kb tb w w') (hz : w.dev.errnum = 0)
    (A : Abi) (os : Os) : ∃ w'', strelaDevInit A os w' = .ok w'' ∧ Filled fd kb tb w w'' := by
  have hi : w'.dev.initialized = true := congrArg Fixed.initialized h.fixed
  have hslot (i : SlotId) : w'.slot i = .zero := congrFun (congrArg Slots.jobs h.slots) i
  have hfree (i : SlotId) : (w'.slot i).phase = .free := by rw [hslot]; rfl
  have hinit := strelaDevInit_of_free A os hi hfree
  refine ⟨_, hinit, (strelaDevInit_releases hinit).1.trans h.fixed, ?_, ?_⟩
  · rw [freeAll_errnum, hz]
    rfl
  · exact (freeAll_slots A _).trans h.slots

/-- Either the device is set up with what was opened, or nothing is left open. -/
theorem strelaDevInitWhich_spec (sys : System A) (os : Os) (c : CacheLine A cachelineSize)
    (hdos : Willing dos)
    (hi : w.dev.initialized = false) {whichStrela : U32} (hn : whichStrela.toNat < deviceMax)
    (held : Held) : ∃ w' held', strelaDevInitWhich sys os dos whichStrela held w = .ok (w', held') ∧
      ((∃ o, Succeeds sys whichStrela.toNat held o ∧
          Filled o.fd o.kernelsBase o.tensorsBase (w.setErr 0) w' ∧ held' = o.withTensors held) ∨
        GivesUp sys whichStrela.toNat held w' held') := by
  have hi₀ : (w.setErr 0).dev.initialized = false := hi
  obtain ⟨w₁, held₁, hset, hcases⟩ := setUp_spec sys c hdos hi₀ rfl whichStrela held
  simp only [strelaDevInitWhich, ge_iff_le, Nat.not_le.mpr hn, if_false, hi₀, Bool.false_eq_true,
    not_false_eq_true, if_true, hset, ok_bind]
  rcases hcases with ⟨o, ho, hfill, hheld⟩ | hgives
  · obtain ⟨w₂, hinit, hfill₂⟩ := hfill.strelaDevInit rfl A os
    have hi₁ : w₁.dev.initialized = true := congrArg Fixed.initialized hfill.fixed
    have hi₂ : w₂.dev.initialized = true := congrArg Fixed.initialized hfill₂.fixed
    have hz₁ : w₁.dev.errnum = 0 := hfill.errnum
    have hz₂ : w₂.dev.errnum = 0 := hfill₂.errnum
    refine ⟨w₂, held₁, ?_, .inl ⟨o, ho, hfill₂, hheld⟩⟩
    simp [hi₁, hz₁, hinit, hz₂, hi₂]
  · refine ⟨w₁, held₁, ?_, .inr hgives⟩
    simp [hgives.initialized, hgives.errnum]

/-- Counting, finding and setting up agree on the devices, and leave open what they should. -/
theorem strelaDevInitWhich_agrees (hA : A = .arm32 ∨ A = .lp64) (sys : System A) (os : Os)
    (hdos : Willing dos) (hi : w.dev.initialized = false) {whichStrela : U32}
    (hn : whichStrela.toNat < deviceMax) (held : Held) :
    (∃ r, strelaDevCount sys held = ((r, BitVec.ofNat 32 sys.devices.length), held)) ∧
    findDevice sys whichStrela held = sys.opens held sys.devices[whichStrela.toNat]? ∧
    ((findDevice sys whichStrela held).1 ≠ -1 ↔ whichStrela.toNat < sys.devices.length) ∧
    (sys.devices.length < 2 ^ 32 → ((findDevice sys whichStrela held).1 ≠ -1 ↔
      whichStrela.toNat < (strelaDevCount sys held).1.2.toNat)) ∧
    ∃ w' held', strelaDevInitWhich sys os dos whichStrela held w = .ok (w', held') ∧
      ((∃ o, SetsUp sys whichStrela.toNat held w' held' o) ∨
        GivesUp sys whichStrela.toNat held w' held') := by
  have c := cacheLine_of_target hA
  have hfound := findDevice_found_iff sys whichStrela held
  obtain ⟨r, hcount⟩ := strelaDevCount_eq sys held
  refine ⟨⟨r, hcount⟩, findDevice_eq sys whichStrela held, hfound, fun hlt => ?_, ?_⟩
  · rw [hfound, hcount, BitVec.toNat_ofNat, Nat.mod_eq_of_lt hlt]
  · obtain ⟨w', held', hex, hcases⟩ := strelaDevInitWhich_spec sys os c hdos hi hn held
    refine ⟨w', held', hex, hcases.imp_left ?_⟩
    rintro ⟨o, ho, hfill, hheld⟩
    have hfixed := hfill.fixed
    exact ⟨o, ho, congrArg Fixed.initialized hfixed, hfill.errnum, congrArg Fixed.fd hfixed,
      congrArg Fixed.kernelsBoMap hfixed, congrArg Fixed.tensorsBoMap hfixed, hheld⟩

/-! ### Some directories -/

def Handle.number : Handle → ℕ
  | .fd n => n.natAbs
  | .dir n => n
  | .map base _ => base

/-- More than the number of any handle in use. -/
def Held.bound (held : Held) : ℕ := (held.map fun p => p.1.number).sum + 1

theorem Held.free_of_bound {h : Handle} (hh : Held.bound held ≤ h.number) : held.Free h := by
  intro u hu
  have hle : h.number ≤ (held.map fun p => p.1.number).sum :=
    List.le_sum_of_mem (List.mem_map_of_mem (f := fun p => p.1.number) hu)
  rw [Held.bound] at hh
  omega

def Held.page (held : Held) : ℕ := 4096 * Held.bound held

def enomem : ℕ+ := Nat.toPNat' 12

/-- A machine with the given directory, whose devices do all they are asked for. -/
def listed (es : List DirEntry) : System Abi.arm32 where
  opendir := .ok (es, 0)
  nextDir := Held.bound
  nextFd held := (Held.bound held : ℤ)
  gemNew _ _ _ := .ok (1, 4096)
  mmap held size _ _ :=
    if Held.page held + size < Abi.arm32.modulus then .ok (Held.page held) else .error enomem
  dir_free _ := Held.free_of_bound le_rfl
  fd_free _ := Held.free_of_bound (Int.natAbs_natCast _).ge
  fd_nonneg _ := Int.natCast_nonneg _
  map_free {held size _ _ base} h := by
    split at h
    · obtain rfl := Except.ok.inj h
      exact Held.free_of_bound (Nat.le_mul_of_pos_left _ (by decide))
    · cases h
  map_placed {held size _ _ base} h := by
    split at h
    · rename_i hlt
      obtain rfl := Except.ok.inj h
      exact ⟨Nat.mul_pos (by decide) (Nat.succ_pos _), dvd_mul_right _ _, hlt⟩
    · cases h

def strelaEntry : DirEntry where
  name := ['a', 'c', 'c', 'e', 'l', '1']
  opened := .ok ()
  version := .ok ⟨strelaDrmName, by decide⟩

def rocketEntry : DirEntry where
  name := ['a', 'c', 'c', 'e', 'l', '0']
  opened := .ok ()
  version := .ok ⟨['r', 'o', 'c', 'k', 'e', 't'], by decide⟩

/-- The directory itself, which cannot be opened for writing. -/
def dotEntry : DirEntry where
  name := ['.']
  opened := .error (Nat.toPNat' 21)
  version := .error enodev

/-- The second entry is the first device. -/
theorem strelaDevInitWhich_agrees_listed : ∃ w' held' o,
    strelaDevInitWhich (listed [dotEntry, rocketEntry, strelaEntry]) promptOs
      (fun _ _ => .ok 0) 0 [] ⟨.zero, fun _ => 0, []⟩ = .ok (w', held') ∧
    SetsUp (listed [dotEntry, rocketEntry, strelaEntry]) 0 [] w' held' o := by
  have hdos : Willing fun _ _ => .ok 0 := fun _ _ => ⟨0, rfl⟩
  have hn : (0 : U32).toNat < deviceMax := by decide
  obtain ⟨-, -, -, -, w', held', hex, ⟨o, ho⟩ | hgives⟩ := strelaDevInitWhich_agrees (.inl rfl)
    (listed [dotEntry, rocketEntry, strelaEntry]) promptOs hdos (w := ⟨.zero, fun _ => 0, []⟩) rfl
    hn []
  · exact ⟨w', held', o, hex, ho⟩
  · exact absurd ⟨⟨rfl, rfl, rfl, rfl⟩, rfl, rfl⟩
      (hgives.fails ⟨strelaEntry, 2, (1, 4096), 12288, (1, 4096), 50343936⟩)

end Strela.Lib
