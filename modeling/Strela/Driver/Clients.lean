import Strela.Foundation.Transition
import Strela.Foundation.Unwind
import Strela.Driver.References
import Strela.Driver.GemNew

/-! # Clients and the lifetime of their buffers

Every open file has a structure and a scheduler entity of its own. A buffer object lives
until its last handle is closed and the last call or job that looked it up has put its
reference, in whatever order that happens, and its memory is given back as it was taken:
with the same size, address and direction. Any call of the kernel may fail.
-/

namespace Strela.Driver.Clients

open Foundation Foundation.Proc

/-- Of a client its structure and its entity; of a buffer object its structure, the object in it
that DRM knows, and its memory with all that it was allocated by. -/
inductive Resource (w : ℕ)
  | priv (file : FileId)
  | entity (file : FileId)
  | dmaObj (o : ObjId)
  | base (o : ObjId)
  | dma (o : ObjId) (size : U64) (addr : BitVec w) (dir : Direction)
  deriving DecidableEq, Repr

inductive Rests {w : ℕ} : Resource w → Resource w → Prop
  | entity {file : FileId} : Rests (.entity file) (.priv file)
  | base {o : ObjId} : Rests (.base o) (.dmaObj o)
  | dma {o : ObjId} {size : U64} {addr : BitVec w} {dir : Direction} :
      Rests (.dma o size addr dir) (.base o)

/-- The open files, the handles and the counts, what each object was made with, and the references
that calls and jobs hold. -/
structure State (w : ℕ) where
  files : List FileId
  gem : Gem
  objs : ObjId → GemObject w
  holds : List ObjId

abbrev ClientProc (w : ℕ) (α : Type) := Proc (State w) (Resource w) Errno α

variable {z w : ℕ}

def State.dma (s : State w) (o : ObjId) : Resource w :=
  .dma o (s.objs o).size (s.objs o).dmaAddr .bidirectional

/-- A new object, with the reference that `drm_gem_object_init` leaves to the call that makes it. -/
def State.make (s : State w) (o : ObjId) (object : GemObject w) : State w :=
  { s with
    gem := { s.gem with objects := o :: s.gem.objects, refs := Function.update s.gem.refs o 1 }
    objs := Function.update s.objs o object
    holds := o :: s.holds }

def State.addHandle (s : State w) (file : FileId) (handle : U32) (o : ObjId) : State w :=
  { s with gem := { s.gem with
      handles := ((file, handle), o) :: s.gem.handles
      refs := Function.update s.gem.refs o (s.gem.refs o + 1) } }

/-! ## The driver -/

def strelaOpenFile (file : FileId) (kzalloc : Bool) (entityInit : Except Errno Unit) :
    ClientProc w Unit := do
  take (.priv file) (if kzalloc then .ok () else .error .enomem)
  orElseDo (take (.entity file) entityInit) (give (.priv file))
  modify fun s => { s with files := file :: s.files }

def strelaPostclose (file : FileId) : ClientProc w Unit := do
  give (.entity file)
  give (.priv file)
  modify fun s => { s with files := s.files.erase file }

def strelaGemFree (o : ObjId) : ClientProc w Unit := do
  let s ← read
  use (.base o)
  give (s.dma o)
  give (.base o)
  give (.dmaObj o)

/-- The object is freed with its last reference. -/
def drmGemObjectPut (o : ObjId) : ClientProc w Unit := do
  let s ← read
  modify fun s => { s with gem := s.gem.put (some o) }
  if s.gem.refs o ≤ 1 then strelaGemFree o else pure ()

def release (o : ObjId) : ClientProc w Unit := do
  modify fun s => { s with holds := s.holds.erase o }
  drmGemObjectPut o

section

variable (kernel : GemKernel z w)

def strelaGemCreate (size : BitVec z) : ClientProc w (GemObject w) := do
  take (.dmaObj kernel.obj) (if kernel.kzalloc then .ok () else .error .enomem)
  orElseDo (take (.base kernel.obj) (kernel.objectInit size)) (give (.dmaObj kernel.obj))
  orElseDo
    (do
      ask (kernel.createMmapOffset size)
      match kernel.dmaAlloc size with
      | none => ask (.error .enomem)
      | some addr => do
        take (.dma kernel.obj (size.setWidth 64) addr .bidirectional) (.ok ())
        if kernel.mappingError addr then do
          give (.dma kernel.obj (size.setWidth 64) addr .bidirectional)
          ask (.error .enomem)
        else do
          modify fun s => s.make kernel.obj ⟨size.setWidth 64, addr⟩
          pure ⟨size.setWidth 64, addr⟩)
    (do
      give (.base kernel.obj)
      give (.dmaObj kernel.obj))

/-- `strela_gem_new_ioctl` up to the handle, which others may close from then on. -/
def gemNewHandle (file : FileId) (args : GemNewArgs) : ClientProc w (Made w) := do
  ask (if args.flags ≠ 0 then .error .einval else .ok ())
  ask (if args.size = 0 ∨ ¬ isAligned args.size wordSize then .error .einval else .ok ())
  let object ← strelaGemCreate kernel ((pageAlign args.size).setWidth z)
  let handle ← orElseDo (ask kernel.handleCreate) (release kernel.obj)
  modify fun s => s.addHandle file handle kernel.obj
  pure ⟨object, handle, kernel.nodeOffset⟩

def strelaGemNewIoctl (file : FileId) (args : GemNewArgs) : ClientProc w (Made w) := do
  let made ← gemNewHandle kernel file args
  release kernel.obj
  pure made

end

/-! ## The rest of the kernel -/

def drmGemHandleDelete (file : FileId) (handle : U32) : ClientProc w Unit := do
  let s ← read
  match s.gem.handles.lookup (file, handle) with
  | none => ask (.error .einval)
  | some o => do
    modify fun s => { s with gem := { s.gem with
      handles := s.gem.handles.eraseP fun h => h.1 == (file, handle) } }
    drmGemObjectPut o

def drmGemObjectLookup (file : FileId) (handle : U32) : ClientProc w Unit := do
  let s ← read
  match s.gem.handles.lookup (file, handle) with
  | none => ask (.error .enoent)
  | some o => do
    use (.base o)
    modify fun s => { s with gem := (s.gem.lookup file handle).2, holds := o :: s.holds }

/-- Whoever holds a reference may sync the memory, or let the device at it. -/
def access (o : ObjId) : ClientProc w Unit := do
  let s ← read
  use (s.dma o)

/-- The handles of a file are closed before the driver hears of it. -/
def drmFileFree (file : FileId) : ClientProc w Unit := do
  let s ← read
  modify fun s => { s with gem := { s.gem with
    handles := s.gem.handles.filter fun h => h.1.1 ≠ file } }
  each (fun h => drmGemObjectPut h.2) (s.gem.handles.filter fun h => h.1.1 = file)
  strelaPostclose file

/-! ## What is held -/

/-- What is held with these files open and these references. -/
def Owned (s : State w) : Resource w → Prop
  | .priv file | .entity file => file ∈ s.files
  | .dmaObj o | .base o => 0 < s.gem.refs o
  | .dma o size addr dir => 0 < s.gem.refs o ∧ .dma o size addr dir = s.dma o

def State.owned (s : State w) (o : ObjId) : ℕ := s.gem.handleRefs o + s.holds.count o

/-- The counts are those of the given owners, and what is held goes by the counts. -/
structure Stocked (s : State w) (R : ObjId → ℕ) (H : Set (Resource w)) : Prop where
  balanced : Balanced s.gem R
  held : ∀ k, k ∈ H ↔ Owned s k
  nodup : s.files.Nodup

structure Tidy (s : State w) (H : Set (Resource w)) : Prop where
  stocked : Stocked s s.owned H
  handles : ∀ h ∈ s.gem.handles, h.1.1 ∈ s.files

variable {s : State w} {H : Set (Resource w)} {R A : ObjId → ℕ} {o : ObjId} {file : FileId}
  {T : Unit → State w → Set (Resource w) → Prop} {E : Errno → State w → Set (Resource w) → Prop}

theorem wp_strelaGemFree (hbase : .base o ∈ H) (hobj : .dmaObj o ∈ H) (hdma : s.dma o ∈ H)
    (hone : ∀ size addr dir, .dma o size addr dir ∈ H → .dma o size addr dir = s.dma o)
    (h : T () s (((H \ {s.dma o}) \ {.base o}) \ {.dmaObj o})) :
    wp (Orderly Rests) (strelaGemFree o) T E s H := by
  have hbase' : Resource.base o ∈ H \ {s.dma o} := ⟨hbase, by simp [State.dma]⟩
  have hobj' : Resource.dmaObj o ∈ (H \ {s.dma o}) \ {.base o} :=
    ⟨⟨hobj, by simp [State.dma]⟩, by simp⟩
  refine wp_bind (wp_read (wp_bind (wp_use hbase (wp_bind (wp_give hdma nofun (wp_bind
    (wp_give hbase' ?_ (wp_give hobj' ?_ h))))))))
  · rintro k ⟨hk, hne⟩ hrest
    cases hrest
    exact hne (hone _ _ _ hk)
  · rintro k ⟨-, hne⟩ hrest
    cases hrest
    exact hne rfl

theorem wp_drmGemObjectPut (h : Stocked s R H)
    (hR : ∀ x, R x = A x + if some o = some x then 1 else 0)
    (hT : ∀ s' H', Stocked s' A H' → s'.files = s.files → s'.holds = s.holds →
      s'.gem.handles = s.gem.handles → T () s' H') :
    wp (Orderly Rests) (drmGemObjectPut o) T E s H := by
  have hpos : 0 < s.gem.refs o := by
    rw [h.balanced.count, hR, if_pos rfl]
    omega
  have hb := h.balanced.put_of hR
  refine wp_bind (wp_read (wp_bind (wp_modify ?_)))
  split
  · rename_i hlast
    have hone : s.gem.refs o = 1 := by omega
    refine wp_strelaGemFree ((h.held _).mpr hpos) ((h.held _).mpr hpos)
      ((h.held _).mpr ⟨hpos, rfl⟩) (fun size addr dir hk => ((h.held _).mp hk).2)
      (hT _ _ ⟨hb, fun k => ?_, h.nodup⟩ rfl rfl rfl)
    simp only [Set.mem_sdiff, Set.mem_singleton_iff, h.held]
    cases k with
    | priv file | entity file => simp [Owned, State.dma]
    | dmaObj x | base x =>
      rcases eq_or_ne x o with rfl | hne
      · simp [Owned, Gem.put, hone]
      · simp [Owned, State.dma, Gem.put, hne]
    | dma x size addr dir =>
      rcases eq_or_ne x o with rfl | hne
      · simp +contextual [Owned, State.dma, Gem.put, hone]
      · simp [Owned, State.dma, Gem.put, hne]
  · rename_i hmore
    refine wp_pure (hT _ _ ⟨hb, fun k => ?_, h.nodup⟩ rfl rfl rfl)
    have hsame (x : ObjId) : 0 < (s.gem.put (some o)).refs x ↔ 0 < s.gem.refs x := by
      rcases eq_or_ne x o with rfl | hne
      · simp only [Gem.put, Function.update_self]
        omega
      · simp [Gem.put, hne]
    rw [h.held]
    cases k <;> simp only [Owned, hsame, State.dma]

theorem Stocked.congr (h : Stocked s R H) (hR : ∀ x, R x = A x) : Stocked s A H :=
  ⟨h.balanced.congr hR, h.held, h.nodup⟩

theorem Tidy.notMem (h : Tidy s H) (ho : o ∉ s.gem.objects) :
    .dmaObj o ∉ H ∧ .base o ∉ H ∧ ∀ size addr dir, .dma o size addr dir ∉ H := by
  have hz := h.stocked.balanced.fresh o ho
  simp [h.stocked.held, Owned, hz]

theorem count_erase_add {l : List ObjId} (ho : o ∈ l) (x : ObjId) :
    l.count x = (l.erase o).count x + if some o = some x then 1 else 0 := by
  rw [(List.perm_cons_erase ho).count_eq, List.count_cons]
  simp

theorem Tidy.wp_release (h : Tidy s H) (ho : o ∈ s.holds)
    (hT : ∀ s' H', Tidy s' H' → T () s' H') : wp (Orderly Rests) (release o) T E s H := by
  refine wp_bind (wp_modify (wp_drmGemObjectPut (R := s.owned)
    (A := fun x => s.gem.handleRefs x + (s.holds.erase o).count x)
    ⟨h.stocked.balanced, h.stocked.held, h.stocked.nodup⟩ (fun x => ?_)
    fun s' H' hs hf hh hg => ?_))
  · rw [State.owned, count_erase_add ho]
    omega
  · refine hT s' H' ⟨hs.congr fun x => ?_, fun e he => ?_⟩
    · rw [State.owned, Gem.handleRefs, Gem.handleRefs, hg, hh]
    · rw [hf]
      exact h.handles e (hg ▸ he)

theorem Stocked.retain (h : Stocked s R H) (ho : 0 < R o) :
    Stocked { s with gem := { s.gem with
        refs := Function.update s.gem.refs o (s.gem.refs o + 1) } }
      (fun x => R x + if o = x then 1 else 0) H := by
  have hpos : 0 < s.gem.refs o := h.balanced.count o ▸ ho
  have hsame (x : ObjId) :
      0 < Function.update s.gem.refs o (s.gem.refs o + 1) x ↔ 0 < s.gem.refs x := by
    rcases eq_or_ne x o with rfl | hne
    · simp [hpos]
    · simp [hne]
  refine ⟨h.balanced.take ho, fun k => ?_, h.nodup⟩
  rw [h.held]
  cases k <;> simp only [Owned, hsame, State.dma]

theorem Tidy.addHandle (h : Tidy s H) (hf : file ∈ s.files) (ho : o ∈ s.holds) (handle : U32) :
    Tidy (s.addHandle file handle o) H := by
  have hpos : 0 < s.owned o := by
    have := List.count_pos_iff.mpr ho
    rw [State.owned]
    omega
  have hs := h.stocked.retain hpos
  constructor
  · refine ⟨⟨fun x => ?_, hs.balanced.fresh, hs.balanced.released⟩, hs.held, hs.nodup⟩
    refine (hs.balanced.count x).trans ?_
    simp only [State.owned, State.addHandle, Gem.handleRefs, List.countP_cons, beq_iff_eq]
    omega
  · intro e he
    rcases List.mem_cons.mp he with rfl | he
    · exact hf
    · exact h.handles e he

theorem Tidy.wp_drmGemObjectLookup (h : Tidy s H) (handle : U32)
    (hT : ∀ s' H', Tidy s' H' → T () s' H') (hE : ∀ e, E e s H) :
    wp (Orderly Rests) (drmGemObjectLookup file handle) T E s H := by
  refine wp_bind (wp_read ?_)
  split
  · exact wp_ask nofun fun e _ => hE e
  · rename_i o hl
    have hpos : 0 < s.owned o := by
      have := handleRefs_pos hl
      rw [State.owned]
      omega
    have hs := h.stocked.retain hpos
    have hbase : Resource.base o ∈ H := by
      rw [h.stocked.held, Owned, h.stocked.balanced.count]
      exact hpos
    refine wp_bind (wp_use hbase (wp_modify (hT _ _ ?_)))
    rw [Gem.lookup, hl]
    refine ⟨⟨⟨fun x => ?_, hs.balanced.fresh, hs.balanced.released⟩, hs.held, hs.nodup⟩, h.handles⟩
    refine (hs.balanced.count x).trans ?_
    simp only [State.owned, Gem.handleRefs, List.count_cons, beq_iff_eq]
    omega

theorem Tidy.wp_drmGemHandleDelete (h : Tidy s H) (handle : U32)
    (hT : ∀ s' H', Tidy s' H' → T () s' H') (hE : ∀ e, E e s H) :
    wp (Orderly Rests) (drmGemHandleDelete file handle) T E s H := by
  refine wp_bind (wp_read ?_)
  split
  · exact wp_ask nofun fun e _ => hE e
  · rename_i o hl
    refine wp_bind (wp_modify (wp_drmGemObjectPut (R := s.owned)
      (A := fun x =>
        (s.gem.handles.eraseP fun h => h.1 == (file, handle)).countP (fun h => h.2 == x) +
          s.holds.count x)
      ⟨⟨h.stocked.balanced.count, h.stocked.balanced.fresh, h.stocked.balanced.released⟩,
        h.stocked.held, h.stocked.nodup⟩ (fun x => ?_) fun s' H' hs hf hh hg => ?_))
    · have := countP_eraseP_lookup s.gem.handles (file, handle) x
      rw [hl] at this
      rw [State.owned, Gem.handleRefs]
      omega
    · refine hT s' H' ⟨hs.congr fun x => ?_, fun e he => ?_⟩
      · rw [State.owned, Gem.handleRefs, hg, hh]
      · rw [hf]
        rw [hg] at he
        exact h.handles e (List.mem_of_mem_eraseP he)

theorem Tidy.wp_access (h : Tidy s H) (ho : o ∈ s.holds) (hT : T () s H) :
    wp (Orderly Rests) (access o) T E s H := by
  have hpos : 0 < s.gem.refs o := by
    have := List.count_pos_iff.mpr ho
    rw [h.stocked.balanced.count, State.owned]
    omega
  exact wp_bind (wp_read (wp_use ((h.stocked.held _).mpr ⟨hpos, rfl⟩) hT))

/-! ## Creating an object -/

theorem Tidy.make (h : Tidy s H) (ho : o ∉ s.gem.objects) (object : GemObject w) :
    Tidy (s.make o object) (insert (.dma o object.size object.dmaAddr .bidirectional)
      (insert (.base o) (insert (.dmaObj o) H))) := by
  have hb := h.stocked.balanced
  have hz := hb.fresh o ho
  have hnone : s.owned o = 0 := hb.count o ▸ hz
  refine ⟨⟨⟨fun x => ?_, fun x hx => ?_, fun x => ?_⟩, fun k => ?_, h.stocked.nodup⟩, h.handles⟩
  · rcases eq_or_ne x o with rfl | hne
    · simp only [State.owned, Gem.handleRefs, State.make, Function.update_self,
        List.count_cons_self] at hnone ⊢
      omega
    · simpa [State.make, State.owned, Gem.handleRefs, hne, hne.symm] using hb.count x
  · simp only [State.make, List.mem_cons, not_or] at hx
    simpa [State.make, hx.1] using hb.fresh x hx.2
  · rcases eq_or_ne x o with rfl | hne
    · have hnr : x ∉ s.gem.released := fun hr => ho ((hb.released x).mp hr).1
      simpa [State.make] using hnr
    · simpa [State.make, hne] using hb.released x
  · simp only [Set.mem_insert_iff, h.stocked.held]
    cases k with
    | priv file | entity file => simp [Owned, State.make]
    | dmaObj x | base x =>
      rcases eq_or_ne x o with rfl | hne
      · simp [Owned, State.make]
      · simp [Owned, State.make, hne]
    | dma x size addr dir =>
      rcases eq_or_ne x o with rfl | hne
      · simp [Owned, State.make, State.dma, hz]
      · simp [Owned, State.make, State.dma, hne]

variable {kernel : GemKernel z w}

/-- However far the creation gets, what it took it gives back or leaves in the object. -/
theorem Tidy.wp_strelaGemCreate {Q : GemObject w → State w → Set (Resource w) → Prop}
    (h : Tidy s H) (ho : kernel.obj ∉ s.gem.objects) (size : BitVec z)
    (hQ : ∀ object H', Tidy (s.make kernel.obj object) H' → Q object (s.make kernel.obj object) H')
    (hE : ∀ e, E e s H) : wp (Orderly Rests) (strelaGemCreate kernel size) Q E s H := by
  obtain ⟨hobj, hbase, hdma⟩ := h.notMem ho
  have hbase' : Resource.base kernel.obj ∉ insert (.dmaObj kernel.obj) H := by simp [hbase]
  have hdma' (size : U64) (addr : BitVec w) (dir : Direction) :
      Resource.dma kernel.obj size addr dir ∉
        insert (.base kernel.obj) (insert (.dmaObj kernel.obj) H) := by
    simp [hdma]
  have hfree (e : Errno) : wp (Orderly Rests) (give (.dmaObj kernel.obj)) (fun _ => E e)
      (fun _ : Errno => E e) s (insert (.dmaObj kernel.obj) H) := by
    refine wp_give (Set.mem_insert _ _) ?_ ?_
    · rintro k hk hrest
      cases hrest
      exact hbase' hk
    · rw [Set.insert_sdiff_self_of_notMem hobj]
      exact hE e
  have hrelease (e : Errno) : wp (Orderly Rests)
      (do give (.base kernel.obj); give (.dmaObj kernel.obj)) (fun _ => E e)
      (fun _ : Errno => E e) s
      (insert (.base kernel.obj) (insert (.dmaObj kernel.obj) H)) := by
    refine wp_bind (wp_give (Set.mem_insert _ _) ?_ ?_)
    · rintro k hk hrest
      cases hrest
      exact hdma' _ _ _ hk
    · rw [Set.insert_sdiff_self_of_notMem hbase']
      exact hfree e
  refine wp_bind (wp_take hobj nofun (fun _ => ?_) fun e _ => hE e)
  refine wp_bind (wp_orElseDo (wp_take hbase' ?_ (fun _ => ?_) fun e _ => hfree e))
  · rintro k hrest
    cases hrest
    exact Set.mem_insert _ _
  · refine wp_orElseDo (wp_bind (wp_ask (fun _ _ => ?_) fun e _ => hrelease e))
    split
    · exact wp_ask nofun fun e _ => hrelease e
    · rename_i addr _
      refine wp_bind (wp_take (hdma' _ _ _) ?_ (fun _ => ?_) nofun)
      · rintro k hrest
        cases hrest
        exact Set.mem_insert _ _
      split
      · refine wp_bind (wp_give (Set.mem_insert _ _) nofun ?_)
        rw [Set.insert_sdiff_self_of_notMem (hdma' _ _ _)]
        exact wp_ask nofun fun e _ => hrelease e
      · exact wp_bind (wp_modify (wp_pure (hQ _ _ (h.make ho _))))

theorem Tidy.wp_gemNewHandle {Q : Made w → State w → Set (Resource w) → Prop} (h : Tidy s H)
    (ho : kernel.obj ∉ s.gem.objects) (hf : file ∈ s.files) (args : GemNewArgs)
    (hQ : ∀ made s' H', Tidy s' H' → Q made s' H') (hE : ∀ e s' H', Tidy s' H' → E e s' H') :
    wp (Orderly Rests) (gemNewHandle kernel file args) Q E s H := by
  have hfail (e : Errno) : E e s H := hE e s H h
  refine wp_bind (wp_ask (fun _ _ => ?_) fun e _ => hfail e)
  refine wp_bind (wp_ask (fun _ _ => ?_) fun e _ => hfail e)
  refine wp_bind (h.wp_strelaGemCreate ho _ (fun object H' hm => ?_) hfail)
  have hhold : kernel.obj ∈ (s.make kernel.obj object).holds := List.mem_cons_self
  refine wp_bind (wp_orElseDo (wp_ask (fun handle _ => ?_) fun e _ => ?_))
  · exact wp_bind (wp_modify (wp_pure (hQ _ _ _ (hm.addHandle hf hhold handle))))
  · exact hm.wp_release hhold (hE e)

/-! ## Opening and closing a file -/

theorem Tidy.wp_strelaOpenFile (h : Tidy s H) (hf : file ∉ s.files) (kzalloc : Bool)
    (entityInit : Except Errno Unit) (hT : ∀ s' H', Tidy s' H' → T () s' H')
    (hE : ∀ e, E e s H) :
    wp (Orderly Rests) (strelaOpenFile file kzalloc entityInit) T E s H := by
  have hpriv : Resource.priv file ∉ H := by simpa [h.stocked.held, Owned] using hf
  have hentity : Resource.entity file ∉ insert (.priv file) H := by
    simpa [h.stocked.held, Owned] using hf
  refine wp_bind (wp_take hpriv nofun (fun _ => ?_) fun e _ => hE e)
  refine wp_bind (wp_orElseDo (wp_take hentity ?_ (fun _ => ?_) fun e _ => ?_))
  · rintro k hrest
    cases hrest
    exact Set.mem_insert _ _
  · refine wp_modify (hT _ _ ⟨⟨h.stocked.balanced, fun k => ?_, ?_⟩, fun e he => ?_⟩)
    · simp only [Set.mem_insert_iff, h.stocked.held]
      cases k <;> simp [Owned, State.dma]
    · exact List.nodup_cons.mpr ⟨hf, h.stocked.nodup⟩
    · exact List.mem_cons_of_mem _ (h.handles e he)
  · refine wp_give (Set.mem_insert _ _) ?_ ?_
    · rintro k hk hrest
      cases hrest
      exact hentity hk
    · rw [Set.insert_sdiff_self_of_notMem hpriv]
      exact hE e

theorem Tidy.wp_strelaPostclose (h : Tidy s H) (hf : file ∈ s.files)
    (hh : ∀ e ∈ s.gem.handles, e.1.1 ≠ file) (hT : ∀ s' H', Tidy s' H' → T () s' H') :
    wp (Orderly Rests) (strelaPostclose file) T E s H := by
  have hpriv : Resource.priv file ∈ H \ {.entity file} :=
    ⟨(h.stocked.held _).mpr hf, by simp⟩
  refine wp_bind (wp_give ((h.stocked.held _).mpr hf) nofun (wp_bind (wp_give hpriv ?_
    (wp_modify (hT _ _ ⟨⟨h.stocked.balanced, fun k => ?_, h.stocked.nodup.erase file⟩,
      fun e he => ?_⟩)))))
  · rintro k ⟨-, hne⟩ hrest
    cases hrest
    exact hne rfl
  · simp only [Set.mem_sdiff, Set.mem_singleton_iff, h.stocked.held]
    cases k <;> simp [Owned, State.dma, h.stocked.nodup.mem_erase_iff, and_comm]
  · exact (List.mem_erase_of_ne (hh e he)).mpr (h.handles e he)

theorem Tidy.wp_drmFileFree (h : Tidy s H) (hf : file ∈ s.files)
    (hT : ∀ s' H', Tidy s' H' → T () s' H') :
    wp (Orderly Rests) (drmFileFree file) T E s H := by
  let kept := s.gem.handles.filter fun e => e.1.1 ≠ file
  have hkept (e) (he : e ∈ kept) : e ∈ s.gem.handles ∧ e.1.1 ≠ file := by simpa [kept] using he
  refine wp_bind (wp_read (wp_bind (wp_modify (wp_bind ?_))))
  refine wp_each (I := fun es s' H' => s'.files = s.files ∧ s'.gem.handles = kept ∧
    Stocked s' (fun x => s'.owned x + es.countP fun e => e.2 == x) H') ?_ _ ⟨rfl, rfl, ?_⟩ ?_
  · rintro e es s' H' ⟨hf', hg, hs⟩
    refine wp_drmGemObjectPut hs (A := fun x => s'.owned x + es.countP fun e => e.2 == x)
      (fun x => ?_) fun t K ht hft hht hgt => ⟨hft.trans hf', hgt.trans hg, ht.congr fun x => ?_⟩
    · simp only [List.countP_cons, beq_iff_eq, Option.some.injEq]
      omega
    · rw [State.owned, State.owned, Gem.handleRefs, Gem.handleRefs, hgt, hht]
  · have hb := h.stocked.balanced
    refine ⟨⟨fun x => (hb.count x).trans ?_, hb.fresh, hb.released⟩, h.stocked.held,
      h.stocked.nodup⟩
    have hsplit := List.countP_eq_countP_filter_add s.gem.handles (fun e => e.2 == x)
      fun e => decide (e.1.1 = file)
    simp only [State.owned, Gem.handleRefs, ne_eq, decide_not] at hsplit ⊢
    omega
  · rintro s' H' ⟨hf', hg, hs⟩
    have ht : Tidy s' H' := by
      refine ⟨hs.congr fun x => by simp, fun e he => ?_⟩
      rw [hg] at he
      rw [hf']
      exact h.handles e (hkept e he).1
    refine ht.wp_strelaPostclose (hf' ▸ hf) (fun e he => ?_) hT
    rw [hg] at he
    exact (hkept e he).2

/-! ## The same objects without their resources -/

theorem drmGemObjectPut_run (o : ObjId) (b : Books (State w) (Resource w)) :
    (drmGemObjectPut o b).1 = .ok () ∧
      (drmGemObjectPut o b).2.mem = { b.mem with gem := b.mem.gem.put (some o) } := by
  simp only [drmGemObjectPut, bind, Proc.read, Proc.modify]
  split
  · exact ⟨rfl, rfl⟩
  · exact ⟨rfl, rfl⟩

theorem release_run (o : ObjId) (b : Books (State w) (Resource w)) :
    (release o b).1 = .ok () ∧ (release o b).2.mem =
      { b.mem with holds := b.mem.holds.erase o, gem := b.mem.gem.put (some o) } :=
  drmGemObjectPut_run o ⟨{ b.mem with holds := b.mem.holds.erase o }, b.log⟩

theorem strelaGemCreate_run (kernel : GemKernel z w) (size : BitVec z)
    (b : Books (State w) (Resource w)) :
    (strelaGemCreate kernel size b).1 = Driver.strelaGemCreate kernel size ∧
    (strelaGemCreate kernel size b).2.mem =
      match Driver.strelaGemCreate kernel size with
      | .error _ => b.mem
      | .ok object => b.mem.make kernel.obj object := by
  simp only [strelaGemCreate, Driver.strelaGemCreate, bind, take, orElseDo, ask]
  cases kernel.kzalloc with
  | false => exact ⟨rfl, rfl⟩
  | true =>
    cases kernel.objectInit size with
    | error e => exact ⟨rfl, rfl⟩
    | ok =>
      cases kernel.createMmapOffset size with
      | error e => exact ⟨rfl, rfl⟩
      | ok =>
        cases kernel.dmaAlloc size with
        | none => exact ⟨rfl, rfl⟩
        | some addr =>
          cases hm : kernel.mappingError addr with
          | true => simp [hm, Except.bind, give]
          | false => simp [hm, Except.bind, Proc.modify, pure]

theorem make_put (hfresh : s.gem.refs o = 0) (object : GemObject w) :
    (s.make o object).gem.put (some o) = s.gem.createFail o := by
  simp [State.make, Gem.put, Gem.createFail, ← hfresh]

theorem make_addHandle_put {handle : U32} (s : State w) (object : GemObject w) :
    ((s.make o object).addHandle file handle o).gem.put (some o) =
      (s.gem.create file handle o).put (some o) := by
  simp [State.make, State.addHandle, Gem.put, Gem.create]

/-- The whole call gives the same answers and keeps the same counts as the model that leaves out the
resources. -/
theorem strelaGemNewIoctl_run {b : Books (State w) (Resource w)}
    (hfresh : b.mem.gem.refs kernel.obj = 0) (file : FileId) (args : GemNewArgs) :
    ((strelaGemNewIoctl kernel file args b).1, (strelaGemNewIoctl kernel file args b).2.mem.gem) =
      Driver.strelaGemNewIoctl kernel b.mem.gem file args := by
  simp only [strelaGemNewIoctl, gemNewHandle, Driver.strelaGemNewIoctl, bind, ask]
  by_cases hflags : args.flags = 0
  · by_cases hsize : args.size = 0 ∨ ¬ isAligned args.size wordSize
    · simp only [hflags, hsize, ne_eq, not_true_eq_false, if_true, if_false]
    · simp only [hflags, hsize, ne_eq, not_true_eq_false, if_false]
      obtain ⟨hres, hmem⟩ := strelaGemCreate_run kernel ((pageAlign args.size).setWidth z) b
      rcases hc : strelaGemCreate kernel ((pageAlign args.size).setWidth z) b with ⟨res, b'⟩
      rw [hc] at hres hmem
      dsimp only at hres hmem
      rw [← hres] at hmem ⊢
      cases res with
      | error e => exact congrArg (Prod.mk _) (congrArg State.gem hmem)
      | ok object =>
        dsimp only at hmem
        cases hh : kernel.handleCreate with
        | error e =>
          change (_, (release kernel.obj b').2.mem.gem) = _
          rw [(release_run kernel.obj b').2, hmem]
          exact congrArg (Prod.mk _) (make_put hfresh object)
        | ok handle =>
          obtain ⟨hok, hrun⟩ := release_run kernel.obj
            ⟨b'.mem.addHandle file handle kernel.obj, b'.log⟩
          simp only [orElseDo, ask, Proc.modify, pure]
          rcases hr : release kernel.obj ⟨b'.mem.addHandle file handle kernel.obj, b'.log⟩ with
            ⟨r, b''⟩
          rw [hr] at hok hrun
          dsimp only at hok hrun
          subst hok
          dsimp only
          rw [hrun, hmem]
          exact congrArg (Prod.mk _) (make_addHandle_put b.mem object)
  · simp only [hflags, ne_eq, not_false_eq_true, if_true]

/-! ## Runs -/

inductive ClientEvent
  | open (file : FileId)
  | close (file : FileId)
  | gemNew (file : FileId) (args : GemNewArgs)
  | gemClose (file : FileId) (handle : U32)
  | lookup (file : FileId) (handle : U32)
  | access (o : ObjId)
  | release (o : ObjId)
  deriving DecidableEq, Repr

/-- Any number of clients, of their calls and of their jobs. A call that makes an object returns by
putting its reference. -/
inductive ClientStep : Books (State w) (Resource w) → ClientEvent →
    Books (State w) (Resource w) → Prop
  | open {b : Books (State w) (Resource w)} {f : FileId} {kzalloc : Bool}
      {entityInit : Except Errno Unit} : f ∉ b.mem.files →
      ClientStep b (.open f) (strelaOpenFile f kzalloc entityInit b).2
  | close {b : Books (State w) (Resource w)} {f : FileId} : f ∈ b.mem.files →
      ClientStep b (.close f) (drmFileFree f b).2
  | gemNew {b : Books (State w) (Resource w)} {z : ℕ} {k : GemKernel z w} {f : FileId}
      {a : GemNewArgs} : f ∈ b.mem.files → k.obj ∉ b.mem.gem.objects →
      ClientStep b (.gemNew f a) (gemNewHandle k f a b).2
  | gemClose {b : Books (State w) (Resource w)} {f : FileId} {h : U32} :
      ClientStep b (.gemClose f h) (drmGemHandleDelete f h b).2
  | lookup {b : Books (State w) (Resource w)} {f : FileId} {h : U32} :
      ClientStep b (.lookup f h) (drmGemObjectLookup f h b).2
  | access {b : Books (State w) (Resource w)} {o : ObjId} : o ∈ b.mem.holds →
      ClientStep b (.access o) (Clients.access o b).2
  | release {b : Books (State w) (Resource w)} {o : ObjId} : o ∈ b.mem.holds →
      ClientStep b (.release o) (Clients.release o b).2

def State.probed : State w := ⟨[], ⟨[], [], fun _ => 0, []⟩, fun _ => ⟨0, 0⟩, []⟩

def clientLts (w : ℕ) : Lts (Books (State w) (Resource w)) ClientEvent where
  start b := b = ⟨.probed, []⟩
  step := ClientStep

variable {b b' : Books (State w) (Resource w)} {e : ClientEvent}

/-- The books between two steps. -/
def Kept (b : Books (State w) (Resource w)) : Prop :=
  Orderly Rests b.log ∧ Tidy b.mem (heldSet b.log)

theorem Kept.step (h : Kept b) (hst : ClientStep b e b') : Kept b' := by
  obtain ⟨ho, h⟩ := h
  have hT {α : Type} (_ : α) (s : State w) (H : Set (Resource w)) (hs : Tidy s H) : Tidy s H := hs
  cases hst with
  | «open» hf => exact (h.wp_strelaOpenFile hf _ _ (hT ()) fun _ => h).run ho
  | close hf =>
    exact wp.run (h.wp_drmFileFree (E := fun _ => Tidy) hf (hT ())) ho
  | gemNew hf hobj => exact (h.wp_gemNewHandle hobj hf _ hT hT).run ho
  | gemClose => exact (h.wp_drmGemHandleDelete _ (hT ()) fun _ => h).run ho
  | lookup => exact (h.wp_drmGemObjectLookup _ (hT ()) fun _ => h).run ho
  | access hhold => exact wp.run (h.wp_access (E := fun _ => Tidy) hhold h) ho
  | release hhold => exact wp.run (h.wp_release (E := fun _ => Tidy) hhold (hT ())) ho

theorem kept_of_reach (h : (clientLts w).Reach b) : Kept b := by
  refine h.invariant (fun b hb => ?_) fun _ _ _ _ hk hst => hk.step hst
  obtain rfl := hb
  refine ⟨orderly_nil, ⟨⟨⟨fun _ => rfl, fun _ _ => rfl, fun o => ?_⟩, fun k => ?_, List.nodup_nil⟩,
    fun e he => ?_⟩⟩
  · simp [State.probed]
  · cases k <;> simp [Owned, State.probed]
  · cases he

/-- Somebody can still name the object. -/
def State.Live (s : State w) (o : ObjId) : Prop := (∃ h ∈ s.gem.handles, h.2 = o) ∨ o ∈ s.holds

/-- What the open files and the objects that somebody can name need, and no more. -/
def Needed (s : State w) : Resource w → Prop
  | .priv file | .entity file => file ∈ s.files
  | .dmaObj o | .base o => s.Live o
  | .dma o size addr dir => s.Live o ∧ .dma o size addr dir = s.dma o

theorem Tidy.refs_pos_iff (h : Tidy s H) (o : ObjId) : 0 < s.gem.refs o ↔ s.Live o := by
  rw [h.stocked.balanced.count, State.owned, Nat.add_pos_iff_pos_or_pos, Gem.handleRefs,
    List.countP_pos_iff, List.count_pos_iff]
  simp only [beq_iff_eq, State.Live]

theorem Tidy.held_iff (h : Tidy s H) (k : Resource w) : k ∈ H ↔ Needed s k := by
  rw [h.stocked.held]
  cases k <;> simp only [Owned, Needed, h.refs_pos_iff]

/-- In every run, whatever fails in it, the history is orderly at every moment, and what is held is
what the open files and the live objects need; once all files are closed and all references put,
each thing that was taken has been given back, the memory as it was allocated. -/
theorem reach_clients (h : (clientLts w).Reach b) :
    Orderly Rests b.log ∧ (∀ k, k ∈ heldSet b.log ↔ Needed b.mem k) ∧
    (b.mem.files = [] → b.mem.holds = [] →
      ∀ k, b.log.count (.take k ()) = b.log.count (.give k ())) := by
  obtain ⟨ho, ht⟩ := kept_of_reach h
  refine ⟨ho, ht.held_iff, fun hf hh k => ?_⟩
  have hnone (o : ObjId) : ¬ b.mem.Live o := by
    rintro (⟨e, he, -⟩ | hm)
    · have := ht.handles e he
      rw [hf] at this
      cases this
    · rw [hh] at hm
      cases hm
  have hk : holder b.log k ≠ some () := by
    intro hheld
    have hneed := (ht.held_iff k).mp hheld
    cases k <;> simp [Needed, hf, hnone] at hneed
  rw [ho.disciplined.count_take, if_neg hk, Nat.add_zero]

def unmappedKernel : GemKernel 64 32 :=
  { servingKernel 64 32 with mappingError := fun _ => true, obj := 1 }

/-- One object cannot be made; the other outlives the file that made it, and is freed by the last
call that uses it. -/
theorem reach_clients_outlived : ∃ b, (clientLts 32).Reach b ∧
    b.log.count (.take (.dma 0 4096 0 .bidirectional) ()) = 1 ∧
    b.log.count (.give (.dma 0 4096 0 .bidirectional) ()) = 1 := by
  have h₁ : (clientLts 32).Reach (strelaOpenFile 0 true (.ok ()) ⟨.probed, []⟩).2 :=
    .step (.start rfl) (.open List.not_mem_nil)
  have h₂ := h₁.step (.gemNew (k := unmappedKernel) (f := 0) (a := ⟨64, 0⟩) (by decide +kernel)
    (by decide +kernel))
  have h₃ := h₂.step (.gemNew (k := servingKernel 64 32) (f := 0) (a := ⟨64, 0⟩)
    (by decide +kernel) (by decide +kernel))
  have h₄ := h₃.step (.lookup (f := 0) (h := 1))
  have h₅ := h₄.step (.release (o := 0) (by decide +kernel))
  have h₆ := h₅.step (.close (f := 0) (by decide +kernel))
  have h₇ := h₆.step (.access (o := 0) (by decide +kernel))
  have h₈ := h₇.step (.release (o := 0) (by decide +kernel))
  refine ⟨_, h₈, by decide +kernel, ?_⟩
  refine ((reach_clients h₈).2.2 (by decide +kernel) (by decide +kernel) _).symm.trans ?_
  decide +kernel

end Strela.Driver.Clients
