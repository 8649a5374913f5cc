import Strela.Driver.Submit
import Mathlib.Algebra.BigOperators.Group.List.Basic
import Mathlib.Data.List.Count

/-! # References on buffer objects

Whatever the interleaving, the reference count of an object is the number of
handles, bindings of accepted jobs and calls in progress that hold it, and an
object is released exactly when that number is 0. A submit that fails has given
back what it took.
-/

namespace Strela.Driver

open Foundation

/-! ## Who holds what -/

def Gem.handleRefs (g : Gem) (o : ObjId) : ℕ := g.handles.countP fun h => h.2 == o

def Buffers.refsAt (b : Buffers) (ss : List Slot) (o : ObjId) : ℕ :=
  ss.countP fun s => (b.get s).obj == some o

def jobRefs (js : List Job) (o : ObjId) : ℕ := (js.map fun j => j.buffers.refsAt slots o).sum

/-- The references a submit in progress must still pass on or give back. -/
def SubmitCall.held (c : SubmitCall) (o : ObjId) : ℕ :=
  match c.pc with
  | .check _ _ x => c.job.buffers.refsAt slots o + if x = o then 1 else 0
  | .unwind rest _ => c.job.buffers.refsAt rest o
  | .putFence _ | .free _ | .returned _ => 0
  | _ => c.job.buffers.refsAt slots o

def Call.held (o : ObjId) : Call → ℕ
  | .submit c => c.held o
  | .gemNew x => if x = o then 1 else 0
  | .freeJob j rest => j.buffers.refsAt rest o

def callRefs (cs : List Call) (o : ObjId) : ℕ := (cs.map (Call.held o)).sum

def System.owned (s : System) (o : ObjId) : ℕ :=
  s.kernel.gem.handleRefs o + jobRefs s.kernel.jobs o + callRefs s.calls o

/-- The counts are those of the holders, and the objects with none are exactly those released. -/
structure Balanced (g : Gem) (owned : ObjId → ℕ) : Prop where
  count : ∀ o, g.refs o = owned o
  fresh : ∀ o, o ∉ g.objects → g.refs o = 0
  released : ∀ o, o ∈ g.released ↔ o ∈ g.objects ∧ g.refs o = 0

/-- The places a submit has not resolved yet hold no object. -/
def SubmitCall.Wf (c : SubmitCall) : Prop :=
  match c.pc with
  | .start | .allocJob | .allocFence | .initFence | .initSched | .inFence =>
    c.job.buffers = .zero
  | .lookup rest => rest.Nodup ∧ ∀ s ∈ rest, (c.job.buffers.get s).obj = none
  | .check s rest _ => (s :: rest).Nodup ∧ ∀ t ∈ s :: rest, (c.job.buffers.get t).obj = none
  | _ => True

variable {w : ℕ} {objs : ObjId → GemObject w} {g : Gem} {k : Kernel} {c : SubmitCall} {r : Reply}
  {b : Buffers} {s s' : System} {l : Label} {o x : ObjId} {owned R : ObjId → ℕ} {cs : List Call}

/-! ## Taking and dropping a reference -/

theorem Balanced.congr {owned' : ObjId → ℕ} (hb : Balanced g owned) (h : ∀ o, owned o = owned' o) :
    Balanced g owned' :=
  ⟨fun o => (hb.count o).trans (h o), hb.fresh, hb.released⟩

theorem Balanced.take (hb : Balanced g owned) (ho : 0 < owned o) :
    Balanced { g with refs := Function.update g.refs o (g.refs o + 1) }
      fun x => owned x + if o = x then 1 else 0 := by
  have hpos : 0 < g.refs o := hb.count o ▸ ho
  have hmem : o ∈ g.objects := by
    by_contra hn
    have := hb.fresh o hn
    omega
  constructor
  · intro x
    rcases eq_or_ne o x with rfl | hne
    · simp [hb.count o]
    · simp [Function.update_of_ne hne.symm, hne, hb.count x]
  · intro x hx
    have hne : x ≠ o := fun he => hx (he ▸ hmem)
    simpa [Function.update_of_ne hne] using hb.fresh x hx
  · intro x
    rcases eq_or_ne x o with rfl | hne
    · have h := hb.released x
      simp only [Function.update_self]
      constructor
      · intro hr
        have := (h.mp hr).2
        omega
      · rintro ⟨-, hz⟩
        omega
    · simpa [Function.update_of_ne hne] using hb.released x

theorem Balanced.put {obj : Option ObjId}
    (hb : Balanced g fun x => owned x + if obj = some x then 1 else 0) :
    Balanced (g.put obj) owned := by
  cases obj with
  | none => exact hb.congr fun x => by simp
  | some o =>
    have ho : g.refs o = owned o + 1 := by simpa using hb.count o
    have hmem : o ∈ g.objects := by
      by_contra hn
      have := hb.fresh o hn
      omega
    constructor
    · intro x
      rcases eq_or_ne x o with rfl | hne
      · simp [Gem.put, ho]
      · simpa [Gem.put, Function.update_of_ne hne, hne.symm] using hb.count x
    · intro x hx
      have hne : x ≠ o := fun he => hx (he ▸ hmem)
      simpa [Gem.put, Function.update_of_ne hne] using hb.fresh x hx
    · intro x
      have h := hb.released x
      rcases eq_or_ne x o with rfl | hne
      · simp only [Gem.put, Function.update_self]
        split
        · simp [hmem]
          omega
        · simp only [h, hmem, true_and]
          omega
      · simp only [Gem.put, Function.update_of_ne hne]
        split
        · simp [hne, h]
        · exact h

theorem Balanced.put_of {obj : Option ObjId} (hb : Balanced g owned)
    (h : ∀ x, owned x = R x + if obj = some x then 1 else 0) : Balanced (g.put obj) R :=
  Balanced.put (hb.congr h)

@[simp] theorem Gem.put_handles (g : Gem) (obj : Option ObjId) :
    (g.put obj).handles = g.handles := by
  cases obj <;> rfl

@[simp] theorem Gem.put_objects (g : Gem) (obj : Option ObjId) :
    (g.put obj).objects = g.objects := by
  cases obj <;> rfl

theorem Gem.handleRefs_put (g : Gem) (obj : Option ObjId) (o : ObjId) :
    (g.put obj).handleRefs o = g.handleRefs o := by
  rw [handleRefs, handleRefs, put_handles]

/-! ## Counting -/

theorem refsAt_cons (b : Buffers) (s : Slot) (ss : List Slot) (o : ObjId) :
    b.refsAt (s :: ss) o = b.refsAt ss o + if (b.get s).obj = some o then 1 else 0 := by
  rw [Buffers.refsAt, List.countP_cons]
  simp [Buffers.refsAt]

theorem refsAt_zero (ss : List Slot) (o : ObjId) : Buffers.zero.refsAt ss o = 0 := by
  simp [Buffers.refsAt, Buffers.get_zero]

theorem get_bind_self (b : Buffers) (s : Slot) (src : StridedSource) (o : ObjId) :
    ((b.bind s src o).get s).obj = some o := by
  cases s <;> simp [Buffers.bind, Buffers.get, Buffers.set]

theorem get_bind_of_ne (b : Buffers) {s t : Slot} (src : StridedSource) (o : ObjId) (h : t ≠ s) :
    (b.bind s src o).get t = b.get t := by
  have := b.get_set_of_ne ⟨some o, src.offset, src.count⟩ h
  cases s <;> cases t <;> simp_all [Buffers.bind, Buffers.get, Buffers.set]

theorem refsAt_bind {t : Slot} (ss : List Slot) (src : StridedSource) (hn : ss.Nodup) (ht : t ∈ ss)
    (he : (b.get t).obj = none) (o x : ObjId) :
    (b.bind t src x).refsAt ss o = b.refsAt ss o + if x = o then 1 else 0 := by
  induction ss with
  | nil => cases ht
  | cons s ss ih =>
    obtain ⟨hs, hn⟩ := List.nodup_cons.mp hn
    rw [refsAt_cons, refsAt_cons]
    rcases List.mem_cons.mp ht with rfl | ht
    · have hsame : (b.bind t src x).refsAt ss o = b.refsAt ss o := by
        apply List.countP_congr
        intro u hu
        rw [get_bind_of_ne b src x fun he : u = t => hs (he ▸ hu)]
      simp [hsame, get_bind_self, he]
    · have hne : s ≠ t := fun he => hs (he ▸ ht)
      rw [ih hn ht, get_bind_of_ne b src x hne]
      omega

theorem held_enter (file : FileId) (args : Submit) (o : ObjId) :
    (SubmitCall.enter file args).held o = 0 :=
  refsAt_zero slots o

theorem held_returned {res : Except Errno Unit} (h : c.pc = .returned res) (o : ObjId) :
    c.held o = 0 := by
  simp [SubmitCall.held, h]

theorem callRefs_append (cs ds : List Call) (o : ObjId) :
    callRefs (cs ++ ds) o = callRefs cs o + callRefs ds o := by
  simp [callRefs]

theorem callRefs_cons (a : Call) (cs : List Call) (o : ObjId) :
    callRefs (a :: cs) o = a.held o + callRefs cs o := by
  simp [callRefs]

theorem countP_eraseP_lookup {κ : Type} [BEq κ] [LawfulBEq κ] (hs : List (κ × ObjId)) (key : κ)
    (o : ObjId) : hs.countP (fun h => h.2 == o) =
      (hs.eraseP fun h => h.1 == key).countP (fun h => h.2 == o) +
        if hs.lookup key = some o then 1 else 0 := by
  induction hs with
  | nil => simp
  | cons h hs ih =>
    obtain ⟨key', x⟩ := h
    by_cases hk : key' = key
    · subst hk
      simp [List.countP_cons]
    · have hk' : (key == key') = false := by simpa using Ne.symm hk
      rw [List.eraseP_cons_of_neg (by simpa using hk), List.lookup_cons, hk']
      simp only [List.countP_cons, ih]
      omega

theorem handleRefs_pos {file : FileId} {handle : U32}
    (h : g.handles.lookup (file, handle) = some o) : 0 < g.handleRefs o := by
  have := countP_eraseP_lookup g.handles (file, handle) o
  rw [if_pos h] at this
  rw [Gem.handleRefs]
  omega

/-! ## One step of a submit -/

theorem submitStep_balanced (hw : c.Wf)
    (hb : Balanced k.gem fun o => k.gem.handleRefs o + jobRefs k.jobs o + (R o + c.held o))
    (objs : ObjId → GemObject w) (r : Reply) :
    (submitStep objs k c r).2.Wf ∧
    Balanced (submitStep objs k c r).1.gem fun o => (submitStep objs k c r).1.gem.handleRefs o +
      jobRefs (submitStep objs k c r).1.jobs o + (R o + (submitStep objs k c r).2.held o) := by
  obtain ⟨file, args, job, pc⟩ := c
  have zero {b : Buffers} (h : b = .zero) (ss : List Slot) (o : ObjId) : b.refsAt ss o = 0 :=
    h ▸ refsAt_zero ss o
  cases pc with
  | start | allocJob | allocFence | initSched =>
    -- Nothing is bound yet, so that a call that fails has nothing to drop.
    simp only [submitStep]
    split
    · exact ⟨trivial, hb.congr fun o => by simp [SubmitCall.held, SubmitCall.goto, zero hw]⟩
    · exact ⟨hw, hb⟩
  | initFence => exact ⟨hw, hb⟩
  | inFence =>
    have hlookup : (SubmitCall.goto ⟨file, args, job, .inFence⟩ (.lookup slots)).Wf := by
      refine ⟨nodup_slots, fun s _ => ?_⟩
      have hz : job.buffers = .zero := hw
      simp [SubmitCall.goto, hz, Buffers.get_zero]
    simp only [submitStep]
    split
    · split
      · exact ⟨trivial, hb⟩
      · exact ⟨hlookup, hb⟩
    · exact ⟨hlookup, hb⟩
  | lookup rest =>
    cases rest with
    | nil => exact ⟨trivial, hb⟩
    | cons s rest =>
      simp only [submitStep, Gem.lookup]
      cases hl : k.gem.handles.lookup (file, (args.source s).handle) with
      | none => exact ⟨trivial, hb⟩
      | some o =>
        have hpos := handleRefs_pos hl
        refine ⟨hw, (hb.take (by omega)).congr fun x => ?_⟩
        simp only [SubmitCall.held, SubmitCall.goto, Gem.handleRefs]
        omega
  | check s rest x =>
    obtain ⟨hn, hempty⟩ := hw
    simp only [submitStep]
    split
    · refine ⟨trivial, ?_⟩
      dsimp only
      apply hb.put_of
      intro o
      simp only [SubmitCall.held, SubmitCall.goto, Gem.handleRefs_put, Option.some.injEq]
      omega
    · refine ⟨⟨(List.nodup_cons.mp hn).2, fun t ht => ?_⟩, hb.congr fun o => ?_⟩
      · have hne : t ≠ s := fun he => (List.nodup_cons.mp hn).1 (he ▸ ht)
        simpa only [get_bind_of_ne _ _ _ hne] using hempty t (List.mem_cons_of_mem _ ht)
      · simp only [SubmitCall.held]
        rw [refsAt_bind slots _ nodup_slots (mem_slots s) (hempty s List.mem_cons_self)]
  | outSyncobj =>
    simp only [submitStep]
    split
    · exact ⟨trivial, hb⟩
    · exact ⟨trivial, hb⟩
  | replaceFence y => exact ⟨trivial, hb⟩
  | push =>
    refine ⟨trivial, hb.congr fun o => ?_⟩
    simp only [submitStep, SubmitCall.held, SubmitCall.goto, jobRefs, List.map_cons, List.sum_cons]
    omega
  | unwind rest e =>
    cases rest with
    | nil => exact ⟨trivial, hb.congr fun o => by
        simp [submitStep, SubmitCall.held, SubmitCall.goto, Buffers.refsAt]⟩
    | cons s rest =>
      refine ⟨trivial, ?_⟩
      dsimp only [submitStep]
      apply hb.put_of
      intro o
      simp only [SubmitCall.held, SubmitCall.goto, Gem.handleRefs_put, refsAt_cons]
      omega
  | putFence e => exact ⟨trivial, hb⟩
  | free e => exact ⟨trivial, hb⟩
  | returned res => exact ⟨trivial, hb⟩

/-- The submit has put its fence in the sync object, after which it cannot fail. -/
def SubmitCall.Committed (c : SubmitCall) : Prop := c.pc = .push ∨ c.pc = .returned (.ok ())

/-- Until it commits, a submit changes only reference counts and the fence number. -/
theorem submitStep_frame (hc : ¬ (submitStep objs k c r).2.Committed) :
    ¬ c.Committed ∧ (submitStep objs k c r).1.jobs = k.jobs ∧
      (submitStep objs k c r).1.fences = k.fences ∧
      (submitStep objs k c r).1.gem.handles = k.gem.handles ∧
      (submitStep objs k c r).1.gem.objects = k.gem.objects := by
  obtain ⟨file, args, job, pc⟩ := c
  cases pc with
  | start | allocJob | allocFence | initSched | outSyncobj =>
    refine ⟨by simp [SubmitCall.Committed], ?_⟩
    simp only [submitStep]
    split <;> exact ⟨rfl, rfl, rfl, rfl⟩
  | inFence =>
    refine ⟨by simp [SubmitCall.Committed], ?_⟩
    simp only [submitStep]
    split
    · split <;> exact ⟨rfl, rfl, rfl, rfl⟩
    · exact ⟨rfl, rfl, rfl, rfl⟩
  | lookup rest =>
    refine ⟨by simp [SubmitCall.Committed], ?_⟩
    cases rest with
    | nil => exact ⟨rfl, rfl, rfl, rfl⟩
    | cons s rest =>
      simp only [submitStep, Gem.lookup]
      cases k.gem.handles.lookup (file, (args.source s).handle) <;> exact ⟨rfl, rfl, rfl, rfl⟩
  | check s rest x =>
    refine ⟨by simp [SubmitCall.Committed], ?_⟩
    simp only [submitStep]
    split <;> exact ⟨rfl, rfl, rfl, rfl⟩
  | unwind rest e =>
    refine ⟨by simp [SubmitCall.Committed], ?_⟩
    cases rest with
    | nil => exact ⟨rfl, rfl, rfl, rfl⟩
    | cons s rest => exact ⟨rfl, rfl, Gem.put_handles _ _, Gem.put_objects _ _⟩
  | replaceFence y => exact absurd (Or.inl rfl) hc
  | push => exact absurd (Or.inr rfl) hc
  | returned res => exact ⟨hc, rfl, rfl, rfl, rfl⟩
  | initFence | putFence | free => exact ⟨by simp [SubmitCall.Committed], rfl, rfl, rfl, rfl⟩

/-! ## Every interleaving -/

structure Accounted (s : System) : Prop where
  balanced : Balanced s.kernel.gem s.owned
  wf : ∀ c, .submit c ∈ s.calls → c.Wf

theorem jobRefs_append (js ks : List Job) (o : ObjId) :
    jobRefs (js ++ ks) o = jobRefs js o + jobRefs ks o := by
  simp [jobRefs]

theorem jobRefs_cons (j : Job) (js : List Job) (o : ObjId) :
    jobRefs (j :: js) o = j.buffers.refsAt slots o + jobRefs js o := by
  simp [jobRefs]

theorem Balanced.create {file : FileId} {handle : U32} (hb : Balanced g owned)
    (ho : o ∉ g.objects) :
    Balanced (g.create file handle o) fun x => owned x + if o = x then 2 else 0 := by
  have hz := hb.fresh o ho
  have hnr : o ∉ g.released := fun hr => ho ((hb.released o).mp hr).1
  constructor
  · intro x
    rcases eq_or_ne x o with rfl | hne
    · simp [Gem.create, ← hb.count x, hz]
    · simp [Gem.create, Function.update_of_ne hne, hne.symm, hb.count x]
  · intro x hx
    simp only [Gem.create, List.mem_cons, not_or] at hx
    simpa [Gem.create, Function.update_of_ne hx.1] using hb.fresh x hx.2
  · intro x
    rcases eq_or_ne x o with rfl | hne
    · simp [Gem.create, hnr]
    · simpa [Gem.create, Function.update_of_ne hne, hne] using hb.released x

theorem Balanced.createFail (hb : Balanced g owned) (ho : o ∉ g.objects) :
    Balanced (g.createFail o) owned := by
  refine ⟨hb.count, fun x hx => hb.fresh x fun hm => hx (List.mem_cons_of_mem _ hm), fun x => ?_⟩
  rcases eq_or_ne x o with rfl | hne
  · simp [Gem.createFail, hb.fresh x ho]
  · simpa [Gem.createFail, hne] using hb.released x

theorem Accounted.replace {k' : Kernel} {pre post : List Call} {a : Call}
    (hi : Accounted ⟨k, pre ++ a :: post⟩) (new : List Call) (hw : ∀ c, .submit c ∈ new → c.Wf)
    (hb : Balanced k'.gem fun o => k'.gem.handleRefs o + jobRefs k'.jobs o +
      (callRefs pre o + callRefs post o + callRefs new o)) :
    Accounted ⟨k', pre ++ (new ++ post)⟩ := by
  refine ⟨hb.congr fun o => ?_, fun c hc => ?_⟩
  · simp only [System.owned, callRefs_append]
    omega
  · rcases List.mem_append.mp hc with hc | hc
    · exact hi.wf c (List.mem_append_left _ hc)
    rcases List.mem_append.mp hc with hc | hc
    · exact hw c hc
    · exact hi.wf c (List.mem_append_right _ (List.mem_cons_of_mem _ hc))

theorem Accounted.shares {pre post : List Call} {a : Call} (hi : Accounted ⟨k, pre ++ a :: post⟩) :
    Balanced k.gem fun o => k.gem.handleRefs o + jobRefs k.jobs o +
      (callRefs pre o + callRefs post o + a.held o) :=
  hi.balanced.congr fun o => by
    simp only [System.owned, callRefs_append, callRefs_cons]
    omega

theorem Accounted.step (hi : Accounted s) (hst : SystemStep objs s l s') : Accounted s' := by
  cases hst with
  | @gemNew k cs file handle o hl ho =>
    refine ⟨(hi.balanced.create ho).congr fun x => ?_, fun c hc => hi.wf c ?_⟩
    · simp only [System.owned, Gem.create, Gem.handleRefs, List.countP_cons, callRefs_cons,
        Call.held, beq_iff_eq]
      split <;> omega
    · simpa using hc
  | @gemNewReturn k pre post o =>
    refine hi.replace [] (by simp) ?_
    dsimp only
    apply hi.shares.put_of
    intro x
    simp only [Gem.handleRefs_put, Call.held, Option.some.injEq, callRefs, List.map_nil,
      List.sum_nil]
    omega
  | gemNewFail ho => exact ⟨hi.balanced.createFail ho, hi.wf⟩
  | @gemClose k cs file handle =>
    refine ⟨?_, hi.wf⟩
    have hb : Balanced { k.gem with handles := k.gem.handles.eraseP fun h => h.1 == (file, handle) }
      (System.owned ⟨k, cs⟩) := ⟨hi.balanced.count, hi.balanced.fresh, hi.balanced.released⟩
    apply hb.put_of
    intro x
    have := countP_eraseP_lookup k.gem.handles (file, handle) x
    simp only [System.owned, Gem.close, Gem.handleRefs, Gem.put_handles] at this ⊢
    omega
  | @enter k cs file args =>
    refine ⟨hi.balanced.congr fun x => ?_, fun c hc => ?_⟩
    · simp [System.owned, callRefs_cons, Call.held, held_enter]
    · rcases List.mem_cons.mp hc with hc | hc
      · obtain rfl := Call.submit.inj hc
        rfl
      · exact hi.wf c hc
  | @submit k pre post c r =>
    obtain ⟨hw, hb⟩ := submitStep_balanced (hi.wf c (by simp)) hi.shares objs r
    refine hi.replace [.submit (submitStep objs k c r).2] ?_ (hb.congr fun x => ?_)
    · simpa using hw
    · simp [callRefs, Call.held]
  | @freeJob k cs pre post j hj =>
    refine ⟨hi.balanced.congr fun x => ?_, fun c hc => hi.wf c (by simpa using hc)⟩
    simp only [System.owned, hj, jobRefs_append, jobRefs_cons, callRefs_cons, Call.held]
    omega
  | @freePut k pre post j t rest =>
    refine hi.replace [.freeJob j rest] (by simp) ?_
    dsimp only
    apply hi.shares.put_of
    intro x
    simp only [Gem.handleRefs_put, Call.held, refsAt_cons, callRefs, List.map_cons, List.map_nil,
      List.sum_cons, List.sum_nil]
    omega
  | @freeReturn k pre post j =>
    refine hi.replace [] (by simp) (hi.shares.congr fun x => ?_)
    simp [Call.held, Buffers.refsAt, callRefs]

theorem accounted_of_reach (hr : (kernelLts objs).Reach s) : Accounted s := by
  refine hr.invariant (P := Accounted) ?_ fun s l s' _ hi hst => hi.step hst
  rintro ⟨k, cs⟩ ⟨hg, hj, hc⟩
  dsimp only at hg hj hc
  subst hc
  refine ⟨⟨fun o => ?_, fun o _ => ?_, fun o => ?_⟩, by simp⟩ <;>
    simp [System.owned, hg, hj, Gem.handleRefs, jobRefs, callRefs]

/-! ## A submit that fails -/

/-- A submit followed through an interleaving, with the states before and after each step of its
own. -/
inductive Trace (objs : ObjId → GemObject w) : System → SubmitCall → List (Kernel × Kernel) → Prop
  | enter {s s' : System} {file : FileId} {args : Submit} : (kernelLts objs).Reach s →
      SystemStep objs s (.enter file args) s' → Trace objs s' (.enter file args) []
  | own {s s' : System} {c : SubmitCall} {r : Reply} {steps : List (Kernel × Kernel)} :
      Trace objs s c steps → SystemStep objs s (.submit c r) s' →
      Trace objs s' (submitStep objs s.kernel c r).2 (steps ++ [(s.kernel, s'.kernel)])
  | other {s s' : System} {c : SubmitCall} {l : Label} {steps : List (Kernel × Kernel)} :
      Trace objs s c steps → SystemStep objs s l s' → .submit c ∈ s'.calls → Trace objs s' c steps

theorem Trace.reach {steps : List (Kernel × Kernel)} (h : Trace objs s c steps) :
    (kernelLts objs).Reach s := by
  induction h with
  | enter hr hst => exact hr.step hst
  | own _ hst ih => exact ih.step hst
  | other _ hst _ ih => exact ih.step hst

theorem own_refs (hr : (kernelLts objs).Reach s) (hst : SystemStep objs s (.submit c r) s')
    (hc : ¬ (submitStep objs s.kernel c r).2.Committed) (o : ObjId) :
    s'.kernel.gem.refs o + c.held o =
      s.kernel.gem.refs o + (submitStep objs s.kernel c r).2.held o := by
  have hi := accounted_of_reach hr
  cases hst with
  | @submit k pre post c r =>
    obtain ⟨-, hb⟩ := submitStep_balanced (hi.wf c (by simp)) hi.shares objs r
    obtain ⟨-, hj, -, hh, -⟩ := submitStep_frame hc
    have h₁ := hi.shares.count o
    have h₂ := hb.count o
    simp only [hj, Gem.handleRefs, hh, Call.held] at h₁ h₂ hc ⊢
    omega

/-- Along the steps of a submit that has not committed, the queue, the sync objects and the handles
stay, and the counts have moved by what it holds. -/
theorem Trace.uncommitted {steps : List (Kernel × Kernel)} (h : Trace objs s c steps)
    (hc : ¬ c.Committed) :
    (∀ p ∈ steps, p.2.jobs = p.1.jobs ∧ p.2.fences = p.1.fences ∧
      p.2.gem.handles = p.1.gem.handles) ∧
    ∀ o, (steps.map fun p => (p.2.gem.refs o : ℤ) - p.1.gem.refs o).sum = c.held o := by
  induction h with
  | enter hr hst =>
    exact ⟨by simp, fun o => by simp [held_enter]⟩
  | @own s s' c r steps ht hst ih =>
    obtain ⟨hc', hj, hf, hh, -⟩ := submitStep_frame hc
    obtain ⟨hframe, hsum⟩ := ih hc'
    have hk : s'.kernel = (submitStep objs s.kernel c r).1 := by
      cases hst
      rfl
    constructor
    · intro p hp
      rcases List.mem_append.mp hp with hp | hp
      · exact hframe p hp
      · obtain rfl := List.mem_singleton.mp hp
        simp only [hk]
        exact ⟨hj, hf, hh⟩
    · intro o
      have hrefs := own_refs ht.reach hst hc o
      simp only [List.map_append, List.sum_append, hsum o, List.map_cons, List.map_nil,
        List.sum_cons, List.sum_nil]
      omega
  | other _ _ _ ih => exact ih hc

def submitRun (objs : ObjId → GemObject w) (k : Kernel) (c : SubmitCall) :
    List Reply → Kernel × SubmitCall
  | [] => (k, c)
  | r :: rs => submitRun objs (submitStep objs k c r).1 (submitStep objs k c r).2 rs

theorem submitRun_uncommitted (rs : List Reply) (hr : (kernelLts objs).Reach ⟨k, .submit c :: cs⟩)
    (hc : ¬ (submitRun objs k c rs).2.Committed) :
    let p := submitRun objs k c rs
    ¬ c.Committed ∧ (kernelLts objs).Reach ⟨p.1, .submit p.2 :: cs⟩ ∧ p.1.jobs = k.jobs ∧
      p.1.fences = k.fences ∧ p.1.gem.handles = k.gem.handles ∧ p.1.gem.objects = k.gem.objects ∧
      ∀ o, p.1.gem.refs o + c.held o = k.gem.refs o + p.2.held o := by
  induction rs generalizing k c with
  | nil => exact ⟨hc, hr, rfl, rfl, rfl, rfl, fun _ => rfl⟩
  | cons r rs ih =>
    have hst : SystemStep objs ⟨k, [] ++ .submit c :: cs⟩ (.submit c r)
        ⟨(submitStep objs k c r).1, [] ++ .submit (submitStep objs k c r).2 :: cs⟩ := .submit
    obtain ⟨hc', hr', hj, hf, hh, ho, hrefs⟩ := ih (hr.step hst) hc
    obtain ⟨hc₀, hj₀, hf₀, hh₀, ho₀⟩ := submitStep_frame hc'
    refine ⟨hc₀, hr', hj.trans hj₀, hf.trans hf₀, hh.trans hh₀, ho.trans ho₀, fun o => ?_⟩
    have h₁ := own_refs hr hst hc' o
    have h₂ := hrefs o
    simp only [submitRun] at h₁ h₂ ⊢
    omega

/-- Run by itself, a submit that fails leaves everything but the fence number as it was. -/
theorem submitRun_failed {file : FileId} {args : Submit} {rs : List Reply} {e : Errno}
    (hr : (kernelLts objs).Reach ⟨k, cs⟩)
    (he : (submitRun objs k (.enter file args) rs).2.pc = .returned (.error e)) :
    let k' := (submitRun objs k (.enter file args) rs).1
    k'.jobs = k.jobs ∧ k'.fences = k.fences ∧ k'.gem.handles = k.gem.handles ∧
      k'.gem.refs = k.gem.refs ∧ ∀ o, o ∈ k'.gem.released ↔ o ∈ k.gem.released := by
  have hc : ¬ (submitRun objs k (.enter file args) rs).2.Committed := by
    simp [SubmitCall.Committed, he]
  obtain ⟨-, hr', hj, hf, hh, ho, hrefs⟩ := submitRun_uncommitted rs (hr.step .enter) hc
  have heq : (submitRun objs k (.enter file args) rs).1.gem.refs = k.gem.refs := by
    funext o
    have := hrefs o
    rw [held_enter, held_returned he] at this
    exact this
  refine ⟨hj, hf, hh, heq, fun o => ?_⟩
  have h₁ := (accounted_of_reach hr').balanced.released o
  have h₂ := (accounted_of_reach hr).balanced.released o
  simp only [ho, heq] at h₁
  rw [h₁, h₂]

def Call.Idle : Call → Prop
  | .submit c => ∃ r, c.pc = .returned r
  | _ => False

theorem callRefs_idle (h : ∀ a ∈ cs, a.Idle) (o : ObjId) : callRefs cs o = 0 := by
  induction cs with
  | nil => rfl
  | cons a cs ih =>
    have ha := h a List.mem_cons_self
    rw [callRefs_cons, ih fun b hb => h b (List.mem_cons_of_mem _ hb)]
    cases a with
    | submit c =>
      obtain ⟨r, hr⟩ := ha
      simp [Call.held, held_returned hr]
    | gemNew | freeJob => exact ha.elim

theorem refsAt_pos {ss : List Slot} {t : Slot} (ht : t ∈ ss) (h : (b.get t).obj = some o) :
    0 < b.refsAt ss o :=
  List.countP_pos_iff.mpr ⟨t, ht, by simp [h]⟩

theorem jobRefs_pos {js : List Job} {j : Job} {t : Slot} (hj : j ∈ js)
    (h : (j.buffers.get t).obj = some o) : 0 < jobRefs js o := by
  obtain ⟨pre, post, rfl⟩ := List.append_of_mem hj
  have := refsAt_pos (mem_slots t) h
  rw [jobRefs_append, jobRefs_cons]
  omega

/-- Whatever the interleaving, the counts are those of the holders, no object a job names is
released, and a failed submit has moved no count, queued nothing and touched no sync object. -/
theorem references_accounted (objs : ObjId → GemObject w) :
    (∀ s, (kernelLts objs).Reach s →
      (∀ o, s.kernel.gem.refs o =
        s.kernel.gem.handleRefs o + jobRefs s.kernel.jobs o + callRefs s.calls o) ∧
      ((∀ a ∈ s.calls, a.Idle) → ∀ o, s.kernel.gem.refs o =
        s.kernel.gem.handleRefs o + jobRefs s.kernel.jobs o) ∧
      ∀ j ∈ s.kernel.jobs, ∀ t o, (j.buffers.get t).obj = some o →
        0 < s.kernel.gem.refs o ∧ o ∉ s.kernel.gem.released) ∧
    (∀ s c steps e, Trace objs s c steps → c.pc = .returned (.error e) →
      (∀ p ∈ steps, p.2.jobs = p.1.jobs ∧ p.2.fences = p.1.fences ∧
        p.2.gem.handles = p.1.gem.handles) ∧
      ∀ o, (steps.map fun p => (p.2.gem.refs o : ℤ) - p.1.gem.refs o).sum = 0) ∧
    (∀ k cs file args rs e, (kernelLts objs).Reach ⟨k, cs⟩ →
      (submitRun objs k (.enter file args) rs).2.pc = .returned (.error e) →
      (submitRun objs k (.enter file args) rs).1.jobs = k.jobs ∧
      (submitRun objs k (.enter file args) rs).1.fences = k.fences ∧
      (submitRun objs k (.enter file args) rs).1.gem.handles = k.gem.handles ∧
      (submitRun objs k (.enter file args) rs).1.gem.refs = k.gem.refs ∧
      ∀ o, o ∈ (submitRun objs k (.enter file args) rs).1.gem.released ↔ o ∈ k.gem.released) := by
  refine ⟨fun s hr => ?_, fun s c steps e ht he => ?_, fun k cs file args rs e hr he => ?_⟩
  · have hb := (accounted_of_reach hr).balanced
    refine ⟨hb.count, fun hidle o => ?_, fun j hj t o ho => ?_⟩
    · rw [hb.count, System.owned, callRefs_idle hidle, Nat.add_zero]
    · have hpos : 0 < s.kernel.gem.refs o := by
        have := jobRefs_pos hj ho
        rw [hb.count, System.owned]
        omega
      refine ⟨hpos, fun hm => ?_⟩
      have := ((hb.released o).mp hm).2
      omega
  · obtain ⟨hframe, hsum⟩ := ht.uncommitted (by simp [SubmitCall.Committed, he])
    exact ⟨hframe, fun o => by simp [hsum, held_returned he]⟩
  · exact submitRun_failed hr he

def pageObjs : ObjId → GemObject 32 := fun _ => ⟨4096, 0x1000⟩

/-- The driver with no buffer yet, and with the first one just created. -/
def noBuffer : Kernel := ⟨⟨[], [], fun _ => 0, []⟩, [], fun _ => none, 0⟩

def newBuffer : Kernel := { noBuffer with gem := noBuffer.gem.create 0 1 0 }

def oneBuffer : Kernel := { newBuffer with gem := newBuffer.gem.put (some 0) }

/-- The configuration names the buffer, the inputs a handle that is not open. -/
def badSubmit : Submit :=
  ⟨⟨1, 0, 16⟩, fun _ => ⟨7, 0, 16, 1⟩, fun _ => ⟨1, 0, 16⟩, 1, 0, 0, 0⟩

def goodSubmit : Submit :=
  ⟨⟨1, 0, 16⟩, fun _ => ⟨1, 0, 16, 1⟩, fun _ => ⟨1, 0, 16⟩, 1, 0, 0, 0⟩

def answers : List Reply := List.replicate 30 ⟨none, some 0⟩

def acceptedRun : Kernel × SubmitCall :=
  submitRun pageObjs oneBuffer (.enter 0 goodSubmit) answers

def freed (k : Kernel) (j : Job) (ss : List Slot) : Kernel :=
  { k with gem := ss.foldl (fun g t => g.put (j.buffers.get t).obj) k.gem }

theorem reach_submitRun (rs : List Reply) (hr : (kernelLts objs).Reach ⟨k, .submit c :: cs⟩) :
    (kernelLts objs).Reach
      ⟨(submitRun objs k c rs).1, .submit (submitRun objs k c rs).2 :: cs⟩ := by
  induction rs generalizing k c with
  | nil => exact hr
  | cons r rs ih =>
    have hst : SystemStep objs ⟨k, [] ++ .submit c :: cs⟩ (.submit c r)
        ⟨(submitStep objs k c r).1, [] ++ .submit (submitStep objs k c r).2 :: cs⟩ := .submit
    exact ih (hr.step hst)

theorem reach_freed {j : Job} (ss : List Slot)
    (hr : (kernelLts objs).Reach ⟨k, .freeJob j ss :: cs⟩) :
    (kernelLts objs).Reach ⟨freed k j ss, cs⟩ := by
  induction ss generalizing k with
  | nil =>
    have hst : SystemStep objs ⟨k, [] ++ .freeJob j [] :: cs⟩ (.freeReturn j) ⟨k, [] ++ cs⟩ :=
      .freeReturn
    exact hr.step hst
  | cons t ss ih =>
    have hst : SystemStep objs ⟨k, [] ++ .freeJob j (t :: ss) :: cs⟩ (.freePut j t)
        ⟨{ k with gem := k.gem.put (j.buffers.get t).obj }, [] ++ .freeJob j ss :: cs⟩ := .freePut
    exact ih (hr.step hst)

theorem reach_oneBuffer : (kernelLts pageObjs).Reach ⟨oneBuffer, []⟩ := by
  have h₁ : SystemStep pageObjs ⟨noBuffer, []⟩ (.gemNew 0 1 0) ⟨newBuffer, [.gemNew 0]⟩ :=
    .gemNew rfl (by simp [noBuffer])
  have h₂ : SystemStep pageObjs ⟨newBuffer, [] ++ .gemNew 0 :: []⟩ (.gemNewReturn 0)
      ⟨oneBuffer, [] ++ []⟩ := .gemNewReturn
  exact .step (.step (.start ⟨rfl, rfl, rfl⟩) h₁) h₂

/-- A submit that fails moves no count; one that is accepted has nine references, which the release
of its job gives back. -/
theorem references_accounted_pageObjs :
    ((submitRun pageObjs oneBuffer (.enter 0 badSubmit) answers).2.pc =
        .returned (.error .enoent) ∧
      (submitRun pageObjs oneBuffer (.enter 0 badSubmit) answers).1.gem.refs =
        oneBuffer.gem.refs) ∧
    (acceptedRun.2.pc = .returned (.ok ()) ∧
      acceptedRun.1.gem.refs 0 = acceptedRun.1.gem.handleRefs 0 + jobRefs acceptedRun.1.jobs 0 ∧
      acceptedRun.1.gem.refs 0 = 10) ∧
    ∃ k, (kernelLts pageObjs).Reach ⟨k, [.submit acceptedRun.2]⟩ ∧ k.jobs = [] ∧
      k.gem.refs 0 = k.gem.handleRefs 0 ∧ k.gem.refs 0 = 1 := by
  have he : (submitRun pageObjs oneBuffer (.enter 0 badSubmit) answers).2.pc =
      .returned (.error .enoent) := by decide
  have hok : acceptedRun.2.pc = .returned (.ok ()) := by decide
  have hidle : ∀ a ∈ [Call.submit acceptedRun.2], a.Idle := by
    intro a ha
    obtain rfl := List.mem_singleton.mp ha
    exact ⟨_, hok⟩
  have hr : (kernelLts pageObjs).Reach ⟨acceptedRun.1, [.submit acceptedRun.2]⟩ :=
    reach_submitRun answers (reach_oneBuffer.step .enter)
  obtain ⟨j, hj⟩ : ∃ j, acceptedRun.1.jobs = [] ++ j :: [] := ⟨_, rfl⟩
  have hfree := reach_freed slots (hr.step (.freeJob hj))
  have h₁ := ((references_accounted pageObjs).1 _ hr).2.1 hidle 0
  have h₂ := ((references_accounted pageObjs).1 _ hfree).2.1 hidle 0
  refine ⟨⟨he, ((references_accounted _).2.2 _ _ _ _ _ _ reach_oneBuffer he).2.2.2.1⟩,
    ⟨hok, h₁, by decide⟩, _, hfree, rfl, h₂, ?_⟩
  obtain rfl := (List.cons.inj hj).1
  decide

end Strela.Driver
