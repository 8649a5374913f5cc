import Strela.Foundation.Transition
import Strela.Foundation.Unwind
import Strela.Legacy.Control

/-! # Binding the character device

Of what a probe takes, the structure of the device, the mapping of its registers and
its interrupt are given back by the driver core, and the region for the columns, the
minor number, the character device and the logical device by the driver. A probe that
fails to get its interrupt returns without giving the region back. A device that is
removed has its logical device destroyed first and asked for its parent afterwards.
-/

namespace Strela.Legacy

open Foundation Foundation.Proc
open Strela.Driver (U32)

/-- Regions are numbered in the order they are allocated. -/
inductive Resource
  | priv (d : ℕ)
  | mmio (d : ℕ)
  | irq (d : ℕ)
  | region (n : ℕ)
  | minor (i : Fin 4)
  | cdev (d : ℕ)
  | logicalDev (d : ℕ)
  deriving DecidableEq, Repr

/-- The bound devices, what the driver core gives back for each, the fields `dma_page` and `dev_num`
of their structures, the minor numbers in use, and the number of the next region. -/
structure Drivers where
  bound : List ℕ
  devres : ℕ → List Resource
  page : ℕ → ℕ
  devNum : ℕ → Fin 4
  ida : List (Fin 4)
  next : ℕ

def Drivers.setDevres (s : Drivers) (d : ℕ) (ks : List Resource) : Drivers :=
  { s with devres := Function.update s.devres d ks }

structure ProbeReply where
  kzalloc : Except Driver.Errno Unit
  ioremap : Except Driver.Errno Unit
  challenge₁ : U32
  challenge₂ : U32
  response : U32
  dmaAlloc : Except Driver.Errno Unit
  getIrq : Except Driver.Errno Unit
  requestIrq : Except Driver.Errno Unit
  ida : Except Driver.Errno Unit
  cdevAdd : Except Driver.Errno Unit
  deviceCreate : Except Driver.Errno Unit

abbrev ProbeProc := Proc Drivers Resource Driver.Errno

variable (d : ℕ) (r : ProbeReply)

def devmTake (k : Resource) (reply : Except Driver.Errno Unit) : ProbeProc Unit := do
  take k reply
  modify fun s => s.setDevres d (k :: s.devres d)

/-- The least minor number that is not in use; there are as many as devices. -/
def idaAllocMax (reply : Except Driver.Errno Unit) : ProbeProc (Fin 4) := do
  let s ← read
  match (List.finRange 4).find? fun i => decide (i ∉ s.ida) with
  | none => ask (.error (.other 28))
  | some i => do
    take (.minor i) reply
    modify fun s => { s with ida := i :: s.ida }
    return i

def idaFree (i : Fin 4) : ProbeProc Unit := do
  give (.minor i)
  modify fun s => { s with ida := s.ida.erase i }

def dmaAllocPages (reply : Except Driver.Errno Unit) : ProbeProc Unit := do
  let s ← read
  take (.region s.next) reply
  modify fun s => { s with page := Function.update s.page d s.next, next := s.next + 1 }

def dmaFreePages : ProbeProc Unit := do
  let s ← read
  give (.region (s.page d))

/-- The part of the probe that cleans up after itself. -/
def strelaProbeNode : ProbeProc Unit :=
  orElseDo (do
    let minor ← idaAllocMax r.ida
    modify fun s => { s with devNum := Function.update s.devNum d minor }
    orElseDo (do
      take (.cdev d) r.cdevAdd
      orElseDo (take (.logicalDev d) r.deviceCreate) (give (.cdev d))) (idaFree minor))
    (dmaFreePages d)

def strelaProbe : ProbeProc Unit := do
  devmTake d (.priv d) r.kzalloc
  devmTake d (.mmio d) r.ioremap
  use (.mmio d)
  ask (if r.response ≠ r.challenge₁ + r.challenge₂ then .error (.other 5) else .ok ())
  dmaAllocPages d r.dmaAlloc
  ask r.getIrq
  devmTake d (.irq d) r.requestIrq
  strelaProbeNode d r

/-- The parent of the logical device is read for the last two calls. -/
def strelaRemove : ProbeProc Unit := do
  give (.logicalDev d)
  give (.cdev d)
  let s ← read
  idaFree (s.devNum d)
  use (.logicalDev d)
  dmaFreePages d
  use (.logicalDev d)

def devresReleaseAll : ProbeProc Unit := do
  let s ← read
  each give (s.devres d)
  modify fun s => s.setDevres d []

def deviceAttach : ProbeProc Unit := do
  match ← attempt (strelaProbe d r) with
  | .ok () => modify fun s => { s with bound := d :: s.bound }
  | .error _ => devresReleaseAll d

def deviceReleaseDriver : ProbeProc Unit := do
  strelaRemove d
  devresReleaseAll d
  modify fun s => { s with bound := s.bound.erase d }

/-- The probe gets as far as its interrupt, and does not get that. -/
def ProbeReply.irqFails (r : ProbeReply) : Bool :=
  r.kzalloc.toBool && r.ioremap.toBool && decide (r.response = r.challenge₁ + r.challenge₂) &&
    r.dmaAlloc.toBool && !(r.getIrq.toBool && r.requestIrq.toBool)

/-- The books of the driver, with the regions allocated by the probes that failed at their interrupt
and the number of devices that were removed. -/
structure ProbeState where
  books : Books Drivers Resource
  lost : List ℕ
  removed : ℕ

inductive ProbeEvent
  | attach (d : ℕ) (r : ProbeReply)
  | detach (d : ℕ)

inductive ProbeStep : ProbeState → ProbeEvent → ProbeState → Prop
  | attach {m : ProbeState} {d : ℕ} {r : ProbeReply} : d ∉ m.books.mem.bound →
      ProbeStep m (.attach d r)
        { m with
          books := (deviceAttach d r m.books).2
          lost := if r.irqFails then m.books.mem.next :: m.lost else m.lost }
  | detach {m : ProbeState} {d : ℕ} : d ∈ m.books.mem.bound →
      ProbeStep m (.detach d)
        { m with books := (deviceReleaseDriver d m.books).2, removed := m.removed + 1 }

def probeLts : Lts ProbeState ProbeEvent where
  start m :=
    m = ⟨⟨⟨[], fun _ => [], fun _ => 0, fun _ => ⟨0, Nat.zero_lt_succ 3⟩, [], 0⟩, []⟩, [], 0⟩
  step := ProbeStep

/-! ## One probe -/

/-- A property of histories that is kept when only what is not held is taken, and only what is held
is used and given back. -/
structure Keeps (S : List (Entry Resource Unit) → Prop) : Prop where
  take : ∀ l k, S l → k ∉ heldSet l → S (l ++ [.take k ()])
  use : ∀ l k, S l → k ∈ heldSet l → S (l ++ [.use k ()])
  give : ∀ l k, S l → k ∈ heldSet l → S (l ++ [.give k ()])

theorem keeps_disciplined : Keeps Disciplined where
  take _ _ hl hk :=
    disciplined_concat.mpr ⟨hl, Option.eq_none_iff_forall_ne_some.mpr fun _ => hk⟩
  use _ _ hl hk := disciplined_concat.mpr ⟨hl, hk⟩
  give _ _ hl hk := disciplined_concat.mpr ⟨hl, hk⟩

theorem keeps_true : Keeps fun _ => True where
  take _ _ _ _ := trivial
  use _ _ _ _ := trivial
  give _ _ _ _ := trivial

@[simp] theorem Drivers.setDevres_devres (s : Drivers) (ks : List Resource) :
    (s.setDevres d ks).devres d = ks := Function.update_self ..

@[simp] theorem Drivers.setDevres_setDevres (s : Drivers) (ks ks' : List Resource) :
    (s.setDevres d ks).setDevres d ks' = s.setDevres d ks' := by
  simp [Drivers.setDevres]

variable {d r} {s : Drivers} {H : Set Resource} {S : List (Entry Resource Unit) → Prop}
  {T : Unit → Drivers → Set Resource → Prop} {E : Driver.Errno → Drivers → Set Resource → Prop}

namespace Keeps

variable (hS : Keeps S) {k : Resource}

include hS

theorem wp_take {reply : Except Driver.Errno Unit} (hk : k ∉ H)
    (hok : reply = .ok () → T () s (insert k H)) (he : ∀ e, reply = .error e → E e s H) :
    wp S (Proc.take k reply) T E s H := by
  refine wp_take_of ?_ hok he
  rintro l hl rfl
  exact hS.take l k hl hk

theorem wp_use (hk : k ∈ H) (h : T () s H) : wp S (Proc.use k) T E s H := by
  refine wp_use_of ?_ h
  rintro l hl rfl
  exact hS.use l k hl hk

theorem wp_give (hk : k ∈ H) (h : T () s (H \ {k})) : wp S (Proc.give k) T E s H := by
  refine wp_give_of ?_ h
  rintro l hl rfl
  exact hS.give l k hl hk

theorem wp_devmTake {reply : Except Driver.Errno Unit} (hk : k ∉ H)
    (hok : reply = .ok () → T () (s.setDevres d (k :: s.devres d)) (insert k H))
    (he : ∀ e, reply = .error e → E e s H) : wp S (devmTake d k reply) T E s H :=
  wp_bind (hS.wp_take hk (fun h => wp_modify (hok h)) he)

theorem wp_devresReleaseAll {ks : List Resource} (hd : s.devres d = ks) (hnd : ks.Nodup)
    (hH : ∀ k ∈ ks, k ∉ H) (h : T () (s.setDevres d []) H) :
    wp S (devresReleaseAll d) T E s (H ∪ {x | x ∈ ks}) := by
  refine wp_bind (wp_read (wp_bind ?_))
  rw [hd]
  refine wp_each_give hnd hH (fun k ks' l _ hl he => hS.give l k hl ?_) (wp_modify h)
  rw [he]
  exact .inr List.mem_cons_self

theorem wp_idaFree {i : Fin 4} (hi : .minor i ∈ H)
    (h : T () { s with ida := s.ida.erase i } (H \ {.minor i})) :
    wp S (idaFree i) T E s H := wp_bind (hS.wp_give hi (wp_modify h))

theorem wp_strelaProbeNode (hcdev : .cdev d ∉ H) (hdev : .logicalDev d ∉ H)
    (hregion : .region (s.page d) ∈ H) (hminor : ∀ i, i ∉ s.ida → .minor i ∉ H)
    (hok : ∀ i, i ∉ s.ida → T ()
      { s with ida := i :: s.ida, devNum := Function.update s.devNum d i }
      (insert (.logicalDev d) (insert (.cdev d) (insert (.minor i) H))))
    (he : ∀ e i, E e { s with devNum := Function.update s.devNum d i }
      (H \ {.region (s.page d)})) : wp S (strelaProbeNode d r) T E s H := by
  have hfree (t : Drivers) (e : Driver.Errno) (ht : ∃ i, t = { s with
      devNum := Function.update s.devNum d i }) :
      wp S (dmaFreePages d) (fun _ => E e) (fun _ => E e) t H := by
    obtain ⟨i, rfl⟩ := ht
    exact wp_bind (wp_read (hS.wp_give hregion (he e i)))
  have hsame : { s with devNum := Function.update s.devNum d (s.devNum d) } = s := by
    rw [Function.update_eq_self]
  refine wp_orElseDo (wp_bind (wp_bind (wp_read ?_)))
  split
  · exact wp_ask nofun fun e _ => hfree s e ⟨_, hsame.symm⟩
  rename_i i hi
  replace hi : i ∉ s.ida := by simpa using List.find?_some hi
  refine wp_bind (hS.wp_take (hminor i hi) (fun _ => wp_bind (wp_modify (wp_pure ?_)))
    fun e _ => hfree s e ⟨_, hsame.symm⟩)
  -- The minor number is given back on both of the remaining failures.
  have hundo (e : Driver.Errno) : wp S (idaFree i)
      (fun _ t K => wp S (dmaFreePages d) (fun _ => E e) (fun _ => E e) t K)
      (fun _ t K => wp S (dmaFreePages d) (fun _ => E e) (fun _ => E e) t K)
      { s with ida := i :: s.ida, devNum := Function.update s.devNum d i }
      (insert (.minor i) H) := by
    refine hS.wp_idaFree (.inl rfl) ?_
    rw [Set.insert_sdiff_self_of_notMem (hminor i hi), List.erase_cons_head]
    exact hfree _ e ⟨i, rfl⟩
  refine wp_bind (wp_modify (wp_orElseDo (wp_bind (hS.wp_take (by simpa using hcdev) (fun _ => ?_)
    fun e _ => hundo e))))
  refine wp_orElseDo (hS.wp_take (by simpa using hdev) (fun _ => hok i hi) fun e _ => ?_)
  refine hS.wp_give (.inl rfl) ?_
  rw [Set.insert_sdiff_self_of_notMem (by simpa using hcdev)]
  exact hundo e

end Keeps

def Resource.dev : Resource → Option ℕ
  | priv d | mmio d | irq d | cdev d | logicalDev d => some d
  | region _ | minor _ => none

def Free (d : ℕ) (H : Set Resource) : Prop := ∀ k ∈ H, k.dev ≠ some d

theorem Free.notMem (h : Free d H) {k : Resource} (hk : k.dev = some d) : k ∉ H :=
  fun hm => h k hm hk

def stack (d : ℕ) : List Resource := [.irq d, .mmio d, .priv d]

/-- What the fields are after a probe has taken this much through the driver core. -/
def Drivers.after (s : Drivers) (d : ℕ) (ks : List Resource) (page : ℕ) (devNum : Fin 4)
    (next : ℕ) : Drivers :=
  { s with
    devres := Function.update s.devres d ks
    page := Function.update s.page d page
    devNum := Function.update s.devNum d devNum
    next := next }

/-- What a probe that failed leaves, to the driver core and to nobody. -/
structure Leaves (r : ProbeReply) (d : ℕ) (s : Drivers) (H : Set Resource) (s' : Drivers)
    (H' : Set Resource) : Prop where
  state : ∃ ks page devNum next, s' = s.after d ks page devNum next ∧ ks <:+ stack d ∧
    s.next ≤ next ∧ (r.irqFails = true → s.next < next) ∧
    H' = (if r.irqFails then insert (.region s.next) H else H) ∪ {x | x ∈ ks}

theorem leaves_early (hr : r.irqFails = false) {ks : List Resource} (hks : ks <:+ stack d) :
    Leaves r d s H (s.setDevres d ks) (H ∪ {x | x ∈ ks}) := by
  refine ⟨ks, s.page d, s.devNum d, s.next, ?_, hks, le_rfl, by simp [hr], by simp [hr]⟩
  simp [Drivers.after, Drivers.setDevres]

/-- The end of a probe, from the region on: if the interrupt fails, nobody gives it back. -/
theorem Keeps.wp_probeIrq (hS : Keeps S) (hf : Free d H) (hnext : .region s.next ∉ H)
    (hminor : ∀ i, i ∉ s.ida → .minor i ∉ H)
    (hr : r.irqFails = !(r.getIrq.toBool && r.requestIrq.toBool))
    (hok : r.irqFails = false → ∀ i, i ∉ s.ida → T ()
      { s.after d (stack d) s.next i (s.next + 1) with ida := i :: s.ida }
      (insert (.logicalDev d) (insert (.cdev d) (insert (.minor i)
        (insert (.region s.next) (H ∪ {x | x ∈ stack d}))))))
    (he : ∀ e s' H', Leaves r d s H s' H' → E e s' H') :
    wp S (do
      ask r.getIrq
      devmTake d (.irq d) r.requestIrq
      strelaProbeNode d r) T E (s.after d [.mmio d, .priv d] s.next (s.devNum d) (s.next + 1))
      (insert (.region s.next) (H ∪ {x | x ∈ [.mmio d, .priv d]})) := by
  have hlost (e : Driver.Errno) (hfail : r.irqFails = true) :
      E e (s.after d [.mmio d, .priv d] s.next (s.devNum d) (s.next + 1))
        (insert (.region s.next) (H ∪ {x | x ∈ [.mmio d, .priv d]})) := by
    refine he e _ _ ⟨_, _, _, _, rfl, by simp [stack], by omega, fun _ => by omega, ?_⟩
    rw [if_pos hfail, Set.insert_union]
  have hirq : Resource.irq d ∉ insert (.region s.next) (H ∪ {x | x ∈ [.mmio d, .priv d]}) := by
    simp [hf.notMem (show (Resource.irq d).dev = some d from rfl)]
  refine wp_bind (wp_ask (fun _ h₁ => wp_bind (hS.wp_devmTake hirq (fun h₂ => ?_)
    fun e h₂ => hlost e ?_)) fun e h₁ => hlost e ?_)
  · have hgood : r.irqFails = false := by simp [hr, h₁, h₂, Except.toBool]
    have hset : insert (.irq d) (insert (.region s.next) (H ∪ {x | x ∈ [.mmio d, .priv d]})) =
        insert (.region s.next) (H ∪ {x | x ∈ stack d}) := by
      rw [Set.insert_comm, insert_union_mem]
      rfl
    have hstate : (s.after d [.mmio d, .priv d] s.next (s.devNum d) (s.next + 1)).setDevres d
        (.irq d :: (s.after d [.mmio d, .priv d] s.next (s.devNum d) (s.next + 1)).devres d) =
        s.after d (stack d) s.next (s.devNum d) (s.next + 1) := by
      simp [Drivers.after, Drivers.setDevres, stack]
    have hout (k : Resource) (hk : k.dev = some d) (hk' : k ∉ stack d) :
        k ∉ insert (.region s.next) (H ∪ {x | x ∈ stack d}) := by
      rintro (rfl | h | h)
      · cases hk
      · exact hf.notMem hk h
      · exact hk' h
    have hpage : (s.after d (stack d) s.next (s.devNum d) (s.next + 1)).page d = s.next := by
      simp [Drivers.after]
    rw [hset, hstate]
    refine hS.wp_strelaProbeNode (hout _ rfl (by simp [stack])) (hout _ rfl (by simp [stack])) ?_ ?_
      (fun i hi => ?_) fun e i => ?_
    · rw [hpage]
      exact .inl rfl
    · intro i hi
      simpa [stack] using hminor i hi
    · have := hok hgood i hi
      simpa [Drivers.after] using this
    · refine he e _ _ ⟨stack d, s.next, i, s.next + 1, by simp [Drivers.after], List.suffix_rfl,
        by omega, by simp [hgood], ?_⟩
      have hnot : Resource.region s.next ∉ H ∪ {x | x ∈ stack d} := by simp [hnext, stack]
      rw [hpage, Set.insert_sdiff_self_of_notMem hnot, hgood]
      rfl
  · simp [hr, h₂, Except.toBool]
  · simp [hr, h₁, Except.toBool]

/-- How a probe ends: with all that a device needs, or with what the driver core gives back, and the
region lost if there is no interrupt. -/
theorem Keeps.wp_strelaProbe (hS : Keeps S) (hf : Free d H) (hd : s.devres d = [])
    (hnext : .region s.next ∉ H) (hminor : ∀ i, i ∉ s.ida → .minor i ∉ H)
    (hok : r.irqFails = false → ∀ i, i ∉ s.ida → T ()
      { s.after d (stack d) s.next i (s.next + 1) with ida := i :: s.ida }
      (insert (.logicalDev d) (insert (.cdev d) (insert (.minor i)
        (insert (.region s.next) (H ∪ {x | x ∈ stack d}))))))
    (he : ∀ e s' H', Leaves r d s H s' H' → E e s' H') : wp S (strelaProbe d r) T E s H := by
  have hsuffix (ks : List Resource) (h : ks = [.priv d] ∨ ks = [.mmio d, .priv d]) :
      ks <:+ stack d := by
    obtain rfl | rfl := h <;> simp [stack, List.suffix_cons_iff]
  have hnone : s.setDevres d [] = s := by rw [← hd, Drivers.setDevres, Function.update_eq_self]
  have hempty : H ∪ {x | x ∈ ([] : List Resource)} = H := by simp
  refine wp_bind (hS.wp_devmTake (hf.notMem rfl) (fun h₁ => ?_) fun e h₁ => he e s H ?_)
  · rw [hd, ← hempty, insert_union_mem]
    have hmmio : Resource.mmio d ∉ H ∪ {x | x ∈ [.priv d]} := by
      simp [hf.notMem (show (Resource.mmio d).dev = some d from rfl)]
    refine wp_bind (hS.wp_devmTake hmmio (fun h₂ => ?_) fun e h₂ =>
      he e _ _ (leaves_early ?_ (hsuffix _ (.inl rfl))))
    · rw [insert_union_mem, Drivers.setDevres_devres, Drivers.setDevres_setDevres]
      refine wp_bind (hS.wp_use (.inr List.mem_cons_self) (wp_bind (wp_ask (fun _ h₃ => ?_)
        fun e h₃ => he e _ _ (leaves_early ?_ (hsuffix _ (.inr rfl))))))
      · have hregion : Resource.region s.next ∉ H ∪ {x | x ∈ [.mmio d, .priv d]} := by simp [hnext]
        refine wp_bind (wp_bind (wp_read (wp_bind (hS.wp_take hregion (fun h₄ => ?_)
          fun e h₄ => he e _ _ (leaves_early ?_ (hsuffix _ (.inr rfl)))))))
        · have hok₃ : r.response = r.challenge₁ + r.challenge₂ := by
            by_contra hne
            rw [if_pos hne] at h₃
            cases h₃
          have hstate : { s.setDevres d [.mmio d, .priv d] with
              page := Function.update s.page d s.next, next := s.next + 1 } =
              s.after d [.mmio d, .priv d] s.next (s.devNum d) (s.next + 1) := by
            simp [Drivers.after, Drivers.setDevres]
          have hrest := hS.wp_probeIrq hf hnext hminor
            (by simp [ProbeReply.irqFails, h₁, h₂, hok₃, h₄, Except.toBool]) hok he
          rw [← hstate] at hrest
          exact wp_modify hrest
        · simp [ProbeReply.irqFails, h₄, Except.toBool]
      · have hne : r.response ≠ r.challenge₁ + r.challenge₂ := by
          intro heq
          rw [if_neg (not_not.mpr heq)] at h₃
          cases h₃
        simp [ProbeReply.irqFails, hne]
    · simp [ProbeReply.irqFails, h₂, Except.toBool]
  · have hr : r.irqFails = false := by simp [ProbeReply.irqFails, h₁, Except.toBool]
    have := leaves_early (s := s) (H := H) hr (List.nil_suffix (l := stack d))
    rwa [hnone, hempty] at this

/-! ## All devices -/

/-- What is held with these devices bound and these regions lost. -/
def Owned (lost : List ℕ) (s : Drivers) : Resource → Prop
  | .priv d | .mmio d | .irq d | .cdev d | .logicalDev d => d ∈ s.bound
  | .region n => n ∈ lost ∨ ∃ d ∈ s.bound, s.page d = n
  | .minor i => ∃ d ∈ s.bound, s.devNum d = i

structure Tidy (lost : List ℕ) (s : Drivers) (H : Set Resource) : Prop where
  held : ∀ k, k ∈ H ↔ Owned lost s k
  devres : ∀ d, s.devres d = if d ∈ s.bound then stack d else []
  nodup : s.bound.Nodup
  lost_lt : ∀ n ∈ lost, n < s.next
  lost_nodup : lost.Nodup
  page_lt : ∀ d ∈ s.bound, s.page d < s.next ∧ s.page d ∉ lost
  page_inj : ∀ d ∈ s.bound, ∀ d' ∈ s.bound, s.page d = s.page d' → d = d'
  ida : ∀ i, i ∈ s.ida ↔ ∃ d ∈ s.bound, s.devNum d = i
  ida_nodup : s.ida.Nodup
  devNum_inj : ∀ d ∈ s.bound, ∀ d' ∈ s.bound, s.devNum d = s.devNum d' → d = d'

variable {lost : List ℕ} {page next : ℕ} {devNum : Fin 4}

theorem Tidy.free (h : Tidy lost s H) (hd : d ∉ s.bound) : Free d H := by
  rintro k hk hdev
  rw [h.held] at hk
  cases k with
  | region | minor => cases hdev
  | priv | mmio | irq | cdev | logicalDev =>
    obtain rfl := Option.some.inj hdev
    exact hd hk

theorem Tidy.after (h : Tidy lost s H) (hd : d ∉ s.bound) (hn : s.next ≤ next) :
    Tidy lost (s.after d [] page devNum next) H := by
  have hne {d' : ℕ} (hd' : d' ∈ s.bound) : d' ≠ d := fun he => hd (he ▸ hd')
  have hpage {d' : ℕ} (hd' : d' ∈ s.bound) : (s.after d [] page devNum next).page d' = s.page d' :=
    Function.update_of_ne (hne hd') ..
  have hnum {d' : ℕ} (hd' : d' ∈ s.bound) :
      (s.after d [] page devNum next).devNum d' = s.devNum d' := Function.update_of_ne (hne hd') ..
  constructor
  · intro k
    rw [h.held]
    cases k with
    | region n =>
      exact or_congr_right (exists_congr fun d' => and_congr_right fun hd' => by rw [hpage hd'])
    | minor i => exact exists_congr fun d' => and_congr_right fun hd' => by rw [hnum hd']
    | priv | mmio | irq | cdev | logicalDev => rfl
  · intro d'
    rcases eq_or_ne d' d with rfl | hne'
    · exact (Function.update_self ..).trans (if_neg hd).symm
    · exact (Function.update_of_ne hne' ..).trans (h.devres d')
  · exact h.nodup
  · exact fun n hn' => lt_of_lt_of_le (h.lost_lt n hn') hn
  · exact h.lost_nodup
  · intro d' hd'
    rw [hpage hd']
    exact ⟨lt_of_lt_of_le (h.page_lt d' hd').1 hn, (h.page_lt d' hd').2⟩
  · intro d₁ h₁ d₂ h₂
    rw [hpage h₁, hpage h₂]
    exact h.page_inj d₁ h₁ d₂ h₂
  · intro i
    rw [show (s.after d [] page devNum next).ida = s.ida from rfl, h.ida]
    exact exists_congr fun d' => and_congr_right fun hd' => by rw [hnum hd']
  · exact h.ida_nodup
  · intro d₁ h₁ d₂ h₂
    rw [hnum h₁, hnum h₂]
    exact h.devNum_inj d₁ h₁ d₂ h₂

/-- A region that nobody gives back is one more that is lost. -/
theorem Tidy.lose {n : ℕ} (h : Tidy lost s H) (hn : n < s.next) (hnew : .region n ∉ H) :
    Tidy (n :: lost) s (insert (.region n) H) := by
  have hnot : n ∉ lost ∧ ∀ d ∈ s.bound, s.page d ≠ n := by
    rw [h.held] at hnew
    simpa [Owned] using hnew
  refine ⟨fun k => ?_, h.devres, h.nodup, ?_, List.nodup_cons.mpr ⟨hnot.1, h.lost_nodup⟩,
    fun d hd => ⟨(h.page_lt d hd).1, ?_⟩, h.page_inj, h.ida, h.ida_nodup, h.devNum_inj⟩
  · rw [Set.mem_insert_iff, h.held]
    cases k <;> simp [Owned, or_assoc]
  · rintro n' hn'
    rcases List.mem_cons.mp hn' with rfl | hn'
    · exact hn
    · exact h.lost_lt n' hn'
  · rw [List.mem_cons, not_or]
    exact ⟨hnot.2 d hd, (h.page_lt d hd).2⟩

section Numbers

variable {γ : Type*} {f : ℕ → γ} {v x : γ} {l : List ℕ}

theorem exists_update_cons (hd : d ∉ l) :
    (∃ d' ∈ d :: l, Function.update f d v d' = x) ↔ v = x ∨ ∃ d' ∈ l, f d' = x := by
  have hne {d' : ℕ} (hd' : d' ∈ l) : d' ≠ d := fun he => hd (he ▸ hd')
  simp only [List.exists_mem_cons_iff, Function.update_self]
  exact or_congr_right (exists_congr fun d' => and_congr_right fun hd' => by
    rw [Function.update_of_ne (hne hd')])

theorem update_cons_inj (h : ∀ d₁ ∈ l, ∀ d₂ ∈ l, f d₁ = f d₂ → d₁ = d₂)
    (hv : ∀ d' ∈ l, f d' ≠ v) : ∀ d₁ ∈ d :: l, ∀ d₂ ∈ d :: l,
      Function.update f d v d₁ = Function.update f d v d₂ → d₁ = d₂ := by
  have htail {d₁ : ℕ} (h₁ : d₁ ∈ d :: l) (hne : d₁ ≠ d)
      (he : Function.update f d v d₁ = v) : False := by
    rw [Function.update_of_ne hne] at he
    exact hv d₁ ((List.mem_cons.mp h₁).resolve_left hne) he
  intro d₁ h₁ d₂ h₂ he
  rcases eq_or_ne d₁ d with rfl | hne₁
  · rcases eq_or_ne d₂ d₁ with rfl | hne₂
    · rfl
    · rw [Function.update_self] at he
      exact (htail h₂ hne₂ he.symm).elim
  · rcases eq_or_ne d₂ d with rfl | hne₂
    · rw [Function.update_self] at he
      exact (htail h₁ hne₁ he).elim
    · rw [Function.update_of_ne hne₁, Function.update_of_ne hne₂] at he
      exact h d₁ ((List.mem_cons.mp h₁).resolve_left hne₁) d₂
        ((List.mem_cons.mp h₂).resolve_left hne₂) he

end Numbers

theorem Tidy.bind (h : Tidy lost s H) (hd : d ∉ s.bound) {i : Fin 4} (hi : i ∉ s.ida) :
    Tidy lost { s.after d (stack d) s.next i (s.next + 1) with
        ida := i :: s.ida, bound := d :: s.bound }
      (insert (.logicalDev d) (insert (.cdev d) (insert (.minor i)
        (insert (.region s.next) (H ∪ {x | x ∈ stack d}))))) := by
  have hnum (d' : ℕ) (hd' : d' ∈ s.bound) : s.devNum d' ≠ i :=
    fun he => hi ((h.ida i).mpr ⟨d', hd', he⟩)
  constructor
  · intro k
    simp only [Set.mem_insert_iff, Set.mem_union, Set.mem_ofPred_eq, h.held]
    cases k with
    | region n =>
      simp only [Owned, Drivers.after, exists_update_cons hd, stack]
      grind
    | minor j =>
      simp only [Owned, Drivers.after, exists_update_cons hd, stack]
      grind
    | priv | mmio | irq | cdev | logicalDev =>
      simp only [Owned, stack]
      grind
  · intro d'
    rcases eq_or_ne d' d with rfl | hne'
    · simp [Drivers.after]
    · simp [Drivers.after, hne', h.devres]
  · exact List.nodup_cons.mpr ⟨hd, h.nodup⟩
  · exact fun n hn => (h.lost_lt n hn).trans (Nat.lt_succ_self _)
  · exact h.lost_nodup
  · intro d' hd'
    rcases eq_or_ne d' d with rfl | hne
    · simpa [Drivers.after] using fun hl => lt_irrefl _ (h.lost_lt _ hl)
    · obtain ⟨hlt, hlost⟩ := h.page_lt d' ((List.mem_cons.mp hd').resolve_left hne)
      have hpage : Function.update s.page d s.next d' = s.page d' := Function.update_of_ne hne ..
      simp only [Drivers.after, hpage]
      exact ⟨hlt.trans (Nat.lt_succ_self _), hlost⟩
  · exact update_cons_inj h.page_inj fun d' hd' => (h.page_lt d' hd').1.ne
  · intro j
    exact (List.mem_cons.trans (or_congr eq_comm (h.ida j))).trans (exists_update_cons hd).symm
  · exact List.nodup_cons.mpr ⟨hi, h.ida_nodup⟩
  · exact update_cons_inj h.devNum_inj hnum

theorem Keeps.wp_deviceAttach (hS : Keeps S) (h : Tidy lost s H) (hd : d ∉ s.bound)
    (hT : ∀ s' H', Tidy (if r.irqFails then s.next :: lost else lost) s' H' → T () s' H') :
    wp S (deviceAttach d r) T E s H := by
  have hf := h.free hd
  have hnext : Resource.region s.next ∉ H := by
    rw [h.held]
    rintro (hl | ⟨d', hd', hp⟩)
    · exact lt_irrefl _ (h.lost_lt _ hl)
    · exact (h.page_lt d' hd').1.ne hp
  have hminor (i : Fin 4) (hi : i ∉ s.ida) : Resource.minor i ∉ H := by
    rw [h.held]
    exact fun ho => hi ((h.ida i).mpr ho)
  refine wp_bind (wp_attempt
    (hS.wp_strelaProbe hf (by rw [h.devres, if_neg hd]) hnext hminor ?_ ?_))
  · intro hr i hi
    refine wp_modify (hT _ _ ?_)
    rw [hr]
    exact h.bind hd hi
  · rintro e s' H' ⟨ks, page, devNum, next, rfl, hks, hle, hlt, rfl⟩
    have hfree (k : Resource) (hk : k ∈ ks) :
        k ∉ if r.irqFails then insert (.region s.next) H else H := by
      have hdev : k.dev = some d := by
        have := hks.subset hk
        simp only [stack, List.mem_cons, List.not_mem_nil, or_false] at this
        obtain rfl | rfl | rfl := this <;> rfl
      have hne : k ≠ .region s.next := by
        rintro rfl
        cases hdev
      split <;> simp [hne, hf.notMem hdev]
    have hnd : (stack d).Nodup := by simp [stack]
    refine hS.wp_devresReleaseAll (by simp [Drivers.after]) (hnd.sublist hks.sublist) hfree ?_
    have hstate : (s.after d ks page devNum next).setDevres d [] =
        s.after d [] page devNum next := by simp [Drivers.after, Drivers.setDevres]
    rw [hstate]
    refine hT _ _ ?_
    split
    · rename_i hr
      exact (h.after hd hle).lose (hlt hr) hnext
    · exact h.after hd hle

theorem Tidy.unbind (h : Tidy lost s H) (hd : d ∈ s.bound) :
    Tidy lost { s.setDevres d [] with
        ida := s.ida.erase (s.devNum d), bound := s.bound.erase d }
      (((((H \ {.logicalDev d}) \ {.cdev d}) \ {.minor (s.devNum d)}) \ {.region (s.page d)}) \
        {x | x ∈ stack d}) := by
  have hmem (d' : ℕ) : d' ∈ s.bound.erase d ↔ d' ≠ d ∧ d' ∈ s.bound := h.nodup.mem_erase_iff
  have hpage := h.page_inj d hd
  have hnum := h.devNum_inj d hd
  constructor
  · intro k
    simp only [Set.mem_sdiff, Set.mem_singleton_iff, Set.mem_ofPred_eq, h.held]
    cases k with
    | region n =>
      have := (h.page_lt d hd).2
      simp only [Owned, Drivers.setDevres, hmem, stack]
      grind
    | minor i =>
      simp only [Owned, Drivers.setDevres, hmem, stack]
      grind
    | priv | mmio | irq | cdev | logicalDev =>
      simp only [Owned, hmem, stack]
      grind
  · intro d'
    rcases eq_or_ne d' d with rfl | hne
    · simp [hmem]
    · simp [Drivers.setDevres, hne, h.devres, hmem]
  · exact h.nodup.erase d
  · exact h.lost_lt
  · exact h.lost_nodup
  · exact fun d' hd' => h.page_lt d' (List.mem_of_mem_erase hd')
  · exact fun d₁ h₁ d₂ h₂ =>
      h.page_inj d₁ (List.mem_of_mem_erase h₁) d₂ (List.mem_of_mem_erase h₂)
  · intro i
    rw [h.ida_nodup.mem_erase_iff, h.ida]
    simp only [Drivers.setDevres, hmem]
    grind
  · exact h.ida_nodup.erase _
  · exact fun d₁ h₁ d₂ h₂ =>
      h.devNum_inj d₁ (List.mem_of_mem_erase h₁) d₂ (List.mem_of_mem_erase h₂)

theorem wp_deviceReleaseDriver (h : Tidy lost s H) (hd : d ∈ s.bound)
    (hT : ∀ s' H', Tidy lost s' H' → T () s' H') :
    wp (fun _ => True) (deviceReleaseDriver d) T E s H := by
  have hgive {k : Resource} {T' : Unit → Drivers → Set Resource → Prop} {s : Drivers}
      {H : Set Resource} (h : T' () s (H \ {k})) :
      wp (fun _ => True) (give k) T' E s H := wp_give_of (fun _ _ _ => trivial) h
  have huse {k : Resource} {T' : Unit → Drivers → Set Resource → Prop} {s : Drivers}
      {H : Set Resource} (h : T' () s H) : wp (fun _ => True) (use k) T' E s H :=
    wp_use_of (fun _ _ _ => trivial) h
  refine wp_bind (wp_bind (hgive (wp_bind (hgive (wp_bind (wp_read (wp_bind (wp_bind (hgive
    (wp_modify (wp_bind (huse (wp_bind (wp_bind (wp_read (hgive (huse ?_)))))))))))))))))
  have hsub : {x | x ∈ stack d} ⊆
      (((H \ {.logicalDev d}) \ {.cdev d}) \ {.minor (s.devNum d)}) \ {.region (s.page d)} := by
    intro k hk
    have hown : k ∈ H ↔ d ∈ s.bound := by
      simp only [stack, Set.mem_ofPred_eq, List.mem_cons, List.not_mem_nil, or_false] at hk
      obtain rfl | rfl | rfl := hk <;> exact h.held _
    simp only [stack, Set.mem_ofPred_eq, List.mem_cons, List.not_mem_nil, or_false] at hk
    simp only [Set.mem_sdiff, Set.mem_singleton_iff, hown.mpr hd, true_and]
    obtain rfl | rfl | rfl := hk <;> simp
  rw [← Set.sdiff_union_of_subset hsub]
  exact wp_bind (keeps_true.wp_devresReleaseAll ((h.devres d).trans (if_pos hd)) (by simp [stack])
    (fun k hk hk' => hk'.2 hk) (wp_modify (hT _ _ (h.unbind hd))))

theorem not_disciplined_remove (b : Books Drivers Resource) (d : ℕ) :
    ¬ Disciplined (strelaRemove d b).2.log := by
  intro h
  have hlog : (strelaRemove d b).2.log = (b.log ++ [.give (.logicalDev d) ()] ++
      [.give (.cdev d) ()] ++ [.give (.minor (b.mem.devNum d)) ()]) ++ .use (.logicalDev d) () ::
      [.give (.region (b.mem.page d)) (), .use (.logicalDev d) ()] := by
    simp [strelaRemove, idaFree, dmaFreePages, bind, Proc.give, Proc.use, Proc.read, Proc.modify]
  have hheld := h _ _ _ hlog
  have hmem : Resource.logicalDev d ∈ heldSet (b.log ++ [.give (.logicalDev d) ()] ++
      [.give (.cdev d) ()] ++ [.give (.minor (b.mem.devNum d)) ()]) := hheld
  rw [heldSet_give, heldSet_give, heldSet_give] at hmem
  exact hmem.1.1.2 rfl

theorem keeps_not_disciplined : Keeps fun l => ¬ Disciplined l where
  take _ _ hl _ h := hl (disciplined_concat.mp h).1
  use _ _ hl _ h := hl (disciplined_concat.mp h).1
  give _ _ hl _ h := hl (disciplined_concat.mp h).1

theorem not_disciplined_releaseDriver (b : Books Drivers Resource) (d : ℕ) :
    ¬ Disciplined (deviceReleaseDriver d b).2.log := by
  have hrest (s : Drivers) (H : Set Resource) : wp (fun l => ¬ Disciplined l)
      (do
        devresReleaseAll d
        modify fun s => { s with bound := s.bound.erase d } : ProbeProc Unit)
      (fun _ _ _ => True) (fun _ _ _ => True) s H := by
    refine wp_bind (wp_bind (wp_read (wp_bind (wp_each (I := fun _ _ _ => True) ?_ _ trivial
      fun _ _ _ => wp_modify (wp_modify trivial)))))
    intro k ks s H _
    exact wp_give_of (fun l hl _ h => hl (disciplined_concat.mp h).1) trivial
  exact (hrest _ _ (strelaRemove d b).2 rfl rfl (not_disciplined_remove b d)).1

/-! ## Runs -/

structure Reconciled (m : ProbeState) : Prop where
  tidy : Tidy m.lost m.books.mem (heldSet m.books.log)
  disciplined : Disciplined m.books.log ↔ m.removed = 0

variable {m m' : ProbeState} {e : ProbeEvent}

theorem reconciled_step (h : Reconciled m) (hst : ProbeStep m e m') : Reconciled m' := by
  cases hst with
  | @attach d r hd =>
    have hrun (S : List (Entry Resource Unit) → Prop) (hS : Keeps S) (hb : S m.books.log) :
        S (deviceAttach d r m.books).2.log ∧
        Tidy (if r.irqFails then m.books.mem.next :: m.lost else m.lost)
          (deviceAttach d r m.books).2.mem (heldSet (deviceAttach d r m.books).2.log) := by
      have hwp : wp S (deviceAttach d r)
          (fun _ => Tidy (if r.irqFails then m.books.mem.next :: m.lost else m.lost))
          (fun _ => Tidy (if r.irqFails then m.books.mem.next :: m.lost else m.lost)) m.books.mem
          (heldSet m.books.log) := hS.wp_deviceAttach h.tidy hd fun _ _ ht => ht
      exact hwp.run hb
    refine ⟨(hrun _ keeps_true trivial).2, ?_⟩
    by_cases hz : m.removed = 0
    · exact iff_of_true (hrun _ keeps_disciplined (h.disciplined.mpr hz)).1 hz
    · exact iff_of_false (hrun _ keeps_not_disciplined (mt h.disciplined.mp hz)).1 hz
  | @detach d hd =>
    have hwp : wp (fun _ => True) (deviceReleaseDriver d) (fun _ => Tidy m.lost)
        (fun _ => Tidy m.lost) m.books.mem (heldSet m.books.log) :=
      wp_deviceReleaseDriver h.tidy hd fun _ _ ht => ht
    constructor
    · exact (hwp.run trivial).2
    · exact iff_of_false (not_disciplined_releaseDriver _ d) (Nat.succ_ne_zero _)

theorem reconciled_of_reach (h : probeLts.Reach m) : Reconciled m := by
  refine h.invariant (P := Reconciled) (fun m hm => ?_) fun _ _ _ _ hs hst => reconciled_step hs hst
  obtain rfl := hm
  refine ⟨⟨fun k => ?_, fun _ => rfl, List.nodup_nil, nofun, List.nodup_nil, nofun, nofun,
    fun i => ?_, List.nodup_nil, nofun⟩, iff_of_true disciplined_nil rfl⟩
  · cases k <;> simp [Owned]
  · simp

/-- In every run, whatever fails in it: the regions that are held are those of the bound devices and
one for each probe that failed at its interrupt, which nobody gives back; and only what is held is
used and given back exactly as long as no device is removed. There are never more than four
devices. -/
theorem reach_probe (h : probeLts.Reach m) :
    (∀ n, .region n ∈ heldSet m.books.log ↔
      n ∈ m.lost ∨ ∃ d ∈ m.books.mem.bound, m.books.mem.page d = n) ∧
    m.lost.Nodup ∧ (∀ d ∈ m.books.mem.bound, m.books.mem.page d ∉ m.lost) ∧
    (Disciplined m.books.log ↔ m.removed = 0) ∧ m.books.mem.bound.length ≤ 4 := by
  have hs := reconciled_of_reach h
  refine ⟨fun n => hs.tidy.held _, hs.tidy.lost_nodup, fun d hd => (hs.tidy.page_lt d hd).2,
    hs.disciplined, ?_⟩
  have hnd : (m.books.mem.bound.map m.books.mem.devNum).Nodup :=
    hs.tidy.nodup.map_on hs.tidy.devNum_inj
  have hlen := hnd.length_le_card
  rwa [List.length_map, Fintype.card_fin] at hlen

def goodProbe : ProbeReply :=
  ⟨.ok (), .ok (), 1, 2, 3, .ok (), .ok (), .ok (), .ok (), .ok (), .ok ()⟩

def lateProbe : ProbeReply := { goodProbe with requestIrq := .error .einval }

theorem reach_again : ∃ m, probeLts.Reach m ∧ m.books.mem.bound = [0] ∧ m.lost = [0] ∧
    m.removed = 0 := by
  have hr₁ : probeLts.Reach _ :=
    .step (.start rfl) (.attach (d := 0) (r := lateProbe) List.not_mem_nil)
  have hr₂ := hr₁.step (.attach (d := 0) (r := goodProbe) (by decide +kernel))
  refine ⟨_, hr₂, ?_, rfl, rfl⟩
  decide +kernel

theorem reach_probe_again : ∃ m, probeLts.Reach m ∧ m.books.mem.bound = [0] ∧ m.lost = [0] ∧
    .region 0 ∈ heldSet m.books.log ∧ Disciplined m.books.log := by
  obtain ⟨m, hr, hbound, hlost, hremoved⟩ := reach_again
  obtain ⟨hregion, -, -, hdisc, -⟩ := reach_probe hr
  exact ⟨m, hr, hbound, hlost, (hregion 0).mpr (.inl (by simp [hlost])), hdisc.mpr hremoved⟩

end Strela.Legacy
