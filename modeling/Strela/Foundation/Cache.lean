import Strela.Foundation.Bytes
import Mathlib.Logic.Function.Basic

/-! # A write-back cache beside a device

The processor works through a cache of lines of `L` bytes, the device on the memory
behind it, and nothing keeps the two in step but write-backs and invalidations that
are asked for. Lines are filled, written back and evicted at any time without being
asked for. Every line has an owner: as long as the processor writes only lines the
device does not own, the device works only on lines the processor does not own, and
only lines the processor does not own are invalidated, both sides see one memory.
-/

namespace Foundation

structure Cache where
  ram : Mem
  data : Mem
  present : ℕ → Bool
  dirty : ℕ → Bool

inductive CacheEvent
  | fill (l : ℕ)
  | writeBack (l : ℕ)
  | evict (l : ℕ)
  | invalidate (l : ℕ)
  | cpuWrite (x : ℕ) (v : UInt8)
  | deviceWrite (x : ℕ) (v : UInt8)
  deriving DecidableEq

namespace CacheEvent

/-- What may happen at any time without being asked for. -/
def IsNoise : CacheEvent → Prop
  | fill _ | writeBack _ | evict _ => True
  | _ => False

/-- What the event does to a memory that has no cache. -/
def effect (m : Mem) : CacheEvent → Mem
  | cpuWrite x v | deviceWrite x v => m.storeByte x v
  | _ => m

def IsUpkeep (e : CacheEvent) : Prop := e.IsNoise ∨ ∃ l, e = invalidate l

theorem IsNoise.effect_eq {e : CacheEvent} (h : e.IsNoise) (m : Mem) : e.effect m = m := by
  cases e <;> first | rfl | exact h.elim

end CacheEvent

namespace Cache

variable (L : ℕ)

def view (c : Cache) : Mem := fun x => if c.present (x / L) then c.data x else c.ram x

def writeBack (c : Cache) (l : ℕ) : Cache :=
  { c with
    ram := fun x => if x / L = l ∧ c.dirty l then c.data x else c.ram x
    dirty := Function.update c.dirty l false }

def step (c : Cache) : CacheEvent → Cache
  | .fill l =>
    if c.present l then c
    else { c with
      data := fun x => if x / L = l then c.ram x else c.data x
      present := Function.update c.present l true }
  | .writeBack l => c.writeBack L l
  | .evict l => { c.writeBack L l with present := Function.update c.present l false }
  | .invalidate l =>
    { c with
      present := Function.update c.present l false
      dirty := Function.update c.dirty l false }
  | .cpuWrite x v =>
    if c.present (x / L) then
      { c with
        data := c.data.storeByte x v
        dirty := Function.update c.dirty (x / L) true }
    else { c with ram := c.ram.storeByte x v }
  | .deviceWrite x v => { c with ram := c.ram.storeByte x v }

variable {L} in
theorem view_of_present {c : Cache} {x : ℕ} (h : c.present (x / L) = true) :
    c.view L x = c.data x := if_pos h

variable {L} in
theorem view_of_absent {c : Cache} {x : ℕ} (h : ¬ c.present (x / L) = true) :
    c.view L x = c.ram x := if_neg h

def run (c : Cache) (es : List CacheEvent) : Cache := es.foldl (step L) c

end Cache

/-- Who may change a line; a shared line may be read by both. -/
inductive Owner | cpu | shared | device
  deriving DecidableEq, Repr

/-- The two sides see `m`, each on the lines the other does not own. -/
structure Coherent (L : ℕ) (c : Cache) (owner : ℕ → Owner) (m : Mem) : Prop where
  present : ∀ l, c.dirty l = true → c.present l = true
  clean : ∀ l, owner l ≠ .cpu → c.dirty l = false
  cpu : ∀ x, owner (x / L) ≠ .device → c.view L x = m x
  ram : ∀ x, c.dirty (x / L) = false → c.ram x = m x

variable {L : ℕ} {c : Cache} {owner owner' : ℕ → Owner} {m : Mem} {l x : ℕ} {v : UInt8}
  {e : CacheEvent} {es : List CacheEvent}

namespace Coherent

theorem ram_eq (h : Coherent L c owner m) (ho : owner (x / L) ≠ .cpu) : c.ram x = m x :=
  h.ram x (h.clean _ ho)

theorem fill (h : Coherent L c owner m) (l : ℕ) : Coherent L (c.step L (.fill l)) owner m := by
  rw [Cache.step]
  split
  · exact h
  · rename_i hp
    have hd : c.dirty l = false := by
      by_contra hd
      exact hp (h.present l (by simpa using hd))
    constructor
    · intro l' hl'
      by_cases he : l' = l
      · simp [he]
      · simpa [Function.update_of_ne he] using h.present l' hl'
    · exact h.clean
    · intro x ho
      have hv := h.cpu x ho
      simp only [Cache.view] at hv ⊢
      by_cases he : x / L = l
      · subst he
        simpa [hp] using hv
      · simpa [Function.update_of_ne he, he] using hv
    · exact h.ram

theorem writeBack (h : Coherent L c owner m) (l : ℕ) : Coherent L (c.writeBack L l) owner m := by
  constructor
  · intro l' hl'
    by_cases he : l' = l
    · simp [Cache.writeBack, he] at hl'
    · exact h.present l' (by simpa [Cache.writeBack, Function.update_of_ne he] using hl')
  · intro l' ho
    by_cases he : l' = l
    · simp [Cache.writeBack, he]
    · simpa [Cache.writeBack, Function.update_of_ne he] using h.clean l' ho
  · intro x ho
    have hv := h.cpu x ho
    by_cases hp : c.present (x / L) = true
    · rw [Cache.view_of_present hp] at hv
      exact (Cache.view_of_present (c := c.writeBack L l) hp).trans hv
    · have hd : ¬ (x / L = l ∧ c.dirty l = true) := by
        rintro ⟨rfl, hd⟩
        exact hp (h.present _ hd)
      rw [Cache.view_of_absent hp] at hv
      exact (Cache.view_of_absent (c := c.writeBack L l) hp).trans ((if_neg hd).trans hv)
  · intro x hx
    simp only [Cache.writeBack] at hx ⊢
    by_cases he : x / L = l ∧ c.dirty l = true
    · obtain ⟨rfl, hd⟩ := he
      -- A dirty line is the processor's, and what the processor sees of it is in the cache.
      have ho : owner (x / L) ≠ .device := by
        intro ho
        have := h.clean (x / L) (by rw [ho]; decide)
        rw [this] at hd
        cases hd
      have hv := h.cpu x ho
      rw [Cache.view_of_present (h.present _ hd)] at hv
      rw [if_pos ⟨rfl, hd⟩, hv]
    · rw [if_neg he]
      apply h.ram
      by_cases hl : x / L = l
      · simpa [hl] using he
      · rwa [Function.update_of_ne hl] at hx

theorem drop (h : Coherent L c owner m) (hd : c.dirty l = false) :
    Coherent L { c with present := Function.update c.present l false } owner m := by
  constructor
  · intro l' hl'
    have hne : l' ≠ l := by
      rintro rfl
      simp only [hd] at hl'
      cases hl'
    simp only [Function.update_of_ne hne]
    exact h.present l' hl'
  · exact h.clean
  · intro x ho
    simp only [Cache.view]
    by_cases he : x / L = l
    · subst he
      simpa using h.ram x hd
    · rw [Function.update_of_ne he]
      exact h.cpu x ho
  · exact h.ram

theorem evict (h : Coherent L c owner m) (l : ℕ) : Coherent L (c.step L (.evict l)) owner m :=
  (h.writeBack l).drop (by simp [Cache.writeBack])

theorem noise (h : Coherent L c owner m) (he : e.IsNoise) : Coherent L (c.step L e) owner m := by
  cases e with
  | fill l => exact h.fill l
  | writeBack l => exact h.writeBack l
  | evict l => exact h.evict l
  | invalidate | cpuWrite | deviceWrite => exact he.elim

theorem invalidate (h : Coherent L c owner m) (ho : owner l ≠ .cpu) :
    Coherent L (c.step L (.invalidate l)) owner m := by
  have hd := h.clean l ho
  have he : c.step L (.invalidate l) = { c with present := Function.update c.present l false } := by
    have hsame : Function.update c.dirty l false = c.dirty := by
      rw [← hd, Function.update_eq_self]
    simp [Cache.step, hsame]
  rw [he]
  exact h.drop hd

theorem relabel (h : Coherent L c owner m) (hc : ∀ l, owner' l ≠ .cpu → c.dirty l = false)
    (hv : ∀ x, owner (x / L) = .device → owner' (x / L) ≠ .device → c.view L x = m x) :
    Coherent L c owner' m := by
  constructor
  · exact h.present
  · exact hc
  · intro x ho
    by_cases hd : owner (x / L) = .device
    · exact hv x hd ho
    · exact h.cpu x hd
  · exact h.ram

theorem cpuWrite (h : Coherent L c owner m) (ho : owner (x / L) ≠ .device) :
    Coherent L (c.step L (.cpuWrite x v)) (Function.update owner (x / L) .cpu)
      (m.storeByte x v) := by
  have hclean : ∀ l, Function.update owner (x / L) .cpu l ≠ .cpu → l ≠ x / L ∧ owner l ≠ .cpu := by
    intro l hl
    by_cases he : l = x / L
    · simp [he] at hl
    · exact ⟨he, by rwa [Function.update_of_ne he] at hl⟩
  have hdevice : ∀ l, Function.update owner (x / L) .cpu l ≠ .device → owner l ≠ .device := by
    intro l hl
    by_cases he : l = x / L
    · rwa [he]
    · rwa [Function.update_of_ne he] at hl
  rw [Cache.step]
  split
  · rename_i hp
    constructor
    · intro l hl
      by_cases he : l = x / L
      · rwa [he]
      · exact h.present l (by simpa [Function.update_of_ne he] using hl)
    · intro l hl
      obtain ⟨hne, hl⟩ := hclean l hl
      simpa [Function.update_of_ne hne] using h.clean l hl
    · intro y hy
      have hv := h.cpu y (hdevice _ hy)
      simp only [Cache.view, Mem.storeByte] at hv ⊢
      by_cases he : y = x
      · simp [he, hp]
      · simpa [he] using hv
    · intro y hy
      by_cases he : y / L = x / L
      · simp [he] at hy
      · have hne : y ≠ x := fun heq => he (by rw [heq])
        rw [Mem.storeByte, if_neg hne]
        exact h.ram y (by simpa [Function.update_of_ne he] using hy)
  · rename_i hp
    constructor
    · exact h.present
    · exact fun l hl => h.clean l (hclean l hl).2
    · intro y hy
      have hv := h.cpu y (hdevice _ hy)
      simp only [Cache.view, Mem.storeByte] at hv ⊢
      by_cases he : y = x
      · simp [he, hp]
      · simpa [he] using hv
    · intro y hy
      have hr := h.ram y hy
      simp only [Mem.storeByte]
      split
      · rfl
      · exact hr

theorem deviceWrite (h : Coherent L c owner m) (ho : owner (x / L) ≠ .cpu) :
    Coherent L (c.step L (.deviceWrite x v)) (Function.update owner (x / L) .device)
      (m.storeByte x v) := by
  constructor
  · exact h.present
  · intro l hl
    by_cases he : l = x / L
    · exact he ▸ h.clean _ ho
    · rw [Function.update_of_ne he] at hl
      exact h.clean l hl
  · intro y hy
    have hne : y / L ≠ x / L := by
      intro he
      simp [he] at hy
    have hyx : y ≠ x := fun heq => hne (by rw [heq])
    rw [Function.update_of_ne hne] at hy
    have hv := h.cpu y hy
    simpa [Cache.step, Cache.view, Mem.storeByte, hyx] using hv
  · intro y hy
    have hr := h.ram y hy
    simp only [Cache.step, Mem.storeByte]
    split
    · rfl
    · exact hr

end Coherent

/-! ## Runs of events -/

namespace Cache

theorem dirty_step (he : e.IsUpkeep) (hd : c.dirty l = false) : (c.step L e).dirty l = false := by
  have hup : ∀ l', Function.update c.dirty l' false l = false := by
    intro l'
    by_cases hl : l = l'
    · simp [hl]
    · rwa [Function.update_of_ne hl]
  rcases he with he | ⟨l', rfl⟩
  · cases e with
    | fill l' =>
      rw [step]
      split <;> exact hd
    | writeBack l' => exact hup l'
    | evict l' => exact hup l'
    | invalidate | cpuWrite | deviceWrite => exact he.elim
  · exact hup l'

theorem dirty_run (he : ∀ e ∈ es, e.IsUpkeep) (hd : c.dirty l = false) :
    (c.run L es).dirty l = false := by
  induction es generalizing c with
  | nil => exact hd
  | cons e es ih =>
    exact ih (fun e' h => he e' (List.mem_cons_of_mem _ h))
      (dirty_step (he e List.mem_cons_self) hd)

theorem dirty_run_of_mem (he : ∀ e ∈ es, e.IsUpkeep) (hl : .writeBack l ∈ es) :
    (c.run L es).dirty l = false := by
  induction es generalizing c with
  | nil => simp at hl
  | cons e es ih =>
    have hes : ∀ e ∈ es, e.IsUpkeep := fun e' h => he e' (List.mem_cons_of_mem _ h)
    rcases List.mem_cons.mp hl with rfl | hl
    · exact dirty_run (c := c.step L (.writeBack l)) hes (by simp [step, writeBack])
    · exact ih hes hl

/-- The processor sees of the line what is in the memory. -/
def Fresh (L : ℕ) (c : Cache) (l : ℕ) : Prop := ∀ x, x / L = l → c.view L x = c.ram x

theorem fresh_of_absent (h : ¬ c.present l = true) : c.Fresh L l := by
  rintro x rfl
  exact view_of_absent h

theorem Fresh.writeBack (h : c.Fresh L l) (hd : c.dirty l = false) (l' : ℕ) :
    (c.writeBack L l').Fresh L l := by
  rintro x rfl
  have hram : (c.writeBack L l').ram x = c.ram x := by
    apply if_neg
    rintro ⟨rfl, ht⟩
    rw [hd] at ht
    cases ht
  have hx := h x rfl
  by_cases hp : c.present (x / L) = true
  · rw [view_of_present hp] at hx
    rw [hram, view_of_present (c := c.writeBack L l') hp, ← hx]
    rfl
  · exact view_of_absent (c := c.writeBack L l') hp

theorem Fresh.drop (h : c.Fresh L l) (l' : ℕ) (d : ℕ → Bool) :
    Fresh L { c with present := Function.update c.present l' false, dirty := d } l := by
  by_cases hl : l = l'
  · exact fresh_of_absent (by simp [hl])
  · rintro x rfl
    have hx := h x rfl
    by_cases hp : c.present (x / L) = true
    · rw [view_of_present hp] at hx
      rw [view_of_present (by simpa [Function.update_of_ne hl] using hp)]
      exact hx
    · exact view_of_absent (by simpa [Function.update_of_ne hl] using hp)

theorem Fresh.fill (h : c.Fresh L l) (l' : ℕ) : (c.step L (.fill l')).Fresh L l := by
  rw [step]
  split
  · exact h
  · rintro x rfl
    have hx := h x rfl
    by_cases hl : x / L = l'
    · rw [view_of_present (by simp [hl])]
      simp [hl]
    · by_cases hp : c.present (x / L) = true
      · rw [view_of_present hp] at hx
        rw [view_of_present (by simpa [Function.update_of_ne hl] using hp)]
        simpa [hl] using hx
      · exact view_of_absent (by simpa [Function.update_of_ne hl] using hp)

theorem Fresh.step (h : c.Fresh L l) (hd : c.dirty l = false)
    (he : e.IsUpkeep) : (c.step L e).Fresh L l := by
  rcases he with he | ⟨l', rfl⟩
  · cases e with
    | fill l' => exact h.fill l'
    | writeBack l' => exact h.writeBack hd l'
    | evict l' => exact (h.writeBack hd l').drop l' _
    | invalidate | cpuWrite | deviceWrite => exact he.elim
  · exact h.drop l' _

end Cache

namespace Coherent

theorem run_writes (h : Coherent L c owner m)
    (he : ∀ e ∈ es, e.IsNoise ∨ ∃ x v, e = .cpuWrite x v ∧ owner (x / L) = .cpu) :
    Coherent L (c.run L es) owner (es.foldl CacheEvent.effect m) := by
  induction es generalizing c m with
  | nil => exact h
  | cons e es ih =>
    refine ih ?_ fun e' h => he e' (List.mem_cons_of_mem _ h)
    rcases he e List.mem_cons_self with hn | ⟨x, v, rfl, ho⟩
    · rw [hn.effect_eq]
      exact h.noise hn
    · have hw := h.cpuWrite (v := v) (by rw [ho]; decide : owner (x / L) ≠ .device)
      rwa [← ho, Function.update_eq_self] at hw

theorem run_invalidate_fresh (h : Coherent L c owner m)
    (he : ∀ e ∈ es, e.IsNoise ∨ ∃ l, e = .invalidate l ∧ owner l ≠ .cpu) :
    Coherent L (c.run L es) owner m ∧
      ∀ l, owner l ≠ .cpu → (c.Fresh L l ∨ .invalidate l ∈ es) → (c.run L es).Fresh L l := by
  induction es generalizing c with
  | nil => exact ⟨h, fun l _ hl => hl.resolve_right (by simp)⟩
  | cons e es ih =>
    have hhead := he e List.mem_cons_self
    have hstep : Coherent L (c.step L e) owner m := by
      rcases hhead with hn | ⟨l, rfl, ho⟩
      · exact h.noise hn
      · exact h.invalidate ho
    obtain ⟨hrun, hfresh⟩ := ih hstep fun e' h => he e' (List.mem_cons_of_mem _ h)
    refine ⟨hrun, fun l ho hl => hfresh l ho ?_⟩
    have hweak : e.IsUpkeep := hhead.imp_right fun ⟨l, hl, _⟩ => ⟨l, hl⟩
    rcases hl with hl | hl
    · exact .inl (hl.step (h.clean l ho) hweak)
    · rcases List.mem_cons.mp hl with rfl | hl
      · exact .inl (Cache.fresh_of_absent (by simp [Cache.step]))
      · exact .inr hl

/-- Lines that are written back become shared if they were the processor's, lines that are dropped
if they were not, with whatever the cache does in between. -/
theorem run_maintain (h : Coherent L c owner m) {C D : Set ℕ}
    (he : ∀ e ∈ es, e.IsNoise ∨ ∃ l ∈ D, e = .invalidate l)
    (hC : ∀ l ∈ C, .writeBack l ∈ es) (hD : ∀ l ∈ D, .invalidate l ∈ es)
    (hcpu : ∀ l ∈ D, owner l ≠ .cpu)
    (ho : ∀ l, owner' l = owner l ∨ owner' l = .shared ∧ (l ∈ D ∨ l ∈ C ∧ owner l = .cpu)) :
    Coherent L (c.run L es) owner' m := by
  obtain ⟨hr, hf⟩ := h.run_invalidate_fresh fun e hmem => (he e hmem).imp_right
    fun ⟨l, hl, heq⟩ => ⟨l, heq, hcpu l hl⟩
  have hup : ∀ e ∈ es, e.IsUpkeep := fun e hmem => (he e hmem).imp_right
    fun ⟨l, _, heq⟩ => ⟨l, heq⟩
  refine hr.relabel ?_ ?_
  · intro l hl
    rcases ho l with heq | ⟨-, hmem | ⟨hmem, -⟩⟩
    · exact hr.clean l (heq ▸ hl)
    · exact hr.clean l (hcpu l hmem)
    · exact Cache.dirty_run_of_mem hup (hC l hmem)
  · intro x hd hn
    rcases ho (x / L) with heq | ⟨-, hmem | ⟨-, heq⟩⟩
    · exact absurd (heq.trans hd) hn
    · have hne := hcpu _ hmem
      rw [hf _ hne (.inr (hD _ hmem)) x rfl]
      exact hr.ram_eq hne
    · rw [hd] at heq
      cases heq

end Coherent

end Foundation
