import Mathlib.Data.List.Count
import Mathlib.Data.List.Induction
import Mathlib.Logic.Function.Basic

/-! # Ledgers

Histories of resources that are taken, used and given back by their owners. In
a disciplined history a resource is only taken while nobody holds it, and only
used and given back by its holder; then whatever an owner took it has given back
exactly once, or still holds. A table of owners tallies with a disciplined
history if it shows every resource with its holder.
-/

namespace Foundation

inductive Entry (κ ω : Type*)
  | take (k : κ) (o : ω)
  | use (k : κ) (o : ω)
  | give (k : κ) (o : ω)
  deriving DecidableEq

namespace Entry

variable {κ ω : Type*} [DecidableEq κ]

def apply (held : κ → Option ω) : Entry κ ω → κ → Option ω
  | take k o => Function.update held k (some o)
  | use _ _ => held
  | give k _ => Function.update held k none

def Allowed (held : κ → Option ω) : Entry κ ω → Prop
  | take k _ => held k = none
  | use k o | give k o => held k = some o

end Entry

variable {κ ω : Type*} [DecidableEq κ] {l : List (Entry κ ω)} {e : Entry κ ω} {k : κ} {o : ω}

def holder (l : List (Entry κ ω)) : κ → Option ω :=
  l.foldl Entry.apply fun _ => none

@[simp] theorem holder_nil : holder ([] : List (Entry κ ω)) k = none := rfl

@[simp] theorem holder_concat : holder (l ++ [e]) = e.apply (holder l) := by
  simp [holder]

/-- Every entry of a history meets a condition on the history before it. -/
def Throughout {α : Type*} (P : List α → α → Prop) (l : List α) : Prop :=
  ∀ l₁ a l₂, l = l₁ ++ a :: l₂ → P l₁ a

theorem throughout_nil {α : Type*} {P : List α → α → Prop} : Throughout P [] := by
  intro l₁ a l₂ h
  simp at h

theorem throughout_concat {α : Type*} {P : List α → α → Prop} {l : List α} {a : α} :
    Throughout P (l ++ [a]) ↔ Throughout P l ∧ P l a := by
  constructor
  · intro h
    refine ⟨fun l₁ a' l₂ hl => ?_, h l a [] rfl⟩
    exact h l₁ a' (l₂ ++ [a]) (by simp [hl])
  · rintro ⟨hd, ha⟩ l₁ a' l₂ hl
    rcases List.eq_nil_or_concat l₂ with rfl | ⟨l₂', a₂, rfl⟩
    · obtain ⟨rfl, h⟩ := List.append_inj' hl rfl
      obtain rfl : a = a' := by simpa using h
      exact ha
    · rw [List.concat_eq_append, ← List.cons_append, ← List.append_assoc] at hl
      exact hd l₁ a' l₂' (List.append_inj' hl rfl).1

def Disciplined (l : List (Entry κ ω)) : Prop :=
  ∀ l₁ e l₂, l = l₁ ++ e :: l₂ → e.Allowed (holder l₁)

@[simp] theorem disciplined_nil : Disciplined ([] : List (Entry κ ω)) := throughout_nil

@[simp] theorem disciplined_concat :
    Disciplined (l ++ [e]) ↔ Disciplined l ∧ e.Allowed (holder l) :=
  throughout_concat (P := fun (l : List (Entry κ ω)) e => e.Allowed (holder l))

/-- Whatever an owner took it gave back exactly once, or holds. -/
theorem Disciplined.count_take [DecidableEq ω] (hl : Disciplined l) (k : κ) (o : ω) :
    l.count (.take k o) = l.count (.give k o) + if holder l k = some o then 1 else 0 := by
  induction l using List.reverseRecOn with
  | nil => simp
  | append_singleton l e ih =>
    obtain ⟨hl, he⟩ := disciplined_concat.mp hl
    specialize ih hl
    rw [List.count_append, List.count_append, ih, holder_concat]
    cases e with
    | take k' o' =>
      by_cases hk : k' = k
      · subst hk
        have hn : holder l k' = none := he
        by_cases ho : o' = o <;> simp [Entry.apply, hn, ho]
      · simp [Entry.apply, hk, Ne.symm hk]
    | use k' o' =>
      have hu : (Entry.use k' o').apply (holder l) = holder l := rfl
      simp [hu]
    | give k' o' =>
      by_cases hk : k' = k
      · subst hk
        have hh : holder l k' = some o' := he
        by_cases ho : o' = o <;> simp [Entry.apply, hh, ho]
      · simp [Entry.apply, hk, Ne.symm hk]

/-! ## Tables of owners -/

/-- The table, in which `holds` says what an owner has, agrees with a disciplined history. -/
structure Tallies {σ : Type*} (holds : σ → κ → Prop) (table : ω → σ) (l : List (Entry κ ω)) :
    Prop where
  disciplined : Disciplined l
  holder_iff : ∀ k o, holder l k = some o ↔ holds (table o) k

namespace Tallies

variable {σ : Type*} {holds : σ → κ → Prop} {table : ω → σ} {x : σ}

theorem nil (h : ∀ o k, ¬ holds (table o) k) : Tallies holds table [] where
  disciplined := disciplined_nil
  holder_iff k o := by simp [h]

theorem use (hl : Tallies holds table l) (hk : holds (table o) k) :
    Tallies holds table (l ++ [.use k o]) where
  disciplined := disciplined_concat.mpr ⟨hl.disciplined, (hl.holder_iff k o).mpr hk⟩
  holder_iff k' o' := by
    rw [holder_concat]
    exact hl.holder_iff k' o'

theorem owner_eq {o' : ω} (hl : Tallies holds table l) (ho : holds (table o) k)
    (ho' : holds (table o') k) : o = o' := by
  have h := (hl.holder_iff k o).mpr ho
  rw [(hl.holder_iff k o').mpr ho'] at h
  exact (Option.some.inj h).symm

variable [DecidableEq ω]

theorem update (hl : Tallies holds table l) (hx : ∀ k, holds x k ↔ holds (table o) k) :
    Tallies holds (Function.update table o x) l where
  disciplined := hl.disciplined
  holder_iff k o' := by
    rw [hl.holder_iff]
    rcases eq_or_ne o' o with rfl | ho
    · simp [hx]
    · simp [ho]

theorem take (hl : Tallies holds table l) (hk : holder l k = none)
    (ho : ∀ k', ¬ holds (table o) k') (hx : ∀ k', holds x k' ↔ k' = k) :
    Tallies holds (Function.update table o x) (l ++ [.take k o]) where
  disciplined := disciplined_concat.mpr ⟨hl.disciplined, hk⟩
  holder_iff k' o' := by
    rw [holder_concat]
    rcases eq_or_ne o' o with rfl | hne
    · rcases eq_or_ne k' k with rfl | hk'
      · simp [Entry.apply, hx]
      · simp [Entry.apply, hx, hk', hl.holder_iff, ho]
    · rcases eq_or_ne k' k with rfl | hk'
      · have hn : ¬ holds (table o') k' := by
          rw [← hl.holder_iff, hk]
          simp
        simp [Entry.apply, hne, hn, Ne.symm hne]
      · simp [Entry.apply, hne, hk', hl.holder_iff]

theorem give (hl : Tallies holds table l) (ho : ∀ k', holds (table o) k' ↔ k' = k)
    (hx : ∀ k', ¬ holds x k') : Tallies holds (Function.update table o x) (l ++ [.give k o]) where
  disciplined := disciplined_concat.mpr ⟨hl.disciplined, (hl.holder_iff k o).mpr ((ho k).mpr rfl)⟩
  holder_iff k' o' := by
    rw [holder_concat]
    rcases eq_or_ne o' o with rfl | hne
    · rcases eq_or_ne k' k with rfl | hk'
      · simp [Entry.apply, hx]
      · simp [Entry.apply, hx, hk', hl.holder_iff, ho]
    · rcases eq_or_ne k' k with rfl | hk'
      · have hh : holder l k' = some o := (hl.holder_iff k' o).mpr ((ho k').mpr rfl)
        have hn : ¬ holds (table o') k' := by
          rw [← hl.holder_iff, hh]
          simpa using Ne.symm hne
        simp [Entry.apply, hne, hn]
      · simp [Entry.apply, hne, hk', hl.holder_iff]

theorem count_take (hl : Tallies holds table l) (k : κ) (o : ω) [Decidable (holds (table o) k)] :
    l.count (.take k o) = l.count (.give k o) + if holds (table o) k then 1 else 0 := by
  rw [hl.disciplined.count_take]
  simp only [hl.holder_iff]

end Tallies

end Foundation
