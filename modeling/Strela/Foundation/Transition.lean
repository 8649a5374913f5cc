import Mathlib.Order.Basic

/-! # Labelled transition systems

Reachable states of a labelled transition system, the invariant rule, the
restriction of a system to the runs whose every step meets a condition on the
state before it, and what an observer notes of a run.
-/

namespace Foundation

/-- A labelled transition system, given by its start states and its steps. -/
structure Lts (σ α : Type*) where
  start : σ → Prop
  step : σ → α → σ → Prop

namespace Lts

variable {σ α β : Type*} (S : Lts σ α)

/-- The states some run of the system ends in. -/
inductive Reach : σ → Prop where
  | start {s : σ} : S.start s → Reach s
  | step {s s' : σ} {a : α} : Reach s → S.step s a s' → Reach s'

variable {S}

/-- What holds at the start and is kept by every step from a reachable state holds throughout. -/
theorem Reach.invariant {P : σ → Prop} (hs : ∀ s, S.start s → P s)
    (ht : ∀ s a s', S.Reach s → P s → S.step s a s' → P s') {s : σ} (h : S.Reach s) : P s := by
  induction h with
  | start h => exact hs _ h
  | step hr hst ih => exact ht _ _ _ hr ih hst

variable (S)

/-- The same system, run only through steps that meet a condition. -/
def restrict (C : σ → α → Prop) : Lts σ α where
  start := S.start
  step s a s' := C s a ∧ S.step s a s'

variable {S}

theorem Reach.of_restrict {C : σ → α → Prop} {s : σ} (h : (S.restrict C).Reach s) : S.Reach s := by
  induction h with
  | start h => exact .start h
  | step _ hst ih => exact .step ih hst.2

theorem Reach.restrict {C : σ → α → Prop} (hC : ∀ s a, C s a) {s : σ} (h : S.Reach s) :
    (S.restrict C).Reach s := by
  induction h with
  | start h => exact .start h
  | step _ hst ih => exact .step ih ⟨hC _ _, hst⟩

theorem Reach.restrict_mono {C D : σ → α → Prop} (hCD : ∀ s a, C s a → D s a) {s : σ}
    (h : (S.restrict C).Reach s) : (S.restrict D).Reach s := by
  induction h with
  | start h => exact .start h
  | step _ hst ih => exact .step ih ⟨hCD _ _ hst.1, hst.2⟩

variable (S)

/-- The runs, with all that is noted of their steps. -/
inductive Noted (note : σ → α → σ → List β) : List β → σ → Prop where
  | start {s : σ} : S.start s → Noted note [] s
  | step {bs : List β} {s s' : σ} {a : α} : Noted note bs s → S.step s a s' →
    Noted note (bs ++ note s a s') s'

def Run : List α → σ → Prop := S.Noted fun _ a _ => [a]

variable {S} {note : σ → α → σ → List β} {bs : List β} {s : σ}

theorem Noted.reach (h : S.Noted note bs s) : S.Reach s := by
  induction h with
  | start h => exact .start h
  | step _ hst ih => exact ih.step hst

theorem Run.step {as : List α} {a : α} {s' : σ} (h : S.Run as s) (hst : S.step s a s') :
    S.Run (as ++ [a]) s' := Noted.step h hst

/-- What holds at the start of nothing noted and is kept by every step with what is noted of it. -/
theorem Noted.invariant {P : List β → σ → Prop} (hs : ∀ s, S.start s → P [] s)
    (ht : ∀ bs s a s', S.Noted note bs s → P bs s → S.step s a s' → P (bs ++ note s a s') s')
    (h : S.Noted note bs s) : P bs s := by
  induction h with
  | start h => exact hs _ h
  | step hr hst ih => exact ht _ _ _ _ hr ih hst

end Lts

end Foundation
