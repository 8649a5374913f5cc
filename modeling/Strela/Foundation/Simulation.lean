import Mathlib.Logic.Relation

/-! # Programs that follow a step relation

A program that returns a value or stops with an error follows a step relation if
some run of the relation ends in the state its value stands for or, when it
stops, in a state that fits the error.
-/

namespace Foundation

open Relation

universe u

variable {σ ε : Type*} {α β : Type u}

def Follows (r : σ → σ → Prop) (stop : ε → σ → Prop) (out : α → σ) (s : σ) : Except ε α → Prop
  | .ok a => ReflTransGen r s (out a)
  | .error e => ∃ s', ReflTransGen r s s' ∧ stop e s'

variable {r : σ → σ → Prop} {stop : ε → σ → Prop} {s s' : σ}

theorem keeps_of_step {P : σ → Prop} (hP : ∀ s s', P s → r s s' → P s')
    (h : ReflTransGen r s s') (hs : P s) : P s' := by
  induction h with
  | refl => exact hs
  | tail _ hst ih => exact hP _ _ ih hst

namespace Follows

variable {out : α → σ} {x : Except ε α}

theorem of_eq {a : α} (h : s = out a) : Follows r stop out s (.ok a) := by
  subst h
  exact ReflTransGen.refl

theorem stopped {e : ε} (h : stop e s) : Follows r stop out s (.error e) :=
  ⟨s, .refl, h⟩

theorem head (h : r s s') (hx : Follows r stop out s' x) : Follows r stop out s x := by
  cases x with
  | ok a => exact ReflTransGen.head h hx
  | error e =>
    obtain ⟨t, ht, he⟩ := hx
    exact ⟨t, ReflTransGen.head h ht, he⟩

theorem last {a : α} (h : r s (out a)) : Follows r stop out s (.ok a) :=
  ReflTransGen.single h

theorem bind (mid : α → σ) {out : β → σ} {f : α → Except ε β} (hx : Follows r stop mid s x)
    (hf : ∀ a, x = .ok a → Follows r stop out (mid a) (f a)) :
    Follows r stop out s (x >>= f) := by
  cases x with
  | error e => exact hx
  | ok a =>
    have hfa := hf a rfl
    change Follows r stop out s (f a)
    cases hb : f a with
    | ok b =>
      rw [hb] at hfa
      exact ReflTransGen.trans hx hfa
    | error e =>
      rw [hb] at hfa
      obtain ⟨t, ht, he⟩ := hfa
      exact ⟨t, ReflTransGen.trans hx ht, he⟩

theorem map {f : α → β} {out : β → σ} (hx : Follows r stop (fun a => out (f a)) s x) :
    Follows r stop out s (x.map f) := by
  cases x with
  | ok a => exact hx
  | error e => exact hx

end Follows

end Foundation
