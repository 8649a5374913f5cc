import Strela.Foundation.Ledger
import Mathlib.Data.Set.Lattice

/-! # Taking resources and giving them back

Procedures that take resources, use them and give them back, and that may fail on
the way. A resource may rest on others, which have to be held for as long as it is.
The rules below carry a procedure's private memory and the set of resources held from
its start to its end, for the end by success and the end by failure alike; that no
resource is taken twice, used or given back without being held, or left without what
it rests on, is checked at each step and holds of the whole history.
-/

namespace Foundation

/-- The memory of a procedure, and the history of its resources. -/
structure Books (σ κ : Type*) where
  mem : σ
  log : List (Entry κ Unit)

/-- A procedure ends with a result or an error, and keeps the books in either case. -/
def Proc (σ κ ε α : Type*) := Books σ κ → Except ε α × Books σ κ

namespace Proc

variable {σ κ ε α β : Type*}

instance : Monad (Proc σ κ ε) where
  pure a := fun b => (.ok a, b)
  bind p f := fun b =>
    match p b with
    | (.ok a, b) => f a b
    | (.error e, b) => (.error e, b)

def ask (reply : Except ε α) : Proc σ κ ε α := fun b => (reply, b)

/-- A call that takes a resource if it succeeds. -/
def take (k : κ) (reply : Except ε Unit) : Proc σ κ ε Unit := fun b =>
  match reply with
  | .error e => (.error e, b)
  | .ok () => (.ok (), { b with log := b.log ++ [.take k ()] })

def use (k : κ) : Proc σ κ ε Unit := fun b => (.ok (), { b with log := b.log ++ [.use k ()] })

def give (k : κ) : Proc σ κ ε Unit := fun b => (.ok (), { b with log := b.log ++ [.give k ()] })

def read : Proc σ κ ε σ := fun b => (.ok b.mem, b)

def modify (f : σ → σ) : Proc σ κ ε Unit := fun b => (.ok (), { b with mem := f b.mem })

def attempt (p : Proc σ κ ε α) : Proc σ κ ε (Except ε α) := fun b => (.ok (p b).1, (p b).2)

/-- Clean up after a failure, and fail. -/
def orElseDo (p : Proc σ κ ε α) (cleanup : Proc σ κ ε Unit) : Proc σ κ ε α := fun b =>
  match p b with
  | (.ok a, b) => (.ok a, b)
  | (.error e, b) => (.error e, (cleanup b).2)

def each (f : α → Proc σ κ ε Unit) : List α → Proc σ κ ε Unit
  | [] => pure ()
  | a :: as => do
    f a
    each f as

end Proc

variable {κ : Type*} [DecidableEq κ]

def heldSet (l : List (Entry κ Unit)) : Set κ := {k | holder l k = some ()}

@[simp] theorem heldSet_nil : heldSet ([] : List (Entry κ Unit)) = ∅ := by
  ext k
  simp [heldSet]

@[simp] theorem heldSet_take (l : List (Entry κ Unit)) (k : κ) :
    heldSet (l ++ [.take k ()]) = insert k (heldSet l) := by
  ext x
  rcases eq_or_ne x k with rfl | hne
  · simp [heldSet, Entry.apply]
  · simp [heldSet, Entry.apply, hne]

@[simp] theorem heldSet_use (l : List (Entry κ Unit)) (k : κ) :
    heldSet (l ++ [.use k ()]) = heldSet l := by
  ext x
  simp [heldSet, Entry.apply]

@[simp] theorem heldSet_give (l : List (Entry κ Unit)) (k : κ) :
    heldSet (l ++ [.give k ()]) = heldSet l \ {k} := by
  ext x
  rcases eq_or_ne x k with rfl | hne
  · simp [heldSet, Entry.apply]
  · simp [heldSet, Entry.apply, hne]

variable (rests : κ → κ → Prop)

/-- Whatever is held, so is what it rests on. -/
def Supported (H : Set κ) : Prop := ∀ k ∈ H, ∀ k', rests k k' → k' ∈ H

/-- At every moment of the history, only what nobody holds is taken, only what is held is used or
given back, and what is held is supported. -/
structure Orderly (l : List (Entry κ Unit)) : Prop where
  disciplined : Disciplined l
  supported : ∀ l₁ l₂, l = l₁ ++ l₂ → Supported rests (heldSet l₁)

variable {rests} {l : List (Entry κ Unit)} {k : κ}

theorem orderly_nil : Orderly rests [] := by
  constructor
  · exact disciplined_nil
  · intro l₁ l₂ h
    obtain ⟨rfl, -⟩ := List.append_eq_nil_iff.mp h.symm
    intro k hk
    simp at hk

theorem Orderly.concat (h : Orderly rests l) {e : Entry κ Unit} (he : e.Allowed (holder l))
    (hs : Supported rests (heldSet (l ++ [e]))) : Orderly rests (l ++ [e]) := by
  constructor
  · exact disciplined_concat.mpr ⟨h.disciplined, he⟩
  · intro l₁ l₂ hl
    rcases List.eq_nil_or_concat l₂ with rfl | ⟨l₂', e', rfl⟩
    · rw [List.append_nil] at hl
      exact hl ▸ hs
    · rw [List.concat_eq_append, ← List.append_assoc] at hl
      exact h.supported l₁ l₂' (List.append_inj' hl rfl).1

theorem Orderly.now (h : Orderly rests l) : Supported rests (heldSet l) :=
  h.supported l [] (List.append_nil l).symm

theorem Orderly.take (h : Orderly rests l) (hk : k ∉ heldSet l)
    (hr : ∀ k', rests k k' → k' ∈ heldSet l) : Orderly rests (l ++ [.take k ()]) := by
  refine h.concat (Option.eq_none_iff_forall_ne_some.mpr fun _ => hk) ?_
  rw [heldSet_take]
  rintro x (rfl | hx) y hxy
  · exact .inr (hr y hxy)
  · exact .inr (h.now x hx y hxy)

theorem Orderly.use (h : Orderly rests l) (hk : k ∈ heldSet l) :
    Orderly rests (l ++ [.use k ()]) := by
  refine h.concat hk ?_
  rw [heldSet_use]
  exact h.now

theorem Orderly.give (h : Orderly rests l) (hk : k ∈ heldSet l)
    (hr : ∀ k' ∈ heldSet l, ¬ rests k' k) : Orderly rests (l ++ [.give k ()]) := by
  refine h.concat hk ?_
  rw [heldSet_give]
  rintro x ⟨hx, -⟩ y hxy
  refine ⟨h.now x hx y hxy, ?_⟩
  rintro rfl
  exact hr x hx hxy

/-! ## Pre- and postconditions -/

namespace Proc

universe u

variable {σ ε : Type*} {α β : Type u} {p : Proc σ κ ε α} {f : α → Proc σ κ ε β}
  {Q Q' : α → σ → Set κ → Prop} {R : β → σ → Set κ → Prop} {T : Unit → σ → Set κ → Prop}
  {E E' : ε → σ → Set κ → Prop} {s : σ} {H : Set κ}

def Ends (Q : α → σ → Set κ → Prop) (E : ε → σ → Set κ → Prop) (s : σ) (H : Set κ) :
    Except ε α → Prop
  | .ok a => Q a s H
  | .error e => E e s H

/-- From this memory and these resources the procedure keeps the property of its history, and ends
in `Q` if it succeeds and in `E` if it fails. -/
def wp (S : List (Entry κ Unit) → Prop) (p : Proc σ κ ε α) (Q : α → σ → Set κ → Prop)
    (E : ε → σ → Set κ → Prop) (s : σ) (H : Set κ) : Prop :=
  ∀ b : Books σ κ, b.mem = s → heldSet b.log = H → S b.log →
    S (p b).2.log ∧ Ends Q E (p b).2.mem (heldSet (p b).2.log) (p b).1

variable {S : List (Entry κ Unit) → Prop}

theorem wp_mono (h : wp S p Q E s H) (hQ : ∀ a s H, Q a s H → Q' a s H)
    (hE : ∀ e s H, E e s H → E' e s H) : wp S p Q' E' s H := by
  intro b hs hH hb
  obtain ⟨ho, he⟩ := h b hs hH hb
  refine ⟨ho, ?_⟩
  cases hp : (p b).1 with
  | ok a =>
    rw [hp] at he
    exact hQ _ _ _ he
  | error e =>
    rw [hp] at he
    exact hE _ _ _ he

/-- What holds after a procedure however it ended. -/
theorem wp.run {b : Books σ κ} {I : σ → Set κ → Prop}
    (h : wp S p (fun _ => I) (fun _ => I) b.mem (heldSet b.log)) (hS : S b.log) :
    S (p b).2.log ∧ I (p b).2.mem (heldSet (p b).2.log) := by
  obtain ⟨ho, he⟩ := h b rfl rfl hS
  refine ⟨ho, ?_⟩
  cases hp : (p b).1 <;> rw [hp] at he <;> exact he

theorem wp_pure {a : α} (h : Q a s H) : wp S (pure a) Q E s H := by
  rintro b rfl rfl hb
  exact ⟨hb, h⟩

theorem wp_bind (h : wp S p (fun a => wp S (f a) R E) E s H) :
    wp S (p >>= f) R E s H := by
  intro b hs hH hb
  obtain ⟨ho, he⟩ := h b hs hH hb
  rcases hp : p b with ⟨r, b'⟩
  rw [hp] at ho he
  cases r with
  | ok a =>
    have hrun : (p >>= f) b = f a b' := by simp only [bind, hp]
    rw [hrun]
    exact he b' rfl rfl ho
  | error e =>
    have hrun : (p >>= f) b = (.error e, b') := by simp only [bind, hp]
    rw [hrun]
    exact ⟨ho, he⟩

theorem wp_ask {reply : Except ε α} (hok : ∀ a, reply = .ok a → Q a s H)
    (he : ∀ e, reply = .error e → E e s H) : wp S (ask reply) Q E s H := by
  rintro b rfl rfl hb
  refine ⟨hb, ?_⟩
  cases reply with
  | ok a => exact hok a rfl
  | error e => exact he e rfl

theorem wp_take_of {reply : Except ε Unit} (hS : ∀ l, S l → heldSet l = H → S (l ++ [.take k ()]))
    (hok : reply = .ok () → T () s (insert k H)) (he : ∀ e, reply = .error e → E e s H) :
    wp S (take k reply) T E s H := by
  rintro b rfl rfl hb
  cases reply with
  | ok a =>
    refine ⟨hS _ hb rfl, ?_⟩
    simpa [Ends, take] using hok rfl
  | error e => exact ⟨hb, he e rfl⟩

theorem wp_use_of (hS : ∀ l, S l → heldSet l = H → S (l ++ [.use k ()])) (h : T () s H) :
    wp S (use k) T E s H := by
  rintro b rfl rfl hb
  refine ⟨hS _ hb rfl, ?_⟩
  simpa [Ends, use] using h

theorem wp_give_of (hS : ∀ l, S l → heldSet l = H → S (l ++ [.give k ()]))
    (h : T () s (H \ {k})) : wp S (give k) T E s H := by
  rintro b rfl rfl hb
  refine ⟨hS _ hb rfl, ?_⟩
  simpa [Ends, give] using h

theorem wp_take {reply : Except ε Unit} (hk : k ∉ H) (hr : ∀ k', rests k k' → k' ∈ H)
    (hok : reply = .ok () → T () s (insert k H)) (he : ∀ e, reply = .error e → E e s H) :
    wp (Orderly rests) (take k reply) T E s H := by
  refine wp_take_of ?_ hok he
  rintro l hl rfl
  exact hl.take hk hr

theorem wp_use (hk : k ∈ H) (h : T () s H) : wp (Orderly rests) (use k) T E s H := by
  refine wp_use_of ?_ h
  rintro l hl rfl
  exact hl.use hk

theorem wp_give (hk : k ∈ H) (hr : ∀ k' ∈ H, ¬ rests k' k) (h : T () s (H \ {k})) :
    wp (Orderly rests) (give k) T E s H := by
  refine wp_give_of ?_ h
  rintro l hl rfl
  exact hl.give hk hr

theorem wp_read {Q : σ → σ → Set κ → Prop} (h : Q s s H) : wp S read Q E s H := by
  rintro b rfl rfl hb
  exact ⟨hb, h⟩

theorem wp_modify {g : σ → σ} (h : T () (g s) H) : wp S (modify g) T E s H := by
  rintro b rfl rfl hb
  exact ⟨hb, h⟩

theorem wp_attempt {Q : Except ε α → σ → Set κ → Prop}
    (h : wp S p (fun a => Q (.ok a)) (fun e => Q (.error e)) s H) :
    wp S (attempt p) Q E s H := by
  intro b hs hH hb
  obtain ⟨ho, he⟩ := h b hs hH hb
  refine ⟨ho, ?_⟩
  cases hp : (p b).1 with
  | ok a =>
    rw [hp] at he
    simpa [Ends, attempt, hp] using he
  | error e =>
    rw [hp] at he
    simpa [Ends, attempt, hp] using he

theorem wp_orElseDo {q : Proc σ κ ε Unit}
    (h : wp S p Q (fun e => wp S q (fun _ => E e) fun _ => E e) s H) :
    wp S (orElseDo p q) Q E s H := by
  intro b hs hH hb
  obtain ⟨ho, he⟩ := h b hs hH hb
  rcases hp : p b with ⟨r, b'⟩
  rw [hp] at ho he
  rw [orElseDo, hp]
  cases r with
  | ok a => exact ⟨ho, he⟩
  | error e =>
    obtain ⟨ho', he'⟩ := he b' rfl rfl ho
    refine ⟨ho', ?_⟩
    cases hq : (q b').1 <;> rw [hq] at he' <;> exact he'

theorem wp_each {γ : Type*} {f : γ → Proc σ κ ε Unit} {I : List γ → σ → Set κ → Prop}
    (hstep : ∀ a as s H, I (a :: as) s H → wp S (f a) (fun _ => I as) E s H) (as : List γ)
    (h : I as s H) (hend : ∀ s H, I [] s H → T () s H) : wp S (each f as) T E s H := by
  induction as generalizing s H with
  | nil => exact wp_pure (hend s H h)
  | cons a as ih =>
    exact wp_bind (wp_mono (hstep a as s H h) (fun _ _ _ h => ih h) fun _ _ _ h => h)

omit [DecidableEq κ] in
theorem insert_union_mem {ks : List κ} : insert k (H ∪ {x | x ∈ ks}) = H ∪ {x | x ∈ k :: ks} := by
  ext x
  simp only [Set.mem_insert_iff, Set.mem_union, Set.mem_ofPred_eq, List.mem_cons]
  tauto

theorem wp_each_give {ks : List κ} (hnd : ks.Nodup) (hH : ∀ k ∈ ks, k ∉ H)
    (hS : ∀ k ks' l, k :: ks' <:+ ks → S l → heldSet l = H ∪ {x | x ∈ k :: ks'} →
      S (l ++ [.give k ()])) (h : T () s H) :
    wp S (each give ks) T E s (H ∪ {x | x ∈ ks}) := by
  refine wp_each (I := fun ks' s' H' => ks' <:+ ks ∧ s' = s ∧ H' = H ∪ {x | x ∈ ks'}) ?_ ks
    ⟨List.suffix_rfl, rfl, rfl⟩ ?_
  · rintro k ks' s' H' ⟨hks, rfl, rfl⟩
    have hnot : k ∉ H ∪ {x | x ∈ ks'} := by
      rintro (hk | hk)
      · exact hH k (hks.subset List.mem_cons_self) hk
      · exact (List.nodup_cons.mp (hnd.sublist hks.sublist)).1 hk
    refine wp_give_of (fun l hl he => hS k ks' l hks hl he)
      ⟨(List.suffix_cons k ks').trans hks, rfl, ?_⟩
    rw [← insert_union_mem, Set.insert_sdiff_self_of_notMem hnot]
  · rintro s' H' ⟨-, rfl, rfl⟩
    simpa using h

end Proc

end Foundation
