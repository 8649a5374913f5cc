import Strela.System.Jobs

/-! # The store that a client sees

Jobs that run in the background look to the client like jobs that are done, as far
as they get, at the moment they are submitted. What the client does and sees is a
history: the buffers it is given with the bytes it finds in them, those it gives back,
its writes and reads, and the jobs it submits. Whatever becomes of the jobs still in
the driver, a store of buffers that knows no driver has a run with that very history
and with the same buffers, bytes and results at the end. The store need not know how
far a job gets when it does it, since the run that is given for it is chosen afterwards.
-/

namespace Strela.System

open Foundation Foundation.Unsigned Strela.Allocator Strela.Lib
open scoped List

variable {A : Abi} {v : ℕ} (M : Mapping A)

/-! ## The store -/

/-- Buffers, what is in them, and each job that was done with whether it completed. -/
structure Store where
  live : List Buffer
  data : Mem
  done : List (Conf × Bool)

def SameIn (bs : List Buffer) (m m' : Mem) : Prop := ∀ b ∈ bs, ∀ x ∈ M.bytes b, m' x = m x

/-- What the client does, and what it finds in a new buffer and in a byte that it reads. -/
inductive StoreAction
  | alloc (b : Buffer) (found : List UInt8)
  | free (b : Buffer)
  | freeAll
  | write (x : ℕ) (y : UInt8)
  | read (x : ℕ) (y : UInt8)
  | job (conf : Conf)

def contents (m : Mem) (b : Buffer) : List UInt8 :=
  (List.range (b.sizeWords * wordSize)).map fun i => m (M.addr b + i)

/-- The bytes of a buffer are given, the others stay. -/
def fill (m : Mem) (b : Buffer) (found : List UInt8) : Mem := fun x =>
  if x ∈ M.bytes b then found.getD (x - M.addr b) 0 else m x

/-- A new buffer is apart from the others; a job that is cut short has done its first columns. -/
inductive StoreStep : Store → StoreAction → Store → Prop
  | alloc {t : Store} {b : Buffer} {found : List UInt8} :
    (∀ d ∈ t.live, (M.bytes b).Apart (M.bytes d)) → found.length = b.sizeWords * wordSize →
    StoreStep t (.alloc b found) { t with live := b :: t.live, data := fill M t.data b found }
  | free {t : Store} {b : Buffer} : b ∈ t.live →
    StoreStep t (.free b) { t with live := t.live.erase b }
  | freeAll {t : Store} : StoreStep t .freeAll { t with live := [] }
  | write {t : Store} {d : Buffer} {x : ℕ} {y : UInt8} : d ∈ t.live → x ∈ M.bytes d →
    StoreStep t (.write x y) { t with data := t.data.storeByte x y }
  | read {t : Store} {d : Buffer} {x : ℕ} : d ∈ t.live → x ∈ M.bytes d →
    StoreStep t (.read x (t.data x)) t
  | job {t : Store} {conf : Conf} {n : ℕ} : On M conf t.live → n ≤ 4 →
    StoreStep t (.job conf) { t with
      data := Gather.runAll (firstColumns M conf n) t.data
      done := t.done ++ [(conf, decide (n = 4) && allFed conf)] }

def storeLts : Lts Store StoreAction where
  start t := t = ⟨[], fun _ => 0, []⟩
  step := StoreStep M

/-- What the client does and sees in a step: nothing where a call gives it no buffer, or releases
none because of an error, and nothing of the jobs that leave the driver. -/
def seen (s : Async) : AsyncAction → Async → List StoreAction
  | .buffer (.alloc _), s' =>
    match s'.live with
    | [] => []
    | b :: bs => if bs = s.live then [.alloc b (contents M s'.mem b)] else []
  | .buffer (.free b), _ => if s.world.ok then [.free b] else []
  | .buffer .freeAll, _ => if s.world.ok then [.freeAll] else []
  | .buffer (.write x y), _ => [.write x y]
  | .buffer .other, _ => []
  | .read x, _ => [.read x (s.mem x)]
  | .submit i, _ => [.job (s.confs i)]
  | .config _ _, _ | .call, _ | .simulate _ _, _ | .array, _ => []

variable {M} {T : Tensors v} {os : Os} {s s' : Async} {conf : Conf} {bs : List Buffer}
  {live : List Alloc} {a d : Alloc} {w : World} {m m' : Mem} {x : ℕ}
  {acts : List StoreAction}

@[simp] theorem length_contents (m : Mem) (b : Buffer) :
    (contents M m b).length = b.sizeWords * wordSize := by
  simp [contents]

theorem fill_of_mem {b : Buffer} (hx : x ∈ M.bytes b) : fill M m b (contents M m' b) x = m' x := by
  have hin := hx
  simp only [Mapping.bytes, Block.mem_def, Block.stop] at hin
  rw [fill, if_pos hx, contents, List.getD_eq_getElem?_getD, List.getElem?_map,
    List.getElem?_range (by omega), Option.map_some, Option.getD_some]
  congr 1
  omega

theorem fill_of_notMem {b : Buffer} {found : List UInt8} (hx : x ∉ M.bytes b) :
    fill M m b found x = m x := if_neg hx

theorem SameIn.eqOn (h : SameIn M bs m m') : Set.EqOn m m' (bytesOf M bs) := by
  rintro x ⟨b, hb, hx⟩
  exact (h b hb x hx).symm

theorem SameIn.of_eqOn (h : Set.EqOn m m' (bytesOf M bs)) : SameIn M bs m m' :=
  fun b hb _ hx => (h ⟨b, hb, hx⟩).symm

theorem SameIn.carried {ps : List (Pending × ℕ)} (h : ∀ p ∈ ps, On M p.1.conf bs)
    (hm : SameIn M bs m m') : SameIn M bs (carried M ps m) (carried M ps m') := by
  have hlocal : Local (bytesOf M bs) (Strela.System.carried M ps) := by
    apply (local_carried M ps).mono
    rintro x ⟨p, hp, hx⟩
    exact (h p hp).inside x hx
  exact .of_eqOn (hlocal.inside _ _ hm.eqOn)

theorem SameIn.symm (h : SameIn M bs m m') : SameIn M bs m' m :=
  fun b hb x hx => (h b hb x hx).symm

theorem SameIn.mono {bs' : List Buffer} (h : SameIn M bs m m') (hb : ∀ b ∈ bs', b ∈ bs) :
    SameIn M bs' m m' :=
  fun b hb' x hx => h b (hb b hb') x hx

theorem SameIn.trans {m'' : Mem} (h : SameIn M bs m m') (h' : SameIn M bs m' m'') :
    SameIn M bs m m'' :=
  fun b hb x hx => (h' b hb x hx).trans (h b hb x hx)

/-! ## Jobs that are done ahead of time -/

/-- Whatever becomes of the jobs in the driver, the store has a run with the history and that
end. -/
def Refined (M : Mapping A) (acts : List StoreAction) (s : Async) : Prop :=
  ∀ ps : List (Pending × ℕ), ps.map Prod.fst = s.pending → (∀ p ∈ ps, p.2 ≤ 4) →
    ∃ t, (storeLts M).Run acts t ∧ t.live = s.live ∧ t.done = s.done ++ ps.map result ∧
      SameIn M s.live (carried M ps s.mem) t.data

theorem bytes_apart (B : Backed M w live) (ha : a ∈ live) (hd : d ∈ live) (hne : a ≠ d) :
    (M.bytes (M.buffer a)).Apart (M.bytes (M.buffer d)) := by
  have h₁ := B.represents.live_apart ha hd hne
  have h₂ := (B.represents.placed a ha).start_add
  have h₃ := (B.represents.placed a ha).payload
  have h₄ := (B.represents.placed d hd).start_add
  have h₅ := (B.represents.placed d hd).payload
  rw [B.bytes_buffer ha, B.bytes_buffer hd]
  simp only [Block.Apart, Block.stop, Alloc.block, Alloc.payload] at *
  omega

theorem head_apart {b : Buffer} {bs : List Buffer} (ho : Owned M ⟨w, b :: bs⟩) :
    ∀ d ∈ bs, (M.bytes b).Apart (M.bytes d) := by
  obtain ⟨live, hp, B⟩ := ho
  intro d hd
  have hnodup := live_nodup (s := ⟨w, b :: bs⟩) B hp
  obtain ⟨a, ha, hab⟩ := Owned.mem hp List.mem_cons_self
  obtain ⟨e, he, hed⟩ := Owned.mem hp (List.mem_cons_of_mem b hd)
  have hne : a ≠ e := by
    rintro rfl
    exact (List.nodup_cons.mp hnodup).1 (hab.symm.trans hed ▸ hd)
  rw [← hab, ← hed]
  exact bytes_apart B ha he hne

theorem sameIn_of_manages (c : CacheLine A cachelineSize) {b t : BufferState} {op : BufferOp}
    (ho : Owned M b) (hman : Manages op) (hop : NoOverrun A b op) (hs : BufferStep M b op t) :
    SameIn M (kept b t) b.world.mem t.world.mem := by
  intro d hd x hx
  exact untouched c ho hman hop hs (dvd_refl cachelineSize) (.inr (lent_of_bytes hd hx))

/-- What is in the buffers that stay, before and after, once the jobs are done. -/
theorem sameIn_carried (c : CacheLine A cachelineSize) {b t : BufferState} {op : BufferOp}
    (ho : Owned M b) (hman : Manages op) (hop : NoOverrun A b op) (hs : BufferStep M b op t)
    {ps : List (Pending × ℕ)} (hbs : ∀ d ∈ bs, d ∈ kept b t) (hon : ∀ p ∈ ps, On M p.1.conf bs) :
    SameIn M bs (carried M ps b.world.mem) (carried M ps t.world.mem) := by
  apply SameIn.carried hon
  intro d hd x hx
  exact sameIn_of_manages c ho hman hop hs d (hbs d hd) x hx

theorem seen_alloc {n : ℕ} {b : Buffer} :
    seen M s (.buffer (.alloc n)) { s with buffers := ⟨w, b :: s.live⟩ } =
      [.alloc b (contents M w.mem b)] := if_pos rfl

theorem seen_alloc_nothing {n : ℕ} :
    seen M s (.buffer (.alloc n)) { s with buffers := ⟨w, s.live⟩ } = [] := by
  unfold seen
  dsimp only [Async.live]
  split
  · rfl
  · rename_i b bs hlive
    exact if_neg fun h => List.ne_cons_self (h.trans hlive)

/-- The store has the client's buffers, as the jobs in the driver will leave them. -/
structure Follows (M : Mapping A) (acts : List StoreAction) (ps : List (Pending × ℕ))
    (b : BufferState) (t : Store) : Prop where
  run : (storeLts M).Run acts t
  live : t.live = b.live
  data : SameIn M b.live (carried M ps b.world.mem) t.data

namespace Follows

variable {ps : List (Pending × ℕ)} {b : BufferState} {t : Store} {e : Buffer}

theorem keep (h : Follows M acts ps b t)
    (hsame : SameIn M b.live (carried M ps b.world.mem) (carried M ps w.mem)) :
    Follows M acts ps ⟨w, b.live⟩ t :=
  ⟨h.run, h.live, hsame.symm.trans h.data⟩

theorem alloc (h : Follows M acts ps b t) (hapart : ∀ d ∈ b.live, (M.bytes e).Apart (M.bytes d))
    (hsame : SameIn M b.live (carried M ps b.world.mem) (carried M ps w.mem))
    (hnew : ∀ x ∈ M.bytes e, carried M ps w.mem x = w.mem x) :
    ∃ t', Follows M (acts ++ [.alloc e (contents M w.mem e)]) ps ⟨w, e :: b.live⟩ t' ∧
      t'.done = t.done := by
  have halloc : StoreStep M t (.alloc e (contents M w.mem e)) ⟨e :: t.live, _, t.done⟩ :=
    .alloc (h.live ▸ hapart) (length_contents ..)
  refine ⟨_, ⟨h.run.step halloc, congrArg (e :: ·) h.live, fun d hd x hx => ?_⟩, rfl⟩
  rcases List.mem_cons.mp hd with rfl | hd
  · rw [hnew x hx]
    exact fill_of_mem hx
  · rw [hsame d hd x hx, ← h.data d hd x hx]
    exact fill_of_notMem ((hapart d hd).symm.notMem hx)

theorem free (h : Follows M acts ps b t) (he : e ∈ b.live)
    (hsame : SameIn M (b.live.erase e) (carried M ps b.world.mem) (carried M ps w.mem)) :
    ∃ t', Follows M (acts ++ [.free e]) ps ⟨w, b.live.erase e⟩ t' ∧ t'.done = t.done := by
  refine ⟨_, ⟨h.run.step (.free (h.live ▸ he)), ?_, ?_⟩, rfl⟩
  · rw [h.live]
  · exact hsame.symm.trans (h.data.mono fun d => List.mem_of_mem_erase)

theorem freeAll (h : Follows M acts ps b t) (w : World) :
    ∃ t', Follows M (acts ++ [.freeAll]) ps ⟨w, []⟩ t' ∧ t'.done = t.done :=
  ⟨_, ⟨h.run.step .freeAll, rfl, fun _ hd => by cases hd⟩, rfl⟩

/-- What no job in the driver uses can be written before or after them. -/
theorem write {y : UInt8} (h : Follows M acts ps b t) (he : e ∈ b.live) (hx : x ∈ M.bytes e)
    (hout : ∀ p ∈ ps, ¬ Uses M p.1.conf x) :
    ∃ t', Follows M (acts ++ [.write x y]) ps
      ⟨{ b.world with mem := b.world.mem.storeByte x y }, b.live⟩ t' ∧ t'.done = t.done := by
  refine ⟨_, ⟨h.run.step (.write (h.live ▸ he) hx), h.live, fun d hd z hz => ?_⟩, rfl⟩
  have hnot : x ∉ {z | ∃ p ∈ ps, Uses M p.1.conf z} := by
    rintro ⟨p, hp, hu⟩
    exact hout p hp hu
  have hcomm := (local_carried M ps).update hnot b.world.mem y
  rw [← storeByte_eq_update, ← storeByte_eq_update] at hcomm
  rw [show carried M ps (b.world.mem.storeByte x y) = _ from hcomm]
  simp only [Mem.storeByte]
  split
  · rfl
  · exact h.data d hd z hz

end Follows

section Steps

variable {ps : List (Pending × ℕ)} (V : AsyncValid M T s) (hps : ps.map Prod.fst = s.pending)

include V hps

theorem on_of_map {p : Pending × ℕ} (hp : p ∈ ps) : On M p.1.conf s.live := by
  have hmem : p.1 ∈ s.pending := hps ▸ List.mem_map_of_mem hp
  exact (V.pending p.1 hmem).1

theorem carried_of_notMem (hx : ∀ b ∈ s.live, x ∉ M.bytes b) (m : Mem) :
    carried M ps m x = m x := by
  apply (local_carried M ps).outside
  rintro ⟨p, hp, hu⟩
  obtain ⟨b, hb, hxb⟩ := (on_of_map V hps hp).inside x hu
  exact hx b hb hxb

theorem on_of_buffer {op : BufferOp} {b : BufferState} (hst : BufferStep M s.buffers op b)
    (hr : Respects M s op) {p : Pending × ℕ} (hp : p ∈ ps) : On M p.1.conf b.live := by
  have hmem : p.1 ∈ s.pending := hps ▸ List.mem_map_of_mem hp
  exact on_bufferStep hst hr hmem (V.pending p.1 hmem).1

theorem follows_alloc (c : CacheLine A cachelineSize) {n : ℕ} {d : Buffer} {t : Store}
    (hst : BufferStep M s.buffers (.alloc n) ⟨w, if d.valid then d :: s.live else s.live⟩)
    (hno : NoOverrun A s.buffers (.alloc n)) (h : Follows M acts ps s.buffers t) :
    let b : BufferState := ⟨w, if d.valid then d :: s.live else s.live⟩
    ∃ t', Follows M (acts ++ seen M s (.buffer (.alloc n)) { s with buffers := b }) ps b t' ∧
      t'.done = t.done := by
  have ho := V.owned.step c hno hst
  have hman : Manages (.alloc n) := trivial
  have hsame : SameIn M s.live (carried M ps s.mem) (carried M ps w.mem) := by
    refine sameIn_carried c V.owned hman hno hst (fun e he => ?_)
      fun p hp => on_of_map V hps hp
    refine List.mem_filter.mpr ⟨?_, decide_eq_true he⟩
    dsimp only
    split
    · exact List.mem_cons_of_mem d he
    · exact he
  cases hd : d.valid with
  | false =>
    simp only [Bool.false_eq_true, if_false]
    rw [seen_alloc_nothing, List.append_nil]
    exact ⟨t, h.keep hsame, rfl⟩
  | true =>
    simp only [hd, if_true] at ho ⊢
    have hapart : ∀ e ∈ s.live, (M.bytes d).Apart (M.bytes e) := head_apart ho
    rw [seen_alloc]
    -- No job in the driver knows the new buffer.
    refine h.alloc hapart hsame fun x hx => ?_
    exact carried_of_notMem V hps (fun f hf => (hapart f hf).notMem hx) _

theorem follows_free (c : CacheLine A cachelineSize) {d : Buffer} {t : Store} (hd : d ∈ s.live)
    (he : strelaBufferFree A d s.world = .ok w)
    (hr : Respects M s (.free d)) (hno : NoOverrun A s.buffers (.free d))
    (h : Follows M acts ps s.buffers t) :
    let b : BufferState := ⟨w, if s.world.ok then s.live.erase d else s.live⟩
    ∃ t', Follows M (acts ++ seen M s (.buffer (.free d)) { s with buffers := b }) ps b t' ∧
      t'.done = t.done := by
  have hst : BufferStep M s.buffers (.free d) ⟨w, if s.world.ok then s.live.erase d else s.live⟩ :=
    .free hd he
  cases hok : s.world.ok with
  | false =>
    obtain rfl : s.world = w := by simpa [strelaBufferFree, withBuffer, hok] using he
    have hacts : seen M s (.buffer (.free d)) { s with buffers := ⟨s.world, s.live⟩ } = [] :=
      if_neg (by rw [hok]; decide)
    refine ⟨t, ?_, rfl⟩
    simp only [Bool.false_eq_true, if_false]
    rw [hacts, List.append_nil]
    exact h
  | true =>
    simp only [hok, if_true] at hst ⊢
    have hman : Manages (.free d) := trivial
    have hsame := sameIn_carried c V.owned hman hno hst
      (fun e he => List.mem_filter.mpr ⟨he, decide_eq_true (List.mem_of_mem_erase he)⟩)
      fun p hp => on_of_buffer V hps hst hr hp
    rw [show seen M s (.buffer (.free d)) _ = [.free d] from if_pos hok]
    exact h.free hd hsame

theorem follows_buffer (c : CacheLine A cachelineSize) {op : BufferOp} {b : BufferState}
    (hst : BufferStep M s.buffers op b) (hr : Respects M s op) (hno : NoOverrun A s.buffers op)
    {t : Store} (h : Follows M acts ps s.buffers t) :
    ∃ t', Follows M (acts ++ seen M s (.buffer op) { s with buffers := b }) ps b t' ∧
      t'.done = t.done := by
  cases hst with
  | alloc hn he => exact follows_alloc V hps c (.alloc hn he) hno h
  | free hd he => exact follows_free V hps c hd he hr hno h
  | freeAll =>
    cases hok : s.buffers.world.ok with
    | false =>
      refine ⟨t, ?_, rfl⟩
      have hacts : ∀ b, seen M s (.buffer .freeAll) { s with buffers := b } = [] :=
        fun _ => if_neg (by rw [Async.world, hok]; decide)
      simpa [hacts, strelaBufferFreeAll, hok] using h
    | true =>
      have hacts : ∀ b, seen M s (.buffer .freeAll) { s with buffers := b } = [.freeAll] :=
        fun _ => if_pos hok
      rw [hacts]
      exact h.freeAll _
  | write hd hx => exact h.write hd hx fun p hp => hr p.1 (hps ▸ List.mem_map_of_mem hp)
  | other => exact hr.elim

end Steps

/-- A job that enters the driver is done in the store at once. -/
theorem refined_submit (h : Refined M acts s) {p : Pending}
    (hon : On M p.conf s.live) (hs : s'.live = s.live ∧ s'.mem = s.mem ∧ s'.done = s.done ∧
      s'.pending = s.pending ++ [p]) : Refined M (acts ++ [.job p.conf]) s' := by
  obtain ⟨hlive, hmem, hdone, hpend⟩ := hs
  intro qs hqs hle
  rw [hpend] at hqs
  obtain ⟨ps, rs, rfl, hps, hrs⟩ := List.map_eq_append_iff.mp hqs
  obtain ⟨q, rfl, rfl⟩ : ∃ q, rs = [q] ∧ q.1 = p := by
    match rs, hrs with
    | [q], h => exact ⟨q, rfl, List.singleton_inj.mp h⟩
  obtain ⟨t, ht, htl, htd, hdata⟩ := h ps hps fun r hr => hle r (List.mem_append_left _ hr)
  have hq : q.2 ≤ 4 := hle q (by simp)
  have hjob : StoreStep M t (.job q.1.conf) _ := .job (htl.symm ▸ hon) hq
  refine ⟨_, ht.step hjob, ?_, ?_, ?_⟩
  · exact htl.trans hlive.symm
  · simp only [htd, hdone, List.map_append, List.append_assoc]
    rfl
  · rw [hlive, hmem]
    have hcarried : carried M (ps ++ [q]) s.mem = outcome M q (carried M ps s.mem) := by
      rw [carried, List.map_append, carryOut_append]
      rfl
    rw [hcarried]
    exact .of_eqOn ((local_outcome hon).inside _ _ hdata.eqOn)

/-- What a client reads is what the store has, whatever becomes of the jobs in the driver. -/
theorem refined_read (h : Refined M acts s) {b : Buffer} (hb : b ∈ s.live) (hx : x ∈ M.bytes b)
    (hw : ∀ p ∈ s.pending, ∀ i, ¬ (confGather M p.conf i).Writes x) :
    Refined M (acts ++ [.read x (s.mem x)]) s := by
  intro ps hps hle
  obtain ⟨t, ht, hlive, hdone, hdata⟩ := h ps hps hle
  have hread : t.data x = s.mem x := by
    rw [hdata b hb x hx]
    exact carried_of_not_writes fun p hp => hw p.1 (hps ▸ List.mem_map_of_mem hp)
  have hstep : StoreStep M t (.read x (t.data x)) t := .read (hlive ▸ hb) hx
  rw [hread] at hstep
  exact ⟨t, ht.step hstep, hlive, hdone, hdata⟩

theorem Refined.step (c : CacheLine A cachelineSize) (hv : 32 ≤ v)
    (hlow : ∀ o, (T.objs o).dmaAddr.toNat + (T.objs o).size.toNat ≤ 2 ^ 32) (V : AsyncValid M T s)
    (h : Refined M acts s) {op : AsyncAction} (hb : AsyncBounded (A := A) s op)
    (hst : AsyncStep M T os s op s') : Refined M (acts ++ seen M s op s') s' := by
  -- For a job that leaves the driver the store has chosen in advance how far it gets.
  have retired (hop : (∃ c wait, op = .simulate c wait) ∨ op = .array) : Refined M acts s' := by
    obtain ⟨p, rest, n, hp, hn, rfl⟩ := retire_cases V hv hlow hop hst
    intro ps hps hle
    obtain ⟨t, ht, hlive, hdone, hdata⟩ := h ((p, n) :: ps) (by rw [hp, List.map_cons, hps])
      (by simpa using ⟨hn, fun a b => hle (a, b)⟩)
    refine ⟨t, ht, hlive, ?_, hdata⟩
    rw [hdone, List.map_cons, List.append_assoc]
    rfl
  have silent {w : World} (hw : w.mem = s.mem) : Refined M acts (s.setWorld w) := by
    intro ps hps hle
    obtain ⟨t, ht, hlive, hdone, hdata⟩ := h ps hps hle
    exact ⟨t, ht, hlive, hdone, by rwa [show (s.setWorld w).mem = s.mem from hw]⟩
  have unseen (hs : Refined M acts s') : Refined M (acts ++ []) s' := by rwa [List.append_nil]
  cases hst with
  | @buffer op b hst hr =>
    intro ps hps hle
    obtain ⟨t, ht, hlive, hdone, hdata⟩ := h ps hps hle
    obtain ⟨t', h', hdone'⟩ := follows_buffer V hps c hst hr (hb op rfl) ⟨ht, hlive, hdata⟩
    exact ⟨t', h'.run, h'.live, hdone'.trans hdone, h'.data⟩
  | read hd hx hw => exact refined_read h hd hx hw
  | @config kernel conf i w hc => exact unseen (silent (strelaJobConfig_valid hc).1.mem)
  | call hc => exact unseen (silent hc.quiet.mem)
  | @submit i r w n buffers hsub _ _ _ hon =>
    exact refined_submit h (p := ⟨s.confs i, buffers⟩) hon
      ⟨rfl, (quiet_strelaJobSubmit hsub).mem, rfl, rfl⟩
  | simulate => exact unseen (retired (.inl ⟨_, _, rfl⟩))
  | array => exact unseen (retired (.inr rfl))

theorem Refined.start (h : (asyncLts M T os).start s) : Refined M [] s := by
  obtain ⟨hb, -, -, hp, hd⟩ := h
  have hlive : s.live = [] := hb.1
  intro ps hps _
  rw [hp] at hps
  obtain rfl := List.map_eq_nil_iff.mp hps
  refine ⟨⟨[], fun _ => 0, []⟩, .start rfl, hlive.symm, by rw [hd]; rfl, ?_⟩
  rw [hlive]
  exact fun _ h => by cases h

/-- The words from `offset` on are `count` words of one of the buffers, or none at all. -/
def Inside (bs : List Buffer) (offset count : ℕ) : Prop :=
  count = 0 ∧ offset * wordSize ≤ tensorMemorySize ∨
  ∃ b ∈ bs, b.offsetWordsFromBase ≤ offset ∧ offset + count ≤ b.offsetWordsFromBase + b.sizeWords

theorem Inside.bytes {offset count k : ℕ} (h : Inside bs offset count) (hk : k < count) {j : ℕ}
    (hj : j < wordSize) : ∃ b ∈ bs, M.base + (offset + k) * wordSize + j ∈ M.bytes b := by
  rcases h with ⟨hz, -⟩ | ⟨b, hb, hlo, hhi⟩
  · omega
  · refine ⟨b, hb, ?_⟩
    simp only [Mapping.bytes, Mapping.addr, Block.mem_def, Block.stop, wordSize] at hj ⊢
    omega

theorem Inside.le (ho : Owned M s.buffers) {offset count : ℕ} (h : Inside s.live offset count) :
    offset * wordSize + count * wordSize ≤ tensorMemorySize := by
  obtain ⟨live, hp, B⟩ := ho
  rcases h with ⟨hz, hle⟩ | ⟨b, hb, hlo, hhi⟩
  · rw [hz]
    omega
  · obtain ⟨a, ha, rfl⟩ := Owned.mem hp hb
    have := B.buffer_inside ha
    simp only [wordSize] at this ⊢
    omega

end Strela.System
