import Strela.Foundation.Transition
import Strela.Foundation.Ledger
import Strela.Legacy.Control

/-! # The completions of the character device

A call writes its command and waits on the completion of that command, which the
interrupt thread counts up. Nothing ties the count to the call: a wait that times out
or is interrupted leaves the completion of its command to whoever waits next, and the
count is kept when the device is closed and opened again. Calls of any number of
threads on the open file, the device, the hard handler and its thread are interleaved
at the writes and the waits. Each command is accounted for, wherever its completion is.
-/

namespace Strela.Legacy

open Strela.Driver Foundation

/-- `LOAD_CONFIG` and `START_EXEC`, each with a pending bit and a completion of its own. -/
inductive Cmd | config | exec
  deriving DecidableEq, Repr

/-- What a call does next, from its first write on. -/
inductive Call
  | clearConfig
  | resetDma
  | loadConfig
  | startExec
  | waiting (c : Cmd)
  | leaving (c : Cmd) (error : Option Errno)
  deriving DecidableEq, Repr

/-- The writes of a call up to its wait, with the command that is written. -/
def Call.write : Call → Option (Option Cmd × Call)
  | clearConfig => some (none, resetDma)
  | resetDma => some (none, loadConfig)
  | loadConfig => some (some .config, waiting .config)
  | startExec => some (some .exec, waiting .exec)
  | waiting _ | leaving _ _ => none

/-- The commands of one kind that the device has not finished, those it never will, the pending
bit, the completions that found the bit set already, and the counter of the completion. -/
structure Line where
  running : ℕ
  dropped : ℕ
  pending : Bool
  merged : ℕ
  done : ℕ
  deriving DecidableEq, Repr

/-- The commands that have not come to a completion of their own. -/
def Line.outstanding (l : Line) : ℕ := l.running + l.dropped + l.merged

/-- How a wait on an open file ended: with the other calls that were waiting for a command of the
same kind, and what the line of the command was like. -/
structure Return where
  file : FileId
  cmd : Cmd
  error : Option Errno
  others : ℕ
  running : ℕ
  dropped : ℕ
  merged : ℕ
  deriving DecidableEq, Repr

def cuts (log : List Return) (c : Cmd) : ℕ :=
  log.countP fun e => decide (e.cmd = c ∧ e.error ≠ none)

structure CharDev where
  inUse : Bool
  files : List FileId
  calls : List (FileId × Call)
  lines : Cmd → Line
  irqStatus : Cmd → Bool
  woken : Bool
  log : List Return

namespace CharDev

def probed : CharDev := ⟨false, [], [], fun _ => ⟨0, 0, false, 0, 0⟩, fun _ => false, false, []⟩

def waiting (s : CharDev) (c : Cmd) : ℕ := s.calls.countP fun x => decide (x.2 = .waiting c)

def setLine (s : CharDev) (c : Cmd) (l : Line) : CharDev :=
  { s with lines := Function.update s.lines c l }

def strelaOpen (s : CharDev) (file : FileId) : Except Errno Unit × CharDev :=
  if s.inUse then (.error .ebusy, s)
  else (.ok (), { s with inUse := true, files := file :: s.files })

def strelaRelease (s : CharDev) (file : FileId) : CharDev :=
  { s with inUse := false, files := s.files.erase file }

def command (s : CharDev) : Option Cmd → CharDev
  | none => s
  | some c => s.setLine c { s.lines c with running := (s.lines c).running + 1 }

def finish (s : CharDev) (c : Cmd) : CharDev :=
  let l := s.lines c
  s.setLine c { l with
    running := l.running - 1
    pending := true
    merged := if l.pending then l.merged + 1 else l.merged }

/-- The device gives a command up, because it was cleared or not taken. -/
def drop (s : CharDev) (c : Cmd) : CharDev :=
  let l := s.lines c
  s.setLine c { l with running := l.running - 1, dropped := l.dropped + 1 }

/-- The handler takes one of the two bits, but latches both. -/
def latch (s : CharDev) (c : Cmd) : CharDev :=
  { s.setLine c { s.lines c with pending := false } with
    irqStatus := fun d => (s.lines d).pending
    woken := true }

def strelaIrqHandler (s : CharDev) : CharDev :=
  if (s.lines .config).pending then s.latch .config
  else if (s.lines .exec).pending then s.latch .exec
  else s

def complete (s : CharDev) (c : Cmd) : CharDev :=
  { s.setLine c { s.lines c with done := (s.lines c).done + 1 } with irqStatus := fun _ => false }

def strelaIrqThreadFn (s : CharDev) : CharDev :=
  if s.irqStatus .config then { s.complete .config with woken := false }
  else if s.irqStatus .exec then { s.complete .exec with woken := false }
  else { s with woken := false }

def ended (s : CharDev) (c : Cmd) (error : Option Errno) (l₁ l₂ : List (FileId × Call))
    (file : FileId) : CharDev :=
  let l := s.lines c
  { s.setLine c (if error = none then { l with done := l.done - 1 } else l) with
    calls := l₁ ++ (file, .leaving c error) :: l₂
    log := s.log ++ [⟨file, c, error, s.waiting c - 1, l.running, l.dropped, l.merged⟩] }

end CharDev

inductive CharEvent
  | open (file : FileId)
  | release (file : FileId)
  | ioctl (file : FileId) (c : Cmd)
  | write (file : FileId) (call : Call)
  | wake (file : FileId) (c : Cmd)
  | cut (file : FileId) (c : Cmd)
  | leave (file : FileId) (c : Cmd)
  | finish (c : Cmd)
  | drop (c : Cmd)
  | irqHandler
  | irqThread
  deriving DecidableEq, Repr

def Cmd.first : Cmd → Call
  | config => .clearConfig
  | exec => .startExec

/-- A file stays open while there is a call on it. A wait takes a completion whenever there is one,
and fails only if there is none. There is no second hard handler before the thread has returned. -/
inductive CharStep : CharDev → CharEvent → CharDev → Prop
  | open {s : CharDev} {f : FileId} : f ∉ s.files → CharStep s (.open f) (s.strelaOpen f).2
  | release {s : CharDev} {f : FileId} : f ∈ s.files → (∀ x ∈ s.calls, x.1 ≠ f) →
      CharStep s (.release f) (s.strelaRelease f)
  | ioctl {s : CharDev} {f : FileId} {c : Cmd} : f ∈ s.files →
      CharStep s (.ioctl f c) { s with calls := (f, c.first) :: s.calls }
  | write {s : CharDev} {l₁ l₂ : List (FileId × Call)} {f : FileId} {a b : Call} {c : Option Cmd} :
      s.calls = l₁ ++ (f, a) :: l₂ → a.write = some (c, b) →
      CharStep s (.write f a) { s.command c with calls := l₁ ++ (f, b) :: l₂ }
  | wake {s : CharDev} {l₁ l₂ : List (FileId × Call)} {f : FileId} {c : Cmd} :
      s.calls = l₁ ++ (f, .waiting c) :: l₂ → 0 < (s.lines c).done →
      CharStep s (.wake f c) (s.ended c none l₁ l₂ f)
  | cut {s : CharDev} {l₁ l₂ : List (FileId × Call)} {f : FileId} {c : Cmd} {error : Errno} :
      s.calls = l₁ ++ (f, .waiting c) :: l₂ → (s.lines c).done = 0 →
      error = .etimedout ∨ error = .erestartsys →
      CharStep s (.cut f c) (s.ended c (some error) l₁ l₂ f)
  | leave {s : CharDev} {l₁ l₂ : List (FileId × Call)} {f : FileId} {c : Cmd}
      {error : Option Errno} : s.calls = l₁ ++ (f, .leaving c error) :: l₂ →
      CharStep s (.leave f c) { s with calls := l₁ ++ l₂ }
  | finish {s : CharDev} {c : Cmd} : 0 < (s.lines c).running → CharStep s (.finish c) (s.finish c)
  | drop {s : CharDev} {c : Cmd} : 0 < (s.lines c).running → CharStep s (.drop c) (s.drop c)
  | irqHandler {s : CharDev} : s.woken = false → CharStep s .irqHandler s.strelaIrqHandler
  | irqThread {s : CharDev} : s.woken = true → CharStep s .irqThread s.strelaIrqThreadFn

def charLts : Lts CharDev CharEvent where
  start s := s = .probed
  step := CharStep

variable {s s' : CharDev} {e : CharEvent} {c d : Cmd} {l₁ l₂ : List (FileId × Call)} {f : FileId}

/-! ## One file at a time -/

/-- The bit says whether the device is open, and every call is on the file that is. -/
structure Exclusive (s : CharDev) : Prop where
  files : s.files.length = s.inUse.toNat
  calls : ∀ x ∈ s.calls, x.1 ∈ s.files

theorem Exclusive.replace (h : Exclusive s) {a b : Call} (hc : s.calls = l₁ ++ (f, a) :: l₂) :
    ∀ x ∈ l₁ ++ (f, b) :: l₂, x.1 ∈ s.files := by
  have hall := h.calls
  rw [hc] at hall
  intro x hx
  simp only [List.mem_append, List.mem_cons] at hx hall
  rcases hx with hx | rfl | hx
  · exact hall x (.inl hx)
  · exact hall (f, a) (.inr (.inl rfl))
  · exact hall x (.inr (.inr hx))

theorem Exclusive.step (h : Exclusive s) (hst : CharStep s e s') : Exclusive s' := by
  cases hst with
  | @«open» f hf =>
    unfold CharDev.strelaOpen
    split
    · exact h
    · rename_i hin
      have hnil : s.files = [] := by simpa [hin] using h.files
      constructor
      · simp [hnil]
      · exact fun x hx => List.mem_cons_of_mem _ (h.calls x hx)
  | @release f hf hcalls =>
    -- The only open file is the one that is closed, so there are no calls.
    have hone : s.files = [f] := by
      have hlen := h.files
      cases hin : s.inUse with
      | false =>
        rw [hin] at hlen
        rw [List.eq_nil_of_length_eq_zero hlen] at hf
        cases hf
      | true =>
        rw [hin] at hlen
        obtain ⟨g, hg⟩ := List.length_eq_one_iff.mp hlen
        rw [hg, List.mem_singleton] at hf
        rw [hg, hf]
    constructor
    · simp [CharDev.strelaRelease, hone]
    · intro x hx
      have hmem := h.calls x hx
      rw [hone, List.mem_singleton] at hmem
      exact absurd hmem (hcalls x hx)
  | ioctl hf =>
    refine ⟨h.files, fun x hx => ?_⟩
    rcases List.mem_cons.mp hx with rfl | hx
    · exact hf
    · exact h.calls x hx
  | @write _ _ _ _ _ c hc _ =>
    cases c with
    | none => exact ⟨h.files, h.replace hc⟩
    | some c => exact ⟨h.files, h.replace hc⟩
  | wake hc _ => exact ⟨h.files, h.replace hc⟩
  | cut hc _ _ => exact ⟨h.files, h.replace hc⟩
  | leave hc =>
    refine ⟨h.files, fun x hx => h.replace (b := .clearConfig) hc x ?_⟩
    simp only [List.mem_append, List.mem_cons] at hx ⊢
    tauto
  | finish _ => exact ⟨h.files, h.calls⟩
  | drop _ => exact ⟨h.files, h.calls⟩
  | irqHandler _ =>
    unfold CharDev.strelaIrqHandler
    split_ifs
    · exact ⟨h.files, h.calls⟩
    · exact ⟨h.files, h.calls⟩
    · exact h
  | irqThread _ =>
    unfold CharDev.strelaIrqThreadFn
    split_ifs <;> exact ⟨h.files, h.calls⟩

theorem exclusive_of_reach (h : charLts.Reach s) : Exclusive s := by
  refine h.invariant (fun s hs => ?_) fun _ _ _ _ hx hst => hx.step hst
  obtain rfl := hs
  exact ⟨rfl, fun x hx => by cases hx⟩

/-! ## Where the completions are -/

/-- The thread has a completion of the command to count; of two latched bits it serves the first. -/
def CharDev.latched (s : CharDev) : Cmd → Bool
  | .config => s.irqStatus .config
  | .exec => s.irqStatus .exec && !s.irqStatus .config

/-- The commands that were written and whose completion nobody has taken. -/
def CharDev.unclaimed (s : CharDev) (c : Cmd) : ℕ :=
  (s.lines c).outstanding + (s.lines c).pending.toNat + (s.latched c).toNat + (s.lines c).done

/-- Every command that nobody has claimed is one that a call waits for or that a wait was cut short
for, and the thread sleeps only if it has nothing to count. -/
structure Balanced (s : CharDev) : Prop where
  claims (c : Cmd) : s.unclaimed c = s.waiting c + cuts s.log c
  asleep : s.woken = false → ∀ c, s.irqStatus c = false

theorem waiting_replace {a : Call} (h : s.calls = l₁ ++ (f, a) :: l₂) (b : Call) (c : Cmd) :
    (l₁ ++ (f, b) :: l₂).countP (fun x => decide (x.2 = .waiting c)) +
        (decide (a = .waiting c)).toNat = s.waiting c + (decide (b = .waiting c)).toNat := by
  rw [CharDev.waiting, h]
  simp only [List.countP_append, List.countP_cons, Bool.toNat]
  cases decide (a = .waiting c) <;> cases decide (b = .waiting c) <;> simp <;> omega

theorem cuts_concat (log : List Return) (e : Return) (c : Cmd) :
    cuts (log ++ [e]) c = cuts log c + (decide (e.cmd = c ∧ e.error ≠ none)).toNat := by
  simp only [cuts, List.countP_append, List.countP_cons, List.countP_nil, Bool.toNat]
  cases decide (e.cmd = c ∧ e.error ≠ none) <;> simp

theorem lines_setLine (s : CharDev) (c d : Cmd) (l : Line) :
    (s.setLine c l).lines d = if d = c then l else s.lines d := by
  simp [CharDev.setLine, Function.update_apply]

theorem unclaimed_eq_of_line (h₁ : s'.lines c = s.lines c) (h₂ : s'.latched c = s.latched c) :
    s'.unclaimed c = s.unclaimed c := by
  rw [CharDev.unclaimed, CharDev.unclaimed, h₁, h₂]

/-- A wait that ends has counted one completion down, or counts as cut short. -/
theorem Balanced.ended (h : Balanced s) (hc : s.calls = l₁ ++ (f, .waiting c) :: l₂)
    {error : Option Errno} (hd : error = none → 0 < (s.lines c).done) :
    Balanced (s.ended c error l₁ l₂ f) := by
  refine ⟨fun d => ?_, h.asleep⟩
  have hclaims := h.claims d
  have hw : (s.ended c error l₁ l₂ f).waiting d + (decide (Call.waiting c = .waiting d)).toNat =
      s.waiting d + 0 := waiting_replace hc (.leaving c error) d
  have hcut : cuts (s.ended c error l₁ l₂ f).log d = _ := cuts_concat _ _ d
  rcases eq_or_ne d c with rfl | hne
  · cases error with
    | none =>
      have hline : ((s.ended d none l₁ l₂ f).lines d) =
          { s.lines d with done := (s.lines d).done - 1 } := by
        rw [CharDev.ended, lines_setLine, if_pos rfl, if_pos rfl]
      have hpos := hd rfl
      have hun : (s.ended d none l₁ l₂ f).unclaimed d + 1 = s.unclaimed d := by
        simp only [CharDev.unclaimed, hline, Line.outstanding]
        have hl : (s.ended d none l₁ l₂ f).latched d = s.latched d := by cases d <;> rfl
        rw [hl]
        omega
      simp at hw hcut
      omega
    | some e =>
      have hun : (s.ended d (some e) l₁ l₂ f).unclaimed d = s.unclaimed d := by
        refine unclaimed_eq_of_line ?_ (by cases d <;> rfl)
        rw [CharDev.ended, lines_setLine, if_pos rfl, if_neg (by simp)]
      simp at hw hcut
      omega
  · have hun : (s.ended c error l₁ l₂ f).unclaimed d = s.unclaimed d := by
      refine unclaimed_eq_of_line ?_ (by cases d <;> rfl)
      rw [CharDev.ended, lines_setLine, if_neg hne]
    simp [hne.symm] at hw hcut
    omega

theorem Balanced.moved (h : Balanced s) (hc : s'.calls = s.calls) (hl : s'.log = s.log)
    (hun : ∀ c, s'.unclaimed c = s.unclaimed c)
    (hs : s'.woken = false → ∀ c, s'.irqStatus c = false) : Balanced s' := by
  refine ⟨fun c => ?_, hs⟩
  rw [hun, h.claims, CharDev.waiting, CharDev.waiting, hc, hl]

theorem unclaimed_setLine {l : Line} (h : l.outstanding + l.pending.toNat + l.done =
    (s.lines c).outstanding + (s.lines c).pending.toNat + (s.lines c).done) (d : Cmd) :
    (s.setLine c l).unclaimed d = s.unclaimed d := by
  have hl : (s.setLine c l).latched d = s.latched d := by cases d <;> rfl
  rcases eq_or_ne d c with rfl | hne
  · rw [CharDev.unclaimed, hl, lines_setLine, if_pos rfl, CharDev.unclaimed]
    omega
  · exact unclaimed_eq_of_line (by rw [lines_setLine, if_neg hne]) hl

theorem unclaimed_latch (hp : (s.lines c).pending = true) (hs : ∀ d, s.latched d = false)
    (hl : ∀ d, (s.latch c).latched d = decide (d = c)) (d : Cmd) :
    (s.latch c).unclaimed d = s.unclaimed d := by
  rcases eq_or_ne d c with rfl | hne
  · have hline : (s.latch d).lines d = { s.lines d with pending := false } := by
      rw [CharDev.latch, lines_setLine, if_pos rfl]
    simp [CharDev.unclaimed, hline, hl, hs, hp, Line.outstanding]
  · refine unclaimed_eq_of_line ?_ (by rw [hl, hs, decide_eq_false hne])
    rw [CharDev.latch, lines_setLine, if_neg hne]

theorem unclaimed_complete (hl : ∀ d, s.latched d = decide (d = c)) (d : Cmd) :
    (s.complete c).unclaimed d = s.unclaimed d := by
  have hclear : (s.complete c).latched d = false := by cases d <;> rfl
  rcases eq_or_ne d c with rfl | hne
  · have hline : (s.complete d).lines d = { s.lines d with done := (s.lines d).done + 1 } := by
      rw [CharDev.complete, lines_setLine, if_pos rfl]
    simp only [CharDev.unclaimed, hline, hclear, hl, Line.outstanding, decide_true, Bool.toNat_true,
      Bool.toNat_false]
    omega
  · refine unclaimed_eq_of_line ?_ (by rw [hclear, hl, decide_eq_false hne])
    rw [CharDev.complete, lines_setLine, if_neg hne]

/-- The handler runs when nothing is latched, and the bit it takes is the one that the thread will
count, although both may be latched. -/
theorem Balanced.strelaIrqHandler (h : Balanced s) (hw : s.woken = false) :
    Balanced s.strelaIrqHandler := by
  have hclear (d : Cmd) : s.latched d = false := by cases d <;> simp [CharDev.latched, h.asleep hw]
  unfold CharDev.strelaIrqHandler
  split_ifs with hc he
  · refine h.moved rfl rfl (unclaimed_latch hc hclear fun d => ?_) nofun
    cases d <;> simp [CharDev.latched, CharDev.latch, hc]
  · refine h.moved rfl rfl (unclaimed_latch he hclear fun d => ?_) nofun
    cases d <;> simp [CharDev.latched, CharDev.latch, hc, he]
  · exact h

theorem Balanced.strelaIrqThreadFn (h : Balanced s) : Balanced s.strelaIrqThreadFn := by
  unfold CharDev.strelaIrqThreadFn
  split_ifs with hc he
  · refine h.moved rfl rfl (unclaimed_complete (c := .config) fun d => ?_) fun _ _ => rfl
    cases d <;> simp [CharDev.latched, hc]
  · refine h.moved rfl rfl (unclaimed_complete (c := .exec) fun d => ?_) fun _ _ => rfl
    cases d <;> simp [CharDev.latched, hc, he]
  · refine h.moved rfl rfl (fun d => ?_) fun _ d => ?_
    · cases d <;> rfl
    · cases d with
      | config => simpa using hc
      | exec => simpa using he

theorem unclaimed_command (s : CharDev) (c : Option Cmd) (d : Cmd) :
    (s.command c).unclaimed d = s.unclaimed d + (decide (c = some d)).toNat := by
  cases c with
  | none => simp [CharDev.command]
  | some c =>
    have hl : (s.command (some c)).latched d = s.latched d := by cases d <;> rfl
    rcases eq_or_ne d c with rfl | hne
    · have hline : (s.command (some d)).lines d =
          { s.lines d with running := (s.lines d).running + 1 } := by
        rw [CharDev.command, lines_setLine, if_pos rfl]
      simp only [CharDev.unclaimed, hline, hl, Line.outstanding, decide_true, Bool.toNat_true]
      omega
    · have hnot : decide (some c = some d) = false := by simpa using hne.symm
      rw [hnot]
      refine unclaimed_eq_of_line ?_ hl
      rw [CharDev.command, lines_setLine, if_neg hne]

theorem Balanced.write (h : Balanced s) {a b : Call} {c : Option Cmd}
    (hc : s.calls = l₁ ++ (f, a) :: l₂) (hw : a.write = some (c, b)) :
    Balanced { s.command c with calls := l₁ ++ (f, b) :: l₂ } := by
  have ha (d : Cmd) : a ≠ .waiting d := by
    rintro rfl
    cases hw
  have hb (d : Cmd) : b = .waiting d ↔ c = some d := by
    cases a <;> simp only [Call.write, Option.some.injEq, Prod.mk.injEq, reduceCtorEq] at hw <;>
      obtain ⟨rfl, rfl⟩ := hw <;> simp
  have hlog : (s.command c).log = s.log := by cases c <;> rfl
  refine ⟨fun d => ?_, ?_⟩
  · have hwait := waiting_replace hc b d
    simp only [ha d, hb d, decide_false, Bool.toNat_false, Nat.add_zero] at hwait
    calc _ = (s.command c).unclaimed d := by cases d <;> rfl
      _ = s.waiting d + cuts s.log d + (decide (c = some d)).toNat := by
        rw [unclaimed_command, h.claims]
      _ = (l₁ ++ (f, b) :: l₂).countP (fun x => decide (x.2 = .waiting d)) +
          cuts (s.command c).log d := by
        rw [hlog, hwait]
        omega
  · intro hs d
    cases c <;> exact h.asleep hs d

theorem Balanced.step (h : Balanced s) (hst : CharStep s e s') : Balanced s' := by
  cases hst with
  | «open» hf =>
    unfold CharDev.strelaOpen
    split
    · exact h
    · exact h.moved rfl rfl (fun d => by cases d <;> rfl) h.asleep
  | release hf hc => exact h.moved rfl rfl (fun d => by cases d <;> rfl) h.asleep
  | @ioctl f c hf =>
    refine ⟨fun d => ?_, h.asleep⟩
    have hun : ({ s with calls := (f, c.first) :: s.calls } : CharDev).unclaimed d =
        s.unclaimed d := by cases d <;> rfl
    rw [hun, h.claims, CharDev.waiting, CharDev.waiting, List.countP_cons]
    cases c <;> simp [Cmd.first]
  | write hc hw => exact h.write hc hw
  | wake hc hd => exact h.ended hc fun _ => hd
  | cut hc hd _ => exact h.ended hc nofun
  | @leave l₁ l₂ f c error hc =>
    refine ⟨fun d => ?_, h.asleep⟩
    have hun : ({ s with calls := l₁ ++ l₂ } : CharDev).unclaimed d = s.unclaimed d := by
      cases d <;> rfl
    rw [hun, h.claims, CharDev.waiting, CharDev.waiting, hc]
    simp
  | @finish c hr =>
    refine h.moved rfl rfl (unclaimed_setLine ?_) h.asleep
    simp only [Line.outstanding]
    cases (s.lines c).pending <;> simp <;> omega
  | @drop c hr =>
    refine h.moved rfl rfl (unclaimed_setLine ?_) h.asleep
    simp only [Line.outstanding]
    omega
  | irqHandler hw => exact h.strelaIrqHandler hw
  | irqThread _ => exact h.strelaIrqThreadFn

theorem balanced_of_reach (h : charLts.Reach s) : Balanced s := by
  refine h.invariant (fun s hs => ?_) fun _ _ _ _ hb hst => hb.step hst
  obtain rfl := hs
  exact ⟨fun c => by cases c <;> rfl, fun _ _ => rfl⟩

/-! ## Whose completion a call takes -/

/-- A success is no more than the waits before it leave to doubt: without other calls and earlier
waits that were cut short, every command of the kind has come to its completion. -/
def Justified (before : List Return) (e : Return) : Prop :=
  e.error = none → e.running + e.dropped + e.merged ≤ e.others + cuts before e.cmd

theorem Balanced.justified (h : Balanced s) (hc : s.calls = l₁ ++ (f, .waiting c) :: l₂)
    {error : Option Errno} (hd : error = none → 0 < (s.lines c).done) :
    Justified s.log ⟨f, c, error, s.waiting c - 1, (s.lines c).running, (s.lines c).dropped,
      (s.lines c).merged⟩ := by
  intro he
  have hclaims := h.claims c
  have hpos := hd he
  have hw : 0 < s.waiting c := by
    rw [CharDev.waiting, hc]
    simp
  simp only [CharDev.unclaimed, Line.outstanding] at hclaims ⊢
  omega

theorem justified_step (hb : Balanced s) (h : Throughout Justified s.log)
    (hst : CharStep s e s') : Throughout Justified s'.log := by
  cases hst with
  | «open» _ =>
    unfold CharDev.strelaOpen
    split <;> exact h
  | @write _ _ _ _ _ c _ _ => cases c <;> exact h
  | wake hc hd => exact throughout_concat.mpr ⟨h, hb.justified hc fun _ => hd⟩
  | cut hc _ _ => exact throughout_concat.mpr ⟨h, hb.justified hc nofun⟩
  | irqHandler _ =>
    unfold CharDev.strelaIrqHandler
    split_ifs <;> exact h
  | irqThread _ =>
    unfold CharDev.strelaIrqThreadFn
    split_ifs <;> exact h
  | release _ _ | ioctl _ | leave _ | finish _ | drop _ => exact h

/-- There is one open file at most. A call that succeeds while no other waits, before any wait for
its command was cut short, returns after all such commands have completed; and a call waits without
the interrupt being under way only if some command has not come to a completion of its own. -/
theorem reach_completion (h : charLts.Reach s) :
    (s.files.length ≤ 1 ∧ ∀ x ∈ s.calls, x.1 ∈ s.files) ∧
    (∀ l₁ e l₂, s.log = l₁ ++ e :: l₂ → e.error = none →
      e.running + e.dropped + e.merged ≤ e.others + cuts l₁ e.cmd) ∧
    ∀ c, 0 < s.waiting c → (s.lines c).done = 0 → (s.lines c).pending = false → s.woken = false →
      0 < (s.lines c).running + (s.lines c).dropped + (s.lines c).merged := by
  refine ⟨?_, ?_, ?_⟩
  · have hone := exclusive_of_reach h
    refine ⟨?_, hone.calls⟩
    rw [hone.files]
    exact Bool.toNat_le s.inUse
  · have hlog : Throughout Justified s.log := by
      refine h.invariant (fun s hs => ?_) fun _ _ _ hr hl hst =>
        justified_step (balanced_of_reach hr) hl hst
      obtain rfl := hs
      exact throughout_nil
    exact hlog
  · intro c hw hd hp hs
    have hb := balanced_of_reach h
    have hl : s.latched c = false := by cases c <;> simp [CharDev.latched, hb.asleep hs]
    have hclaims := hb.claims c
    simp only [CharDev.unclaimed, Line.outstanding, hl, hp, hd, Bool.toNat_false] at hclaims
    omega

/-! Two executions complete before the handler runs, and one of the two calls returns. -/

/-- The other call waits, although nothing is running and nothing was dropped. -/
def mergedDev : CharDev where
  inUse := true
  files := [0]
  calls := [(0, .waiting .exec)]
  lines := Function.update (fun _ => ⟨0, 0, false, 0, 0⟩) .exec ⟨0, 0, false, 1, 0⟩
  irqStatus _ := false
  woken := false
  log := [⟨0, .exec, none, 1, 0, 0, 1⟩]

theorem reach_mergedDev : charLts.Reach mergedDev := by
  have h₁ : charLts.Reach (CharDev.probed.strelaOpen 0).2 :=
    (Lts.Reach.start rfl).step (CharStep.open List.not_mem_nil)
  have h₂ := (h₁.step (CharStep.ioctl (f := 0) (c := .exec) List.mem_cons_self)).step
    (CharStep.ioctl (f := 0) (c := .exec) List.mem_cons_self)
  have h₃ := h₂.step (CharStep.write
    (show _ = [] ++ (0, Call.startExec) :: [(0, Call.startExec)] from rfl) rfl)
  have h₄ := h₃.step (CharStep.write
    (show _ = [(0, Call.waiting .exec)] ++ (0, Call.startExec) :: [] from rfl) rfl)
  have h₅ := h₄.step (CharStep.finish (c := .exec) Nat.zero_lt_two)
  have h₆ := h₅.step (CharStep.finish (c := .exec) Nat.zero_lt_one)
  have h₇ := (h₆.step (CharStep.irqHandler rfl)).step (CharStep.irqThread rfl)
  have h₈ := h₇.step (CharStep.wake
    (show _ = [] ++ (0, Call.waiting .exec) :: [(0, Call.waiting .exec)] from rfl) Nat.zero_lt_one)
  have h₉ := h₈.step (CharStep.leave
    (show _ = [] ++ (0, Call.leaving .exec none) :: [(0, Call.waiting .exec)] from rfl))
  obtain ⟨s, hr, rfl⟩ : ∃ s, charLts.Reach s ∧ s = mergedDev := by
    refine ⟨_, h₉, ?_⟩
    rw [mergedDev]
    congr 1
    funext c
    cases c <;> rfl
  exact hr

theorem reach_completion_merged : (1 : ℕ) ≤ 1 + cuts [] .exec ∧
    mergedDev.lines .exec = ⟨0, 0, false, 1, 0⟩ ∧ 0 < mergedDev.waiting .exec ∧
    0 < (mergedDev.lines .exec).running + (mergedDev.lines .exec).dropped +
      (mergedDev.lines .exec).merged := by
  obtain ⟨-, hlog, hwait⟩ := reach_completion reach_mergedDev
  exact ⟨hlog [] _ [] rfl rfl, rfl, Nat.zero_lt_one, hwait .exec Nat.zero_lt_one rfl rfl rfl⟩

/-- After these events the device is closed, and its line for `START_EXEC` is as given. -/
structure Closed (es : List CharEvent) (s : CharDev) (exec : Line) : Prop where
  run : charLts.Run es s
  inUse : s.inUse = false
  files : s.files = []
  calls : s.calls = []
  woken : s.woken = false
  config : (s.lines .config).pending = false
  exec : s.lines .exec = exec

/-- The only call there is returns, and the execution that it started is still running. -/
def Return.early (f : FileId) (error : Option Errno) : Return where
  file := f
  cmd := .exec
  error := error
  others := 0
  running := 1
  dropped := 0
  merged := 0

/-- Somebody opens the device, starts it and closes it again. -/
def execAlone (f : FileId) (error : Option Errno) : List CharEvent :=
  [.open f, .ioctl f .exec, .write f .startExec,
    if error = none then .wake f .exec else .cut f .exec, .leave f .exec, .release f]

/-- The device finishes what it was started for, and the interrupt is served. -/
def execDone : List CharEvent := [.finish .exec, .irqHandler, .irqThread]

/-- The call takes the completion that is left, or gives up if there is none. -/
theorem Closed.call {es : List CharEvent} {k : ℕ} (h : Closed es s ⟨0, 0, false, 0, k⟩) (f : FileId)
    {error : Option Errno} (he : k = 0 ∧ error = some .etimedout ∨ k = 1 ∧ error = none) :
    ∃ s', Closed (es ++ execAlone f error) s' ⟨1, 0, false, 0, 0⟩ ∧
      s'.log = s.log ++ [.early f error] := by
  obtain ⟨inUse, files, calls, lines, irqStatus, woken, log⟩ := s
  obtain ⟨hr, rfl, rfl, rfl, rfl, hconf, hexec⟩ := h
  replace hexec : lines .exec = ⟨0, 0, false, 0, k⟩ := hexec
  have h₁ : charLts.Run (es ++ [.open f]) ⟨true, [f], [], lines, irqStatus, false, log⟩ :=
    hr.step (CharStep.open (f := f) List.not_mem_nil)
  have h₂ := h₁.step (CharStep.ioctl (f := f) (c := .exec) List.mem_cons_self)
  have h₃ : charLts.Run (es ++ [.open f] ++ [.ioctl f .exec] ++ [.write f .startExec])
      ⟨true, [f], [(f, .waiting .exec)],
        Function.update lines .exec ⟨1, 0, false, 0, k⟩, irqStatus, false, log⟩ := by
    have := h₂.step (CharStep.write (show _ = [] ++ (f, Call.startExec) :: [] from rfl) rfl)
    simpa [CharDev.command, CharDev.setLine, hexec] using this
  have h₄ : charLts.Run (es ++ [.open f] ++ [.ioctl f .exec] ++ [.write f .startExec] ++
      [if error = none then .wake f .exec else .cut f .exec])
      ⟨true, [f], [(f, .leaving .exec error)],
        Function.update lines .exec ⟨1, 0, false, 0, 0⟩, irqStatus, false,
        log ++ [.early f error]⟩ := by
    obtain ⟨rfl, rfl⟩ | ⟨rfl, rfl⟩ := he
    · have := h₃.step (CharStep.cut (show _ = [] ++ (f, Call.waiting .exec) :: [] from rfl)
        (by simp) (.inl rfl))
      simpa [CharDev.ended, CharDev.setLine, CharDev.waiting, Return.early] using this
    · have := h₃.step (CharStep.wake (show _ = [] ++ (f, Call.waiting .exec) :: [] from rfl)
        (by simp))
      simpa [CharDev.ended, CharDev.setLine, CharDev.waiting, Return.early] using this
  have h₅ := h₄.step (CharStep.leave (show _ = [] ++ (f, Call.leaving .exec error) :: [] from rfl))
  have h₆ : charLts.Run (es ++ execAlone f error) ⟨false, [], [],
      Function.update lines .exec ⟨1, 0, false, 0, 0⟩, irqStatus, false,
      log ++ [.early f error]⟩ := by
    have := h₅.step (CharStep.release (f := f) List.mem_cons_self fun _ hx => by cases hx)
    simpa [CharDev.strelaRelease, execAlone] using this
  exact ⟨_, ⟨h₆, rfl, rfl, rfl, rfl, hconf, by simp⟩, rfl⟩

theorem Closed.finish {es : List CharEvent} (h : Closed es s ⟨1, 0, false, 0, 0⟩) :
    ∃ s', Closed (es ++ execDone) s' ⟨0, 0, false, 0, 1⟩ ∧ s'.log = s.log := by
  have h₁ := h.run.step (CharStep.finish (c := .exec) (by simp [h.exec]))
  have h₂ := h₁.step (CharStep.irqHandler h.woken)
  have hlatch : (s.finish .exec).strelaIrqHandler = (s.finish .exec).latch .exec := by
    simp [CharDev.strelaIrqHandler, CharDev.finish, lines_setLine, h.config]
  rw [hlatch] at h₂
  have h₃ := h₂.step (CharStep.irqThread rfl)
  have hserve : ((s.finish .exec).latch .exec).strelaIrqThreadFn =
      { ((s.finish .exec).latch .exec).complete .exec with woken := false } := by
    simp [CharDev.strelaIrqThreadFn, CharDev.latch, CharDev.finish, lines_setLine, h.config]
  rw [hserve, List.append_assoc, List.append_assoc] at h₃
  refine ⟨_, ⟨h₃, h.inUse, h.files, h.calls, rfl, ?_, ?_⟩, rfl⟩
  · simp [CharDev.complete, CharDev.latch, CharDev.finish, lines_setLine, h.config]
  · simp [CharDev.complete, CharDev.latch, CharDev.finish, lines_setLine, h.exec]

/-- The first wait is cut short, and everybody after it is served from what it left. -/
def earlyRun (n : ℕ) : List CharEvent :=
  execAlone 0 (some .etimedout) ++ execDone ++
    (List.range n).flatMap fun i => execAlone (i + 1) none ++ execDone

theorem closed_early (n : ℕ) : ∃ s, Closed (earlyRun n) s ⟨0, 0, false, 0, 1⟩ ∧
    s.log = .early 0 (some .etimedout) :: (List.range n).map fun i => .early (i + 1) none := by
  induction n with
  | zero =>
    have h₀ : Closed [] .probed ⟨0, 0, false, 0, 0⟩ := ⟨.start rfl, rfl, rfl, rfl, rfl, rfl, rfl⟩
    obtain ⟨s₁, h₁, hlog₁⟩ := h₀.call 0 (.inl ⟨rfl, rfl⟩)
    obtain ⟨s₂, h₂, hlog₂⟩ := h₁.finish
    exact ⟨s₂, h₂, hlog₂.trans hlog₁⟩
  | succ n ih =>
    obtain ⟨s, h, hlog⟩ := ih
    obtain ⟨s₁, h₁, hlog₁⟩ := h.call (n + 1) (.inr ⟨rfl, rfl⟩)
    obtain ⟨s₂, h₂, hlog₂⟩ := h₁.finish
    have hrun : earlyRun (n + 1) = earlyRun n ++ execAlone (n + 1) none ++ execDone := by
      simp [earlyRun, List.range_succ]
    refine ⟨s₂, hrun ▸ h₂, ?_⟩
    rw [hlog₂, hlog₁, hlog, List.range_succ, List.map_append, List.cons_append]
    rfl

/-- One wait that is cut short is enough: whoever opens the device after it, one after the other,
is told that its execution has completed before the device finishes it, and at the end one
completion is still left although nothing runs. -/
theorem reach_completion_early (n : ℕ) : ∃ s, charLts.Run (earlyRun n) s ∧
    s.log = (.early 0 (some .etimedout) :: (List.range n).map fun i => .early (i + 1) none) ∧
    s.files = [] ∧ s.calls = [] ∧ s.lines .exec = ⟨0, 0, false, 0, 1⟩ := by
  obtain ⟨s, h, hlog⟩ := closed_early n
  exact ⟨s, h.run, hlog, h.files, h.calls, h.exec⟩

end Strela.Legacy
