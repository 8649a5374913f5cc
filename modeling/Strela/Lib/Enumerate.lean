import Strela.Lib.World
import Strela.Foundation.Handles

/-! # Finding the devices

The accelerators are the entries of `/dev/accel`, of which some belong to other
drivers, some cannot be opened and some are hidden. An iterator reads the entries
one by one. Counting the devices opens every entry and closes it again; opening
the `n`-th one stops the iteration early and keeps one descriptor.
-/

namespace Strela.Lib

open Foundation Strela.Allocator

def enoent : ℕ+ := Nat.toPNat' 2

def nul : Char := Char.ofNat 0

/-- A string of C, without the zero that ends it. -/
structure CString where
  chars : List Char
  no_nul : nul ∉ chars

def strelaDrmName : List Char := ['s', 't', 'r', 'e', 'l', 'a']

/-- An entry of the directory, with how `openat` and `DRM_IOCTL_VERSION` answer for it. -/
structure DirEntry where
  name : List Char
  opened : Except ℕ+ Unit
  version : Except ℕ+ CString

/-- `openat` and `mmap` hand out descriptors and mappings, `opendir` directories. -/
inductive Handle
  | fd (n : ℤ)
  | dir (n : ℕ)
  | map (base size : ℕ)
  deriving DecidableEq, Repr

inductive Use
  | accel (e : DirEntry)
  | listing
  | memory (fd : ℤ) (offset : ℕ)
  | other

abbrev Held := Handles Handle Use

/-- The parts of the system that a device is opened through. It hands out only what is not in use,
and places mappings on whole pages inside the address space. -/
structure System (A : Abi) where
  /-- The entries of `/dev/accel`, with the `errno` at which reading them ends. -/
  opendir : Except ℕ+ (List DirEntry × ℕ)
  nextDir : Held → ℕ
  nextFd : Held → ℤ
  /-- The handle and the offset that `DRM_IOCTL_STRELA_GEM_NEW` fills in. -/
  gemNew : Held → (fd : ℤ) → (size : ℕ) → Except ℕ+ (U32 × ℕ)
  mmap : Held → (size : ℕ) → (fd : ℤ) → (offset : ℕ) → Except ℕ+ ℕ
  dir_free : ∀ held : Held, held.Free (.dir (nextDir held))
  fd_free : ∀ held : Held, held.Free (.fd (nextFd held))
  fd_nonneg : ∀ held, 0 ≤ nextFd held
  map_free : ∀ {held : Held} {size fd offset base}, mmap held size fd offset = .ok base →
    held.Free (.map base size)
  map_placed : ∀ {held size fd offset base}, mmap held size fd offset = .ok base →
    0 < base ∧ 4096 ∣ base ∧ base + size < A.modulus

variable {A : Abi} (sys : System A)

/-! ## Opening an entry -/

structure AccelFd where
  fd : ℤ
  drmName : List Char

def AccelFd.none : AccelFd := ⟨-1, List.replicate 16 nul⟩

/-- The kernel copies at most 15 characters of the name over the zeros. -/
def copyName (name : List Char) : List Char :=
  name.take 15 ++ (List.replicate 16 nul).drop (name.take 15).length

def cString (buffer : List Char) : List Char := buffer.takeWhile (· ≠ nul)

def accelOpenat (e : DirEntry) (held : Held) : AccelFd × Held :=
  match e.opened with
  | .error _ => (.none, held)
  | .ok _ =>
    let fd := sys.nextFd held
    let held := held.take (.fd fd) (.accel e)
    match e.version with
    | .error _ => (.none, held.give (.fd fd))
    | .ok name => (⟨fd, copyName name.chars⟩, held)

/-! ## Reading the directory -/

structure DirStream where
  id : ℕ
  left : List DirEntry
  stop : ℕ

/-- `accel_iter`, with the entry that `ent_name` names. -/
structure AccelIter where
  dir : Option DirStream
  myerrno : ℕ
  valid : Bool
  ent : Option DirEntry

def DirEntry.hidden (e : DirEntry) : Bool := e.name.head? == some '.'

/-- The loop of `accel_iter_next`: read until an entry is not hidden. -/
def readVisible : List DirEntry → Option (DirEntry × List DirEntry)
  | [] => none
  | e :: left => if e.hidden then readVisible left else some (e, left)

def accelIterClose (iter : AccelIter) (held : Held) : AccelIter × Held :=
  match iter.dir with
  | none => (iter, held)
  | some d => ({ iter with dir := none, valid := false, ent := none }, held.give (.dir d.id))

def accelIterNext (iter : AccelIter) (held : Held) : AccelIter × Held :=
  match iter.dir with
  | none => ({ iter with valid := false }, held)
  | some d =>
    match readVisible d.left with
    | none => accelIterClose { iter with valid := false, myerrno := d.stop } held
    | some (e, left) =>
      ({ iter with dir := some { d with left }, valid := true, ent := some e }, held)

def accelIterMake (held : Held) : AccelIter × Held :=
  match sys.opendir with
  -- No directory at all means no devices, which is not an error.
  | .error e => accelIterNext ⟨none, if e ≠ enoent then e else 0, false, none⟩ held
  | .ok (left, stop) =>
    let id := sys.nextDir held
    accelIterNext ⟨some ⟨id, left, stop⟩, 0, true, none⟩ (held.take (.dir id) .listing)

def AccelIter.left (iter : AccelIter) : ℕ :=
  if iter.valid then (iter.dir.map fun d => d.left.length).getD 0 + 1 else 0

theorem readVisible_length {es left : List DirEntry} {e : DirEntry}
    (h : readVisible es = some (e, left)) : left.length < es.length := by
  induction es with
  | nil => cases h
  | cons f es ih =>
    rw [readVisible] at h
    split at h
    · exact (ih h).trans (Nat.lt_succ_self _)
    · obtain ⟨-, rfl⟩ := Prod.mk.inj (Option.some.inj h)
      exact Nat.lt_succ_self _

theorem accelIterNext_left {iter : AccelIter} (h : iter.valid = true) (held : Held) :
    (accelIterNext iter held).1.left < iter.left := by
  unfold accelIterNext
  split
  · simp [AccelIter.left, h]
  · rename_i d hd
    split
    · simp [AccelIter.left, accelIterClose, hd, h]
    · rename_i e left hr
      have hlt := readVisible_length hr
      simpa [AccelIter.left, hd, h] using hlt

/-! ## Counting and finding -/

/-- Open the entry that the iterator stands at; the null name cannot be opened. -/
def openEntry (iter : AccelIter) (held : Held) : AccelFd × Held :=
  match iter.ent with
  | none => (.none, held)
  | some e => accelOpenat sys e held

def countLoop (iter : AccelIter) (held : Held) (count : U32) : U32 × AccelIter × Held :=
  if h : iter.valid = true then
    let fd := openEntry sys iter held
    if fd.1.fd ≠ -1 then
      let next := accelIterNext iter (fd.2.give (.fd fd.1.fd))
      countLoop next.1 next.2 (if cString fd.1.drmName = strelaDrmName then count + 1 else count)
    else
      let next := accelIterNext iter fd.2
      countLoop next.1 next.2 count
  else (count, iter, held)
termination_by iter.left
decreasing_by all_goals exact accelIterNext_left h _

def strelaDevCount (held : Held) : (ℤ × U32) × Held :=
  let iter := accelIterMake sys held
  let (count, iter, held) := countLoop sys iter.1 iter.2 0
  ((if iter.myerrno ≠ 0 then -1 else 0, count), held)

def findLoop (whichStrela : U32) (iter : AccelIter) (held : Held) (count : U32) : ℤ × Held :=
  if h : iter.valid = true then
    let afd := openEntry sys iter held
    if afd.1.fd ≠ -1 then
      if cString afd.1.drmName = strelaDrmName then
        if count = whichStrela then (afd.1.fd, (accelIterClose iter afd.2).2)
        else
          let next := accelIterNext iter (afd.2.give (.fd afd.1.fd))
          findLoop whichStrela next.1 next.2 (count + 1)
      else
        let next := accelIterNext iter (afd.2.give (.fd afd.1.fd))
        findLoop whichStrela next.1 next.2 count
    else
      let next := accelIterNext iter afd.2
      findLoop whichStrela next.1 next.2 count
  else (-1, held)
termination_by iter.left
decreasing_by all_goals exact accelIterNext_left h _

/-- The search of `strela_dev_init`: the descriptor of the device, or -1. -/
def findDevice (whichStrela : U32) (held : Held) : ℤ × Held :=
  let iter := accelIterMake sys held
  findLoop sys whichStrela iter.1 iter.2 0

/-! ## The devices -/

/-- The entry can be opened, and the driver behind it has the name. -/
def DirEntry.isStrela (e : DirEntry) : Bool :=
  match e.opened, e.version with
  | .ok _, .ok name => name.chars == strelaDrmName
  | _, _ => false

def visible (es : List DirEntry) : List DirEntry := es.filter fun e => !e.hidden

def System.entries : List DirEntry :=
  match sys.opendir with
  | .error _ => []
  | .ok (es, _) => es

def System.devices : List DirEntry := (visible sys.entries).filter DirEntry.isStrela

/-! ## One entry -/

variable {sys} {iter : AccelIter} {held : Held} {e : DirEntry} {es : List DirEntry} {id : ℕ}

/-- The buffer is longer than the name looked for, so that no other name is cut down to it. -/
theorem cString_copyName (name : CString) :
    cString (copyName name.chars) = strelaDrmName ↔ name.chars = strelaDrmName := by
  have hread : cString (copyName name.chars) = name.chars.take 15 := by
    have hall : ∀ c ∈ name.chars.take 15, decide (c ≠ nul) = true := by
      intro c hc
      have hne : c ≠ nul := by
        rintro rfl
        exact name.no_nul (List.mem_of_mem_take hc)
      simpa using hne
    have hlen : (name.chars.take 15).length < 16 := by
      rw [List.length_take]
      omega
    rw [cString, copyName, List.takeWhile_append_of_pos hall, List.drop_replicate]
    obtain ⟨n, hn⟩ := Nat.exists_eq_succ_of_ne_zero (Nat.sub_pos_of_lt hlen).ne'
    rw [hn, List.replicate_succ, List.takeWhile_cons_of_neg (by simp), List.append_nil]
  rw [hread]
  constructor
  · intro h
    have hlen := congrArg List.length h
    rw [List.length_take] at hlen
    have hshort : name.chars.length ≤ 15 := by
      by_contra hlong
      rw [min_eq_left (by omega)] at hlen
      cases hlen
    rwa [List.take_of_length_le hshort] at h
  · intro h
    rw [h]
    rfl

theorem accelOpenat_cases (sys : System A) (e : DirEntry) (held : Held) :
    accelOpenat sys e held = (.none, held) ∧ e.isStrela = false ∨
    ∃ name, accelOpenat sys e held =
        (⟨sys.nextFd held, name⟩, held.take (.fd (sys.nextFd held)) (.accel e)) ∧
      (cString name = strelaDrmName ↔ e.isStrela = true) := by
  unfold accelOpenat DirEntry.isStrela
  cases e.opened with
  | error => exact .inl ⟨rfl, rfl⟩
  | ok =>
    cases e.version with
    | error =>
      refine .inl ⟨?_, rfl⟩
      dsimp only
      rw [Handles.give_take (sys.fd_free held)]
    | ok name =>
      refine .inr ⟨copyName name.chars, rfl, ?_⟩
      rw [cString_copyName]
      simp

theorem nextFd_ne (sys : System A) (held : Held) : sys.nextFd held ≠ -1 := by
  have h := sys.fd_nonneg held
  omega

/-! ## The iterator -/

/-- The iterator stands at the first of the entries that are left, with the directory open. Past the
last one the directory is closed. -/
inductive Iterates (id : ℕ) (held : Held) : AccelIter → Held → List DirEntry → Prop
  | closed {iter : AccelIter} : iter.valid = false → Iterates id held iter held []
  | entry {iter : AccelIter} {d : DirStream} {e : DirEntry} :
    iter.valid = true → iter.dir = some d → d.id = id → iter.ent = some e →
    Iterates id held iter (held.take (.dir id) .listing) (e :: visible d.left)

theorem visible_of_readVisible_none (h : readVisible es = none) : visible es = [] := by
  induction es with
  | nil => rfl
  | cons e es ih =>
    rw [readVisible] at h
    split at h
    · rename_i he
      rw [visible, List.filter_cons_of_neg (by simp [he])]
      exact ih h
    · cases h

theorem visible_of_readVisible_some {left : List DirEntry} (h : readVisible es = some (e, left)) :
    visible es = e :: visible left := by
  induction es with
  | nil => cases h
  | cons f es ih =>
    rw [readVisible] at h
    split at h
    · rename_i hf
      rw [visible, List.filter_cons_of_neg (by simp [hf])]
      exact ih h
    · rename_i hf
      obtain ⟨rfl, rfl⟩ := Prod.mk.inj (Option.some.inj h)
      exact List.filter_cons_of_pos (by simpa using hf)

theorem accelIterNext_iterates {d : DirStream} (hfree : held.Free (.dir id))
    (hd : iter.dir = some d) (hid : d.id = id) :
    Iterates id held (accelIterNext iter (held.take (.dir id) .listing)).1
      (accelIterNext iter (held.take (.dir id) .listing)).2 (visible d.left) := by
  subst hid
  cases hr : readVisible d.left with
  | none =>
    rw [visible_of_readVisible_none hr]
    simp only [accelIterNext, accelIterClose, hd, hr, Handles.give_take hfree]
    exact .closed rfl
  | some p =>
    rw [visible_of_readVisible_some hr]
    simp only [accelIterNext, hd, hr]
    exact .entry (d := { d with left := p.2 }) rfl rfl rfl rfl

theorem accelIterMake_iterates (sys : System A) (held : Held) :
    Iterates (sys.nextDir held) held (accelIterMake sys held).1 (accelIterMake sys held).2
      (visible sys.entries) := by
  unfold accelIterMake System.entries
  cases sys.opendir with
  | error e => exact .closed rfl
  | ok p =>
    exact accelIterNext_iterates (d := ⟨sys.nextDir held, p.1, p.2⟩) (sys.dir_free held) rfl rfl

/-! ## The loops -/

theorem countLoop_eq (sys : System A) {held' : Held} (hfree : held.Free (.dir id))
    (hr : Iterates id held iter held' es) (count : U32) : ∃ iter',
      countLoop sys iter held' count =
        (count + BitVec.ofNat 32 (es.filter DirEntry.isStrela).length, iter', held) := by
  induction es generalizing iter held' count with
  | nil =>
    cases hr with
    | closed hv =>
      refine ⟨iter, ?_⟩
      rw [countLoop, dif_neg (by simp [hv])]
      simp
  | cons e es ih =>
    cases hr with
    | entry hv hd hid he =>
      have hnext := accelIterNext_iterates hfree hd hid
      rw [countLoop, dif_pos hv]
      simp only [openEntry, he, List.filter_cons]
      rcases accelOpenat_cases sys e (held.take (.dir id) .listing) with
        ⟨hopen, hs⟩ | ⟨name, hopen, hs⟩
      · obtain ⟨iter', hloop⟩ := ih hnext count
        refine ⟨iter', ?_⟩
        rw [hopen, hs]
        exact hloop
      · simp only [hopen, ne_eq, nextFd_ne, not_false_eq_true, if_true,
          Handles.give_take (sys.fd_free _)]
        by_cases hname : cString name = strelaDrmName
        · obtain ⟨iter', hloop⟩ := ih hnext (count + 1)
          refine ⟨iter', ?_⟩
          rw [if_pos hname, hs.mp hname, hloop, if_pos rfl, List.length_cons, BitVec.ofNat_add,
            BitVec.add_assoc, BitVec.add_comm 1]
          rfl
        · obtain ⟨iter', hloop⟩ := ih hnext count
          refine ⟨iter', ?_⟩
          rw [if_neg hname, if_neg (fun h => hname (hs.mpr h)), hloop]

/-- What opening one of the devices leaves: its descriptor, or nothing. -/
def System.opens (sys : System A) (held : Held) : Option DirEntry → ℤ × Held
  | none => (-1, held)
  | some e =>
    let fd := sys.nextFd (held.take (.dir (sys.nextDir held)) .listing)
    (fd, held.take (.fd fd) (.accel e))

/-- All entries before the device looked for are closed again, and so is the directory. -/
theorem findLoop_eq {held' : Held} {whichStrela : U32}
    (hr : Iterates (sys.nextDir held) held iter held' es) {count : U32}
    (hle : count.toNat ≤ whichStrela.toNat) :
    findLoop sys whichStrela iter held' count =
      sys.opens held (es.filter DirEntry.isStrela)[whichStrela.toNat - count.toNat]? := by
  have hfree := sys.dir_free held
  induction es generalizing iter held' count with
  | nil =>
    cases hr with
    | closed hv =>
      rw [findLoop, dif_neg (by simp [hv])]
      rfl
  | cons e es ih =>
    cases hr with
    | entry hv hd hid he =>
      have hnext := accelIterNext_iterates hfree hd hid
      rw [findLoop, dif_pos hv]
      simp only [openEntry, he, List.filter_cons]
      rcases accelOpenat_cases sys e
        (held.take (.dir (sys.nextDir held)) .listing) with ⟨hopen, hs⟩ | ⟨name, hopen, hs⟩
      · rw [hopen, hs]
        exact ih hnext hle
      · simp only [hopen, ne_eq, nextFd_ne, not_false_eq_true, if_true,
          Handles.give_take (sys.fd_free _)]
        by_cases hname : cString name = strelaDrmName
        · rw [if_pos hname, hs.mp hname, if_pos rfl]
          by_cases hc : count = whichStrela
          · subst hc
            rw [if_pos rfl, Nat.sub_self, List.getElem?_cons_zero]
            simp only [System.opens, accelIterClose, hd, hid]
            rw [Handles.give_take_of_ne (by simp), Handles.give_take hfree]
          · -- The counter does not overflow before it gets there.
            have hlt : count.toNat < whichStrela.toNat :=
              lt_of_le_of_ne hle fun h => hc (BitVec.eq_of_toNat_eq h)
            have hsucc : (count + 1).toNat = count.toNat + 1 := by
              have hw := whichStrela.isLt
              rw [BitVec.toNat_add]
              exact Nat.mod_eq_of_lt (by change count.toNat + 1 < _; omega)
            have hindex : whichStrela.toNat - count.toNat =
                whichStrela.toNat - (count + 1).toNat + 1 := by omega
            rw [if_neg hc, hindex, List.getElem?_cons_succ]
            exact ih hnext (by omega)
        · rw [if_neg hname, if_neg (fun h => hname (hs.mpr h))]
          exact ih hnext hle

/-! ## Counting and finding agree -/

/-- Counting counts the devices, up to the range of the counter, and leaves nothing open. -/
theorem strelaDevCount_eq (sys : System A) (held : Held) : ∃ r,
    strelaDevCount sys held = ((r, BitVec.ofNat 32 sys.devices.length), held) := by
  obtain ⟨iter, hloop⟩ := countLoop_eq sys (sys.dir_free held)
    (accelIterMake_iterates sys held) 0
  rw [strelaDevCount, hloop]
  refine ⟨if iter.myerrno ≠ 0 then -1 else 0, ?_⟩
  dsimp only [System.devices]
  rw [show (0 : U32) = 0#32 from rfl, BitVec.zero_add]

theorem findDevice_eq (sys : System A) (whichStrela : U32) (held : Held) :
    findDevice sys whichStrela held = sys.opens held sys.devices[whichStrela.toNat]? := by
  exact findLoop_eq (accelIterMake_iterates sys held) (Nat.zero_le _)

theorem findDevice_found_iff (sys : System A) (whichStrela : U32) (held : Held) :
    (findDevice sys whichStrela held).1 ≠ -1 ↔ whichStrela.toNat < sys.devices.length := by
  rw [findDevice_eq]
  cases hdev : sys.devices[whichStrela.toNat]? with
  | none => simpa [System.opens] using List.getElem?_eq_none_iff.mp hdev
  | some e =>
    obtain ⟨hlt, -⟩ := List.getElem?_eq_some_iff.mp hdev
    exact iff_of_true (nextFd_ne sys _) hlt

end Strela.Lib
