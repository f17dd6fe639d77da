import JosKernel.Boot.Main

/-!
# Waiting for the disk

The loader of `boot/main.c` with a disk that takes its time.  While the disk is not
ready it loses what is written to its registers, and what is read from port `0x1F0` is not the
sector; `waitdisk` reads the status until it is ready.

* `waitdisk_ready` — the wait ends, however long the disk needs.
* `TimedPc.readsect_eq` — a sector is read as by a disk that is always ready.
* `bootmain_any_timing` — the loader does the same for every timing of the disk.
-/

set_option autoImplicit false

namespace Jos

/-- A status for which `waitdisk` goes on. -/
abbrev NotReady := {st : Byte // st &&& 0xC0 ≠ 0x40}

/-- The machine with the statuses that the disk will show until it is ready, and those behind each
    later command. -/
structure TimedPc where
  pc : Pc
  pending : List NotReady
  delays : List (List NotReady)

/-- `inb(0x1F7)`. -/
def TimedPc.status (t : TimedPc) : Byte × TimedPc :=
  match t.pending with
  | [] => (0x40, t)
  | st :: rest => (st.val, { t with pending := rest })

/-- `waitdisk`, with a budget of status reads. -/
def waitdisk : Nat → TimedPc → Option TimedPc
  | 0, _ => none
  | polls + 1, t =>
      let (st, t) := t.status
      if st &&& 0xC0 ≠ 0x40 then waitdisk polls t else some t

section

variable (disk : Disk)

/-- `outb` to a register of the disk. -/
def TimedPc.outb (port : Nat) (data : Byte) (t : TimedPc) : TimedPc :=
  if t.pending ≠ [] then t
  else
    let t := { t with pc := { t.pc with ata := t.pc.ata.outb disk port data } }
    if port = 0x1F7 then { t with pending := t.delays.headD [], delays := t.delays.tail } else t

/-- `insl(0x1F0, addr, cnt)`; before the sector is there the bus floats. -/
def TimedPc.insl (addr cnt : Nat) (t : TimedPc) : TimedPc :=
  if t.pending ≠ [] then
    { t with pc := { t.pc with mem := writeBytes t.pc.mem addr (List.replicate (4 * cnt) 0xFF) } }
  else { t with pc := t.pc.insl addr cnt }

variable (polls : Nat)

/-- `readsect`. -/
def TimedPc.readsect (dst offset : Nat) (t : TimedPc) : Option TimedPc := do
  -- wait for disk to be ready
  let t ← waitdisk polls t
  let t := t.outb disk 0x1F2 1
  let t := t.outb disk 0x1F3 (BitVec.ofNat 8 offset)
  let t := t.outb disk 0x1F4 (BitVec.ofNat 8 (offset >>> 8))
  let t := t.outb disk 0x1F5 (BitVec.ofNat 8 (offset >>> 16))
  let t := t.outb disk 0x1F6 (BitVec.ofNat 8 (offset >>> 24 ||| 0xE0))
  let t := t.outb disk 0x1F7 0x20
  -- wait for disk to be ready
  let t ← waitdisk polls t
  some (t.insl dst (SECTSIZE / 4))

/-- `bootmain` with the waits, and the calls in it. -/
def TimedPc.readsegLoop : Nat → Nat → Nat → Nat → TimedPc → Option TimedPc :=
  readsegLoopBy fun dst offset t => t.readsect disk polls dst offset

def TimedPc.readseg : Nat → Nat → Nat → TimedPc → Option TimedPc :=
  readsegBy fun dst offset t => t.readsect disk polls dst offset

def TimedPc.loadSegments : Nat → Nat → Nat → TimedPc → Option TimedPc :=
  loadSegmentsBy (fun t => t.pc.mem) fun dst offset t => t.readsect disk polls dst offset

def TimedPc.bootmain : TimedPc → Option (TimedPc × Option Nat) :=
  bootmainBy (fun t => t.pc.mem) fun dst offset t => t.readsect disk polls dst offset

end

/-! ## One sector -/

variable {disk : Disk} {polls : Nat}

/-- The budget is enough for each wait. -/
structure TimedPc.Within (t : TimedPc) (polls : Nat) : Prop where
  pending : t.pending.length < polls
  delays : ∀ d ∈ t.delays, d.length < polls

/-- **The wait ends**, and the disk is ready. -/
theorem waitdisk_ready : ∀ (polls : Nat) (pc : Pc) (pending : List NotReady)
    (delays : List (List NotReady)), pending.length < polls →
    waitdisk polls ⟨pc, pending, delays⟩ = some ⟨pc, [], delays⟩
  | 0, _, _, _, h => absurd h (Nat.not_lt_zero _)
  | _ + 1, _, [], _, _ => rfl
  | polls + 1, pc, st :: rest, delays, h => by
    have hmore : waitdisk (polls + 1) ⟨pc, st :: rest, delays⟩ =
        waitdisk polls ⟨pc, rest, delays⟩ := if_pos st.property
    rw [hmore]
    exact waitdisk_ready polls pc rest delays (by simpa using h)

/-- **A sector is read as by a disk that is always ready.** -/
theorem TimedPc.readsect_eq {t : TimedPc} (h : t.Within polls) (dst offset : Nat) :
    t.readsect disk polls dst offset =
      some ⟨Jos.readsect disk dst offset t.pc, [], t.delays.tail⟩ := by
  obtain ⟨pc, pending, delays⟩ := t
  have hdelay : (delays.headD []).length < polls := by
    cases delays with
    | nil => exact Nat.lt_of_le_of_lt (Nat.zero_le _) h.pending
    | cons d rest => exact h.delays d List.mem_cons_self
  have hprogram : waitdisk polls
      ⟨⟨pc.mem, pc.ata.program disk offset⟩, delays.headD [], delays.tail⟩ = _ :=
    waitdisk_ready polls _ _ _ hdelay
  rw [readsect, waitdisk_ready polls pc pending delays h.pending]
  show (waitdisk polls
    ⟨⟨pc.mem, pc.ata.program disk offset⟩, delays.headD [], delays.tail⟩).bind _ = _
  rw [hprogram]
  rfl

theorem TimedPc.Within.rest {t : TimedPc} (h : t.Within polls) (pc : Pc) :
    TimedPc.Within ⟨pc, [], t.delays.tail⟩ polls :=
  ⟨Nat.lt_of_le_of_lt (Nat.zero_le _) h.pending, fun d hd => h.delays d (List.mem_of_mem_tail hd)⟩

/-! ## The loader -/

/-- A run with waits ends as the run without, and the budget stays enough. -/
structure Follows (polls : Nat) (x : Option TimedPc) (y : Option Pc) : Prop where
  same : x.map TimedPc.pc = y
  within : ∀ t, x = some t → t.Within polls

theorem Follows.refl {t : TimedPc} (h : t.Within polls) : Follows polls (some t) (some t.pc) :=
  ⟨rfl, fun _ ht => Option.some.inj ht ▸ h⟩

theorem Follows.bind {x : Option TimedPc} {y : Option Pc} (h : Follows polls x y)
    {f : TimedPc → Option TimedPc} {g : Pc → Option Pc}
    (hf : ∀ t : TimedPc, t.Within polls → Follows polls (f t) (g t.pc)) :
    Follows polls (x.bind f) (y.bind g) := by
  rw [← h.same]
  cases x with
  | none => exact ⟨rfl, nofun⟩
  | some t => exact hf t (h.within t rfl)

theorem readsect_follows {t : TimedPc} (h : t.Within polls) (dst offset : Nat) :
    Follows polls (t.readsect disk polls dst offset)
      (some (Jos.readsect disk dst offset t.pc)) := by
  rw [TimedPc.readsect_eq h]
  exact Follows.refl (h.rest _)

theorem readsegLoop_follows : ∀ (fuel pa end_pa offset : Nat) {t : TimedPc}, t.Within polls →
    Follows polls (TimedPc.readsegLoop disk polls fuel pa end_pa offset t)
      (readsegLoop disk fuel pa end_pa offset t.pc)
  | 0, _, _, _, _, _ => ⟨rfl, nofun⟩
  | fuel + 1, pa, end_pa, offset, t, h => by
    unfold TimedPc.readsegLoop readsegLoop
    rw [readsegLoopBy, readsegLoopBy]
    by_cases hlt : pa < end_pa
    · rw [if_pos hlt, if_pos hlt]
      exact (readsect_follows h pa offset).bind fun t ht => readsegLoop_follows fuel _ end_pa _ ht
    · rw [if_neg hlt, if_neg hlt]
      exact Follows.refl h

theorem readseg_follows {t : TimedPc} (h : t.Within polls) (pa count offset : Nat) :
    Follows polls (TimedPc.readseg disk polls pa count offset t)
      (readseg disk pa count offset t.pc) :=
  readsegLoop_follows _ _ _ _ h

theorem loadSegments_follows : ∀ (fuel ph eph : Nat) {t : TimedPc}, t.Within polls →
    Follows polls (TimedPc.loadSegments disk polls fuel ph eph t)
      (loadSegments disk fuel ph eph t.pc)
  | 0, _, _, _, _ => ⟨rfl, nofun⟩
  | fuel + 1, ph, eph, t, h => by
    unfold TimedPc.loadSegments loadSegments
    rw [loadSegmentsBy, loadSegmentsBy]
    by_cases hlt : ph < eph
    · rw [if_pos hlt, if_pos hlt]
      exact (readseg_follows h _ _ _).bind fun t ht => loadSegments_follows fuel _ eph ht
    · rw [if_neg hlt, if_neg hlt]
      exact Follows.refl h

theorem bootmain_follows {t : TimedPc} (h : t.Within polls) :
    (TimedPc.bootmain disk polls t).map (fun r => (r.1.pc, r.2)) = bootmain disk t.pc := by
  have hfirst := @readseg_follows disk polls t h ELFHDR (SECTSIZE * 8) 0
  unfold TimedPc.bootmain bootmain bootmainBy
  rw [← TimedPc.readseg, ← readseg, ← hfirst.same]
  cases hpage : TimedPc.readseg disk polls ELFHDR (SECTSIZE * 8) 0 t with
  | none => rfl
  | some t₁ =>
    simp only [Option.bind_eq_bind, Option.bind_some, Option.map_some]
    split
    · rfl
    · rw [← TimedPc.loadSegments, ← loadSegments,
        ← (loadSegments_follows 65536 _ _ (hfirst.within t₁ hpage)).same]
      cases TimedPc.loadSegments disk polls 65536 _ _ t₁ with
      | none => rfl
      | some t₂ => rfl

/-- Some budget is enough. -/
theorem TimedPc.exists_within (t : TimedPc) : ∃ n, ∀ polls, n ≤ polls → t.Within polls := by
  obtain ⟨pc, pending, delays⟩ := t
  have hdelays : ∃ n, ∀ d ∈ delays, d.length < n := by
    induction delays with
    | nil => exact ⟨0, nofun⟩
    | cons d rest ih =>
      obtain ⟨n, hn⟩ := ih
      refine ⟨max n (d.length + 1), fun e he => ?_⟩
      rcases List.mem_cons.mp he with rfl | he
      · omega
      · have := hn e he
        omega
  obtain ⟨n, hn⟩ := hdelays
  refine ⟨max n (pending.length + 1), fun polls hpolls => ⟨?_, fun d hd => ?_⟩⟩
  · show pending.length < polls
    omega
  · have := hn d hd
    omega

/-- **The loader does the same for every timing of the disk.** -/
theorem bootmain_any_timing (disk : Disk) (t : TimedPc) :
    ∃ n, ∀ polls, n ≤ polls →
      (TimedPc.bootmain disk polls t).map (fun r => (r.1.pc, r.2)) = bootmain disk t.pc := by
  obtain ⟨n, hn⟩ := t.exists_within
  exact ⟨n, fun polls hpolls => bootmain_follows (hn polls hpolls)⟩

end Jos
