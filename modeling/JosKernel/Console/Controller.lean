import JosKernel.Console.Keyboard
import JosKernel.Format.Text

/-!
# The keyboard controller

`i8042 d` is the hardware with a keyboard controller in it: a FIFO of bytes, each from the
keyboard or from the mouse, behind the ports `KBSTATP` and `KBDATAP`; `d` answers every other
port.  The status port shows `KBS_DIB` while a byte is pending and `KBS_TERR` while that byte
is from the mouse.  Only a read of `KBDATAP` removes a byte.

Principal results: `kbdProcData_key`, `kbdProcData_mouse`, `kbdProcData_empty` — what one call
of `kbd_proc_data` does for each state of the FIFO; a mouse byte stays in it.
-/

set_option autoImplicit false

namespace Jos

/-- A byte in the controller. -/
structure Scan where
  mouse : Bool
  data : Byte
  deriving DecidableEq, Repr

/-- A byte from the keyboard. -/
def Scan.key (data : Byte) : Scan := ⟨false, data⟩

/-- The value of the status port. -/
def statusOf : List Scan → Byte
  | [] => 0
  | s :: _ => if s.mouse then KBS_DIB ||| KBS_TERR else KBS_DIB

/-- The value of the data port. -/
def dataOf : List Scan → Byte
  | [] => 0
  | s :: _ => s.data

variable {ε : Type} (d : Device ε)

/-- The hardware: the controller's FIFO, and `d` behind the other ports. -/
def i8042 : Device (List Scan × ε) where
  inb port s :=
    if port = KBSTATP then (statusOf s.1, s)
    else if port = KBDATAP then (dataOf s.1, (s.1.tail, s.2))
    else
      let (data, e) := d.inb port s.2
      (data, (s.1, e))
  outb port data s := (s.1, d.outb port data s.2)

/-- The bytes that are pending in the controller. -/
def Console.pending (m : Console (List Scan × ε)) : List Scan := m.io.dev.1

/-! ## The drivers of the output devices leave the controller alone -/

theorem inb_pending {port : Nat} (hs : port ≠ KBSTATP) (hd : port ≠ KBDATAP)
    (io : Io (List Scan × ε)) : (inb (i8042 d) port io).2.dev.1 = io.dev.1 := by
  simp [inb, i8042, hs, hd]

@[simp] theorem outb_pending (port : Nat) (data : Byte) (io : Io (List Scan × ε)) :
    (outb (i8042 d) port data io).dev.1 = io.dev.1 := rfl

@[simp] theorem delay_pending (io : Io (List Scan × ε)) :
    (delay (i8042 d) io).dev.1 = io.dev.1 := by
  have h : ∀ io, (inb (i8042 d) 0x84 io).2.dev.1 = io.dev.1 :=
    inb_pending d (by decide) (by decide)
  simp [delay, h]

theorem waitReady_pending {port : Nat} (hs : port ≠ KBSTATP) (hd : port ≠ KBDATAP) (mask : Byte) :
    ∀ (tries : Nat) (io : Io (List Scan × ε)),
      (waitReady (i8042 d) port mask tries io).dev.1 = io.dev.1
  | 0, io => inb_pending d hs hd io
  | tries + 1, io => by
    unfold waitReady
    simp only
    split
    · exact inb_pending d hs hd io
    · rw [waitReady_pending hs hd mask tries, delay_pending, inb_pending d hs hd]

theorem drivers_pending (c : Word) (io : Io (List Scan × ε)) :
    (lptPutc (i8042 d) c (serialPutc (i8042 d) c io)).dev.1 = io.dev.1 := by
  unfold lptPutc serialPutc
  simp only [outb_pending]
  rw [waitReady_pending d (by decide) (by decide), outb_pending,
    waitReady_pending d (by decide) (by decide)]

theorem consPutc_pending_of_ne_tab {c : Word} (h : c &&& 0xff ≠ 0x09)
    (m : Console (List Scan × ε)) : (consPutc (i8042 d) c m).pending = m.pending := by
  rw [consPutc, cgaPutc_of_ne_tab _ h]
  exact drivers_pending d c m.io

theorem consPutc_pending (c : Word) (m : Console (List Scan × ε)) :
    (consPutc (i8042 d) c m).pending = m.pending := by
  by_cases h : c &&& 0xff = 0x09
  · have hsp : (0x20 : Word) &&& 0xff ≠ 0x09 := by decide
    have hfinish : ∀ m : Console (List Scan × ε), (cgaFinish (i8042 d) m).pending = m.pending :=
      fun _ => rfl
    rw [consPutc, cgaPutc_of_tab _ h, hfinish]
    simp only [consPutc_pending_of_ne_tab d hsp]
    exact drivers_pending d c m.io
  · exact consPutc_pending_of_ne_tab d h m

theorem emit_pending : ∀ (t : List Int) (m : Console (List Scan × ε)),
    (emit (cputchar (i8042 d)) t m).pending = m.pending
  | [], _ => rfl
  | c :: t, m => by
    rw [emit_cons, emit_pending t]
    exact consPutc_pending d _ m

/-- The message and the reset pulse of Ctrl-Alt-Del. -/
theorem reboot_pending (m : Console (List Scan × ε)) :
    ∃ m', reboot (i8042 d) m = .ok m' ∧ m'.pending = m.pending := by
  have htext := @output_text (CStr.ofString "Rebooting!\n") (by decide) []
  have hprint := vcprintf_of_output (i8042 d) htext m
  refine ⟨_, bind_ok.mpr ⟨_, hprint, rfl⟩, ?_⟩
  exact emit_pending d _ m

/-! ## One call of `kbd_proc_data` -/

/-- The keyboard with its controller. -/
abbrev Typing (ε : Type) := Keyboard (List Scan × ε)

variable {d}

/-- A read of the status port changes nothing. -/
theorem Keyboard.inb_status (k : Typing ε) :
    k.inb (i8042 d) KBSTATP = (statusOf k.con.pending, k) := rfl

theorem Keyboard.inb_data (k : Typing ε) :
    (k.inb (i8042 d) KBDATAP).1 = dataOf k.con.pending ∧
      (k.inb (i8042 d) KBDATAP).2.con.pending = k.con.pending.tail ∧
      (k.inb (i8042 d) KBDATAP).2.shift = k.shift := ⟨rfl, rfl, rfl⟩

theorem kbdProcData_empty {k : Typing ε} (h : k.con.pending = []) :
    kbdProcData (i8042 d) k = .ok (-1, k) := by
  have hstat : statusOf k.con.pending &&& KBS_DIB = 0 := by
    rw [h]
    decide
  unfold kbdProcData
  rw [Keyboard.inb_status]
  exact if_pos hstat

/-- **A mouse byte reads as "no data" and stays where it is.** -/
theorem kbdProcData_mouse {k : Typing ε} {s : Scan} {rest : List Scan}
    (h : k.con.pending = s :: rest) (hs : s.mouse = true) :
    kbdProcData (i8042 d) k = .ok (-1, k) := by
  have hstat : statusOf k.con.pending = KBS_DIB ||| KBS_TERR := by
    rw [h, statusOf, if_pos hs]
  unfold kbdProcData
  rw [Keyboard.inb_status, hstat]
  rfl

/-- **A keyboard byte is taken out and decoded.** -/
theorem kbdProcData_key {k : Typing ε} {s : Scan} {rest : List Scan}
    (h : k.con.pending = s :: rest) (hs : s.mouse = false) :
    ∃ k', kbdProcData (i8042 d) k = .ok ((kbdDecode s.data k.shift).1, k') ∧
      k'.shift = (kbdDecode s.data k.shift).2 ∧ k'.con.pending = rest := by
  have hstat : statusOf k.con.pending = KBS_DIB := by
    rw [h, statusOf, if_neg (by simp [hs])]
  have hdata : dataOf k.con.pending = s.data := by rw [h]; rfl
  obtain ⟨hread, htail, hshift⟩ := @Keyboard.inb_data ε d k
  rw [hdata] at hread
  rw [h] at htail
  unfold kbdProcData kbdDecode
  rw [Keyboard.inb_status, hstat]
  simp only [show KBS_DIB &&& KBS_DIB ≠ 0 by decide, show KBS_DIB &&& KBS_TERR = 0 by decide,
    ne_eq, not_true, if_false, hread, hshift]
  by_cases hesc : s.data = 0xE0
  · simp only [if_pos hesc]
    exact ⟨_, rfl, rfl, htail⟩
  simp only [if_neg hesc]
  by_cases hbreak : s.data &&& 0x80 = 0
  · simp only [hbreak, not_true, if_false]
    split
    · obtain ⟨m', hrun, hpending⟩ := reboot_pending d (k.inb (i8042 d) KBDATAP).2.con
      exact ⟨_, bind_ok.mpr ⟨m', hrun, rfl⟩, rfl, hpending.trans htail⟩
    · exact ⟨_, rfl, rfl, htail⟩
  · simp only [hbreak, not_false_eq_true, if_true]
    exact ⟨_, rfl, rfl, htail⟩

end Jos
