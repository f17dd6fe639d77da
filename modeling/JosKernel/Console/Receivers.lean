import JosKernel.Console.Cursor
import JosKernel.Console.Streams
import JosKernel.Format.Parts

/-!
# What the devices receive

`serial_init` and `cons_init` of `kern/console.c`, and the two devices at the other ends of the
lines: a serial port whose first two registers are a divisor latch while a bit of the line
control register is set, and a printer that takes the byte on its data lines when the strobe
goes on.

Principal result: `console_received` — from any state of the hardware, behind `cons_init` and
whatever is printed then, the serial port runs with the settings of `serial_init` and has
transmitted the characters printed, and the printer has taken them, each one once.
-/

set_option autoImplicit false

namespace Jos

/-! ## The serial port -/

def COM_RX : Nat := 0
def COM_DLL : Nat := 0
def COM_DLM : Nat := 1
def COM_IER : Nat := 1
def COM_IER_RDI : Byte := 0x01
def COM_IIR : Nat := 2
def COM_FCR : Nat := 2
def COM_LCR : Nat := 3
def COM_LCR_DLAB : Byte := 0x80
def COM_LCR_WLEN8 : Byte := 0x03
def COM_MCR : Nat := 4

section

variable {δ : Type} (d : Device δ)

/-- `serial_init`; the result is `serial_exists`. -/
def serialInit (io : Io δ) : Bool × Io δ :=
  let io := outb d (COM1 + COM_FCR) 0 io
  let io := outb d (COM1 + COM_LCR) COM_LCR_DLAB io
  let io := outb d (COM1 + COM_DLL) (BitVec.ofNat 8 (115200 / 9600)) io
  let io := outb d (COM1 + COM_DLM) 0 io
  let io := outb d (COM1 + COM_LCR) (COM_LCR_WLEN8 &&& ~~~COM_LCR_DLAB) io
  let io := outb d (COM1 + COM_MCR) 0 io
  let io := outb d (COM1 + COM_IER) COM_IER_RDI io
  let (status, io) := inb d (COM1 + COM_LSR) io
  let io := (inb d (COM1 + COM_IIR) io).2
  let io := (inb d (COM1 + COM_RX) io).2
  (status != 0xFF, io)

/-- `cons_init`; `kbd_init` does nothing. -/
def consInit (v : Video) (io : Io δ) : Except Fault (Bool × Console δ) := do
  let m := cgaInit d v io
  let (serialExists, io) := serialInit d m.io
  let m := { m with io }
  if !serialExists then
    let (m, _) ← vcprintf d (CStr.ofString "Serial port does not exist!\n") [] m
    .ok (serialExists, m)
  else .ok (serialExists, m)

end

/-- The registers of the serial port, and what it has transmitted. -/
structure Uart where
  divisorLow : Byte
  divisorHigh : Byte
  interruptEnable : Byte
  fifoControl : Byte
  lineControl : Byte
  modemControl : Byte
  transmitted : List Byte

/-- The divisor latch is accessible. -/
def Uart.dlab (u : Uart) : Bool := u.lineControl &&& COM_LCR_DLAB ≠ 0

def Uart.outb (u : Uart) (w : Nat × Byte) : Uart :=
  if w.1 = COM1 then
    if u.dlab then { u with divisorLow := w.2 }
    else { u with transmitted := u.transmitted ++ [w.2] }
  else if w.1 = COM1 + 1 then
    if u.dlab then { u with divisorHigh := w.2 } else { u with interruptEnable := w.2 }
  else if w.1 = COM1 + 2 then { u with fifoControl := w.2 }
  else if w.1 = COM1 + 3 then { u with lineControl := w.2 }
  else if w.1 = COM1 + 4 then { u with modemControl := w.2 }
  else u

/-- 9600 baud, 8 data bits, 1 stop bit, no parity; interrupts for received data; no FIFO. -/
def Uart.set (sent : List Byte) : Uart where
  divisorLow := 12
  divisorHigh := 0
  interruptEnable := 1
  fifoControl := 0
  lineControl := 3
  modemControl := 0
  transmitted := sent

/-! ## The printer -/

/-- The data lines, the strobe, and what was taken. -/
structure Printer where
  data : Byte
  strobe : Bool
  taken : List Byte

def Printer.outb (p : Printer) (w : Nat × Byte) : Printer :=
  if w.1 = LPT then { p with data := w.2 }
  else if w.1 = LPT + 2 then
    { p with
      strobe := w.2 &&& 1 ≠ 0
      taken := if !p.strobe ∧ w.2 &&& 1 ≠ 0 then p.taken ++ [p.data] else p.taken }
  else p

/-- The strobe is off and the bytes were taken; before the first byte the strobe is as it was
    found, and with the strobe on the first byte is not taken. -/
def Printer.Took (p₀ : Printer) (p : Printer) (bs : List Byte) : Prop :=
  p.taken = p₀.taken ++ bs.drop p₀.strobe.toNat ∧ p.strobe = (p₀.strobe && bs.isEmpty)

/-! ## A receiver at the end of the output drivers -/

/-- What a receiver has to keep: `Rep r bs` says that it has got the bytes `bs`.  The two drivers
    hand it the low byte of a character, and it does not listen to the display. -/
structure Receives {ρ : Type} (step : ρ → Nat × Byte → ρ) (Rep : ρ → List Byte → Prop) :
    Prop where
  byte : ∀ r bs b, Rep r bs →
    Rep ([(COM1 + COM_TX, b), (LPT, b), (LPT + 2, 0x0d), (LPT + 2, 0x08)].foldl step r) (bs ++ [b])
  display : ∀ r bs (addr6845 : Adapter) (v : Byte), Rep r bs →
    Rep (step r (addr6845.port, v)) bs ∧ Rep (step r (addr6845.port + 1, v)) bs

section

variable {ρ δ : Type} {step : ρ → Nat × Byte → ρ} {Rep : ρ → List Byte → Prop} {r : ρ}
  {bs : List Byte} (d : Device δ)

theorem Receives.moveCursor (h : Receives step Rep) (s : Crt) {io : Io δ}
    (hrep : Rep (io.outs.foldl step r) bs) :
    Rep ((Jos.moveCursor d s io).outs.foldl step r) bs := by
  rw [moveCursor_outs, List.foldl_append]
  have h1 := (h.display _ _ s.addr6845 14 hrep).1
  have h2 := (h.display _ _ s.addr6845 (BitVec.ofNat 8 (s.pos >>> 8)) h1).2
  have h3 := (h.display _ _ s.addr6845 15 h2).1
  exact (h.display _ _ s.addr6845 (BitVec.ofNat 8 s.pos) h3).2

theorem Receives.drivers (h : Receives step Rep) (c : Word) {io : Io δ}
    (hrep : Rep (io.outs.foldl step r) bs) :
    Rep ((lptPutc d c (serialPutc d c io)).outs.foldl step r) (bs ++ [c.setWidth 8]) := by
  rw [lptPutc_outs, serialPutc_outs, List.append_assoc, List.foldl_append]
  exact h.byte _ _ _ hrep

theorem Receives.putc_of_ne_tab (h : Receives step Rep) {c : Word} (hc : c &&& 0xff ≠ 0x09)
    {m : Console δ} (hrep : Rep (m.io.outs.foldl step r) bs) :
    Rep ((consPutc d c m).io.outs.foldl step r) (bs ++ [c.setWidth 8]) := by
  rw [consPutc, cgaPutc_of_ne_tab d hc]
  exact h.moveCursor d _ (h.drivers d c hrep)

/-- A tab comes with its five blanks. -/
theorem Receives.putc_of_tab (h : Receives step Rep) {c : Word} (hc : c &&& 0xff = 0x09)
    {m : Console δ} (hrep : Rep (m.io.outs.foldl step r) bs) :
    Rep ((consPutc d c m).io.outs.foldl step r)
      (bs ++ c.setWidth 8 :: List.replicate 5 0x20) := by
  have hsp : (0x20 : Word) &&& 0xff ≠ 0x09 := by decide
  rw [consPutc, cgaPutc_of_tab d hc]
  refine h.moveCursor d _ ?_
  have h0 : Rep ((lptPutc d c (serialPutc d c m.io)).outs.foldl step r) (bs ++ [c.setWidth 8]) :=
    h.drivers d c hrep
  have h1 := @Receives.putc_of_ne_tab _ _ _ _ r _ d h _ hsp
    ⟨lptPutc d c (serialPutc d c m.io), m.crt⟩ h0
  have h5 := h.putc_of_ne_tab d hsp (h.putc_of_ne_tab d hsp
    (h.putc_of_ne_tab d hsp (h.putc_of_ne_tab d hsp h1)))
  simp only [List.append_assoc] at h5
  exact h5

theorem Receives.cputchar (h : Receives step Rep) (c : Int) {m : Console δ}
    (hrep : Rep (m.io.outs.foldl step r) bs) :
    Rep ((Jos.cputchar d c m).io.outs.foldl step r) (bs ++ expansion c) := by
  unfold Jos.cputchar expansion
  split
  · rename_i hc
    have htab := h.putc_of_tab d ((ofInt_is_tab c).2 hc) hrep
    rwa [setWidth_ofInt] at htab
  · rename_i hc
    have hchar := h.putc_of_ne_tab d (fun htab => hc ((ofInt_is_tab c).1 htab)) hrep
    rwa [setWidth_ofInt] at hchar

/-- **A receiver gets what is printed.** -/
theorem Receives.emit (h : Receives step Rep) : ∀ (cs : List Int) {bs : List Byte} {m : Console δ},
    Rep (m.io.outs.foldl step r) bs →
    Rep ((Jos.emit (Jos.cputchar d) cs m).io.outs.foldl step r) (bs ++ cs.flatMap expansion)
  | [], bs, m, hrep => (List.append_nil bs).symm ▸ hrep
  | c :: cs, bs, m, hrep => by
    rw [List.flatMap_cons, ← List.append_assoc, emit_cons]
    exact Receives.emit h cs (h.cputchar d c hrep)

end

theorem uart_receives (sent : List Byte) :
    Receives Uart.outb fun u bs => u = Uart.set (sent ++ bs) where
  byte _ bs b h := by
    rw [h]
    simp [Uart.outb, Uart.set, Uart.dlab, COM1, COM_TX, COM_LCR_DLAB, LPT]
  display _ bs addr6845 v h := by
    rw [h]
    cases addr6845 <;> exact ⟨rfl, rfl⟩

theorem printer_receives (p₀ : Printer) : Receives Printer.outb p₀.Took where
  byte p bs b h := by
    obtain ⟨htaken, hstrobe⟩ := h
    have hoff : (b :: bs).isEmpty = false := rfl
    cases hs : p₀.strobe with
    | false =>
      rw [hs, Bool.false_and] at hstrobe
      simp [Printer.Took, Printer.outb, LPT, COM1, COM_TX, hs, hstrobe, htaken]
    | true =>
      rw [hs, Bool.true_and] at hstrobe
      cases bs with
      | nil => simp [Printer.Took, Printer.outb, LPT, COM1, COM_TX, hs, hstrobe, htaken]
      | cons c bs => simp [Printer.Took, Printer.outb, LPT, COM1, COM_TX, hs, hstrobe, htaken]
  display p bs addr6845 v h := by
    cases addr6845 <;> exact ⟨h, h⟩

/-! ## From any state of the hardware -/

/-- The message of `cons_init`. -/
def serialText (serialExists : Bool) : List Int :=
  if serialExists then [] else plain (CStr.ofString "Serial port does not exist!\n").bytes

section

variable {δ : Type} (d : Device δ) (v : Video) (io : Io δ)

/-- The console before anything is printed. -/
def Console.initial : Console δ :=
  { cgaInit d v io with io := (serialInit d (cgaInit d v io).io).2 }

/-- The line status is not `0xFF`. -/
def serialFound : Bool := (serialInit d (cgaInit d v io).io).1

theorem consInit_spec : consInit d v io = .ok (serialFound d v io,
    emit (cputchar d) (serialText (serialFound d v io)) (Console.initial d v io)) := by
  have htext : output (CStr.ofString "Serial port does not exist!\n") [] = .ok
      (plain (CStr.ofString "Serial port does not exist!\n").bytes) :=
    output_text (by decide +kernel) []
  unfold consInit
  cases hfound : serialFound d v io with
  | true =>
    have hfound : (serialInit d (cgaInit d v io).io).1 = true := hfound
    simp only [hfound]
    rfl
  | false =>
    have hfound : (serialInit d (cgaInit d v io).io).1 = false := hfound
    simp only [hfound, vcprintf_bind d htext]
    rfl

theorem cgaInit_outs : (cgaInit d v io).io.outs =
    io.outs ++ [(v.adapter.port, 14), (v.adapter.port, 15)] := by
  simp [cgaInit, cursorLocation]

theorem serialInit_outs : (serialInit d io).2.outs = io.outs ++
    [(COM1 + COM_FCR, 0), (COM1 + COM_LCR, COM_LCR_DLAB), (COM1 + COM_DLL, 12), (COM1 + COM_DLM, 0),
      (COM1 + COM_LCR, 3), (COM1 + COM_MCR, 0), (COM1 + COM_IER, COM_IER_RDI)] := by
  have hline : COM_LCR_WLEN8 &&& ~~~COM_LCR_DLAB = 3 := by decide
  simp [serialInit, hline]

/-- Whatever the port was set to, it is set, and no byte is transmitted. -/
theorem initial_uart (u : Uart) :
    (Console.initial d v io).io.outs.foldl Uart.outb u =
      Uart.set (io.outs.foldl Uart.outb u).transmitted := by
  show (serialInit d (cgaInit d v io).io).2.outs.foldl Uart.outb u = _
  rw [serialInit_outs, cgaInit_outs, List.append_assoc, List.foldl_append]
  cases v.adapter <;>
    simp [Uart.outb, Uart.set, Uart.dlab, Adapter.port, MONO_BASE, CGA_BASE, COM1, COM_FCR, COM_LCR,
      COM_LCR_DLAB, COM_DLL, COM_DLM, COM_MCR, COM_IER, COM_IER_RDI]

theorem initial_printer (p : Printer) :
    (Console.initial d v io).io.outs.foldl Printer.outb p = io.outs.foldl Printer.outb p := by
  show (serialInit d (cgaInit d v io).io).2.outs.foldl Printer.outb p = _
  rw [serialInit_outs, cgaInit_outs, List.append_assoc, List.foldl_append]
  cases v.adapter <;> rfl

/-- **What the devices have received**, from any state of the hardware: behind `cons_init` and any
    characters printed then, the serial port is set and has transmitted every character, and the
    printer has taken them all, but for the first one where the strobe was on before. -/
theorem console_received (cs : List Int) (u : Uart) (p : Printer) :
    ∃ m, consInit d v io = .ok (serialFound d v io, m) ∧
      let m' := emit (cputchar d) cs m
      let text := (serialText (serialFound d v io) ++ cs).flatMap expansion
      m'.io.outs.foldl Uart.outb u =
          Uart.set ((io.outs.foldl Uart.outb u).transmitted ++ text) ∧
        (m'.io.outs.foldl Printer.outb p).taken =
          (io.outs.foldl Printer.outb p).taken ++
            text.drop (io.outs.foldl Printer.outb p).strobe.toNat := by
  refine ⟨_, consInit_spec d v io, ?_, ?_⟩
  · rw [← emit_append]
    have hstart := initial_uart d v io u
    rw [← List.append_nil (io.outs.foldl Uart.outb u).transmitted] at hstart
    exact (uart_receives _).emit d _ hstart
  · rw [← emit_append]
    have hstart : (io.outs.foldl Printer.outb p).Took
        ((Console.initial d v io).io.outs.foldl Printer.outb p) [] := by
      rw [initial_printer]
      simp [Printer.Took]
    exact ((printer_receives _).emit d _ hstart).1

end

end Jos
