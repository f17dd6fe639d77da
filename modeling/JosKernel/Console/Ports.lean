import JosKernel.Foundation.CInt

/-!
# I/O ports, the serial port and the parallel port

`inc/x86.h` `inb` and `outb` over an arbitrary device, and the output halves of the serial
and parallel drivers of `kern/console.c`.  A `Device` answers port reads and absorbs port
writes; nothing is assumed about its answers.  `Io.outs` records every `outb`, in order.

Principal result: `serialPutc_outs` and `lptPutc_outs` — the bounded wait for a ready device
writes to no port, so each driver adds exactly its own writes to the record.
-/

set_option autoImplicit false

namespace Jos

/-- The hardware behind the I/O ports. -/
structure Device (δ : Type) where
  inb : Nat → δ → Byte × δ
  outb : Nat → Byte → δ → δ

/-- Hardware that reports every status bit as set. -/
def readyDevice : Device Unit := ⟨fun _ _ => (0xff, ()), fun _ _ _ => ()⟩

/-- The state of the hardware and the record of the writes to its ports. -/
structure Io (δ : Type) where
  dev : δ
  outs : List (Nat × Byte)

variable {δ : Type} (d : Device δ)

def inb (port : Nat) (io : Io δ) : Byte × Io δ :=
  let (data, dev) := d.inb port io.dev
  (data, { io with dev })

def outb (port : Nat) (data : Byte) (io : Io δ) : Io δ :=
  { dev := d.outb port data io.dev, outs := io.outs ++ [(port, data)] }

/-- `delay`: four reads of port `0x84`. -/
def delay (io : Io δ) : Io δ :=
  let io := (inb d 0x84 io).2
  let io := (inb d 0x84 io).2
  let io := (inb d 0x84 io).2
  (inb d 0x84 io).2

/-- `for (i = 0; !(inb(port) & mask) && i < 12800; i++) delay();` with `tries = 12800 - i`. -/
def waitReady (port : Nat) (mask : Byte) : Nat → Io δ → Io δ
  | 0, io => (inb d port io).2
  | tries + 1, io =>
      let (status, io) := inb d port io
      if status &&& mask ≠ 0 then io else waitReady port mask tries (delay d io)

def COM1 : Nat := 0x3F8
def COM_TX : Nat := 0
def COM_LSR : Nat := 5
def COM_LSR_TXRDY : Byte := 0x20

/-- `serial_putc`. -/
def serialPutc (c : Word) (io : Io δ) : Io δ :=
  outb d (COM1 + COM_TX) (c.setWidth 8) (waitReady d (COM1 + COM_LSR) COM_LSR_TXRDY 12800 io)

/-- The data port of the printer. -/
def LPT : Nat := 0x378

/-- `lpt_putc`. -/
def lptPutc (c : Word) (io : Io δ) : Io δ :=
  let io := waitReady d (LPT + 1) 0x80 12800 io
  let io := outb d (LPT + 0) (c.setWidth 8) io
  let io := outb d (LPT + 2) (0x08 ||| 0x04 ||| 0x01) io
  outb d (LPT + 2) 0x08 io

@[simp] theorem inb_outs (port : Nat) (io : Io δ) : (inb d port io).2.outs = io.outs := rfl

@[simp] theorem outb_outs (port : Nat) (data : Byte) (io : Io δ) :
    (outb d port data io).outs = io.outs ++ [(port, data)] := rfl

@[simp] theorem delay_outs (io : Io δ) : (delay d io).outs = io.outs := rfl

@[simp] theorem waitReady_outs (port : Nat) (mask : Byte) :
    ∀ (tries : Nat) (io : Io δ), (waitReady d port mask tries io).outs = io.outs
  | 0, _ => rfl
  | tries + 1, io => by
    unfold waitReady
    simp only
    split
    · rfl
    · rw [waitReady_outs port mask tries, delay_outs, inb_outs]

/-- `serial_putc` writes one byte, whatever the line status says. -/
theorem serialPutc_outs (c : Word) (io : Io δ) :
    (serialPutc d c io).outs = io.outs ++ [(COM1 + COM_TX, c.setWidth 8)] := by
  simp [serialPutc]

/-- `lpt_putc` writes one data byte and the two control bytes of the strobe. -/
theorem lptPutc_outs (c : Word) (io : Io δ) :
    (lptPutc d c io).outs =
      io.outs ++ [(LPT, c.setWidth 8), (LPT + 2, 0x0d), (LPT + 2, 0x08)] := by
  simp [lptPutc]

end Jos
