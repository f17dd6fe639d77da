import Mathlib.Logic.Function.Basic
import JosKernel.Console.Ports

/-!
# The text display and `cons_putc`

The CGA driver of `kern/console.c` and the fan-out of `cons_putc` to the three output
devices.  `crt_buf` is memory from the start of the screen on, indexed by cells, so that a
write behind the screen is a write; `Crt.writes` records the index of every cell written.
`crt_pos` is a 16-bit counter.  `cga_putc` and `cons_putc` call each other, as in the source.

Principal results: `cgaPutc_crt`, `consPutc_crt` — the screen after a character depends on
the screen alone, not on the devices: a tab is five blanks, every other character one
driver step.
-/

set_option autoImplicit false

namespace Jos

/-- A character with its attribute byte. -/
abbrev Cell := BitVec 16

def CRT_ROWS : Nat := 25
def CRT_COLS : Nat := 80
def CRT_SIZE : Nat := CRT_ROWS * CRT_COLS

theorem CRT_COLS_eq : CRT_COLS = 80 := rfl

theorem CRT_SIZE_eq : CRT_SIZE = 2000 := rfl

def MONO_BASE : Nat := 0x3B4
def CGA_BASE : Nat := 0x3D4

/-- The two adapters between which `cga_init` chooses. -/
inductive Adapter where
  | mono
  | cga
  deriving DecidableEq, Repr

/-- The value of `addr_6845`. -/
def Adapter.port : Adapter → Nat
  | .mono => MONO_BASE
  | .cga => CGA_BASE

/-- The statics of the display driver. -/
structure Crt where
  addr6845 : Adapter
  buf : Nat → Cell
  pos : Nat
  writes : List Nat

/-- The console: the ports and the display. -/
structure Console (δ : Type) where
  io : Io δ
  crt : Crt

/-! ## The screen operations of `cga_putc` -/

/-- `if (!(c & ~0xFF)) c |= 0x0700`. -/
def withAttr (c : Word) : Word := if c &&& ~~~0xFF = 0 then c ||| 0x0700 else c

/-- `crt_buf[i] = cell`. -/
def Crt.write (i : Nat) (cell : Cell) (s : Crt) : Crt :=
  { s with buf := Function.update s.buf i cell, writes := s.writes ++ [i] }

/-- `case '\b'`. -/
def Crt.backspace (c : Word) (s : Crt) : Crt :=
  if 0 < s.pos then
    let s := { s with pos := s.pos - 1 }
    s.write s.pos (((c &&& ~~~0xff) ||| 0x20).setWidth 16)
  else s

/-- `case '\r'`: `crt_pos -= (crt_pos % CRT_COLS)`. -/
def Crt.carriageReturn (s : Crt) : Crt := { s with pos := s.pos - s.pos % CRT_COLS }

/-- `case '\n'`, which falls through to `case '\r'`. -/
def Crt.newline (s : Crt) : Crt :=
  Crt.carriageReturn { s with pos := (s.pos + CRT_COLS) % 65536 }

/-- `crt_buf[crt_pos++] = c`. -/
def Crt.character (c : Word) (s : Crt) : Crt :=
  let s' := s.write s.pos (c.setWidth 16)
  { s' with pos := (s.pos + 1) % 65536 }

/-- `memmove(crt_buf, crt_buf + CRT_COLS, (CRT_SIZE - CRT_COLS) * sizeof(uint16_t))`. -/
def Crt.moveUp (s : Crt) : Crt :=
  { s with
    buf := fun i => if i < CRT_SIZE - CRT_COLS then s.buf (i + CRT_COLS) else s.buf i
    writes := s.writes ++ List.range (CRT_SIZE - CRT_COLS) }

/-- `for (; i < end; i++) crt_buf[i] = 0x0700 | ' '`, for `n = end - i`. -/
def Crt.blank : Nat → Nat → Crt → Crt
  | _, 0, s => s
  | i, n + 1, s => Crt.blank (i + 1) n (s.write i (0x0700 ||| 0x20))

/-- The scrolling at the end of `cga_putc`. -/
def Crt.scroll (s : Crt) : Crt :=
  if s.pos ≥ CRT_SIZE then
    let s := Crt.blank (CRT_SIZE - CRT_COLS) CRT_COLS s.moveUp
    { s with pos := s.pos - CRT_COLS }
  else s

variable {δ : Type} (d : Device δ)

/-- The four writes that move the hardware cursor. -/
def moveCursor (s : Crt) (io : Io δ) : Io δ :=
  let io := outb d s.addr6845.port 14 io
  let io := outb d (s.addr6845.port + 1) (BitVec.ofNat 8 (s.pos >>> 8)) io
  let io := outb d s.addr6845.port 15 io
  outb d (s.addr6845.port + 1) (BitVec.ofNat 8 s.pos) io

/-- The end of `cga_putc`, behind the `switch`. -/
def cgaFinish (m : Console δ) : Console δ :=
  let crt := m.crt.scroll
  { io := moveCursor d crt m.io, crt }

theorem withAttr_low (c : Word) : withAttr c &&& 0xff = c &&& 0xff := by
  unfold withAttr
  split
  · rw [BitVec.and_or_distrib_right]
    simp
  · rfl

mutual

/-- `cga_putc`. -/
def cgaPutc (c0 : Word) (m : Console δ) : Console δ :=
  let c := withAttr c0
  if c &&& 0xff = 0x08 then cgaFinish d { m with crt := m.crt.backspace c }
  else if c &&& 0xff = 0x0a then cgaFinish d { m with crt := m.crt.newline }
  else if c &&& 0xff = 0x0d then cgaFinish d { m with crt := m.crt.carriageReturn }
  else if _htab : c &&& 0xff = 0x09 then
    let m := consPutc 0x20 m
    let m := consPutc 0x20 m
    let m := consPutc 0x20 m
    let m := consPutc 0x20 m
    let m := consPutc 0x20 m
    cgaFinish d m
  else cgaFinish d { m with crt := m.crt.character c }
termination_by if c0 &&& 0xff = 0x09 then 2 else 0
decreasing_by
  all_goals
    rw [if_neg (by decide), if_pos ((withAttr_low c0).symm.trans _htab)]
    decide

/-- `cons_putc`. -/
def consPutc (c : Word) (m : Console δ) : Console δ :=
  cgaPutc c { m with io := lptPutc d c (serialPutc d c m.io) }
termination_by if c &&& 0xff = 0x09 then 3 else 1
decreasing_by split <;> decide

end

/-! ## The screen behind a character -/

/-- The screen after a character other than a tab. -/
def Crt.step (c : Word) (s : Crt) : Crt :=
  let c := withAttr c
  Crt.scroll (
    if c &&& 0xff = 0x08 then s.backspace c
    else if c &&& 0xff = 0x0a then s.newline
    else if c &&& 0xff = 0x0d then s.carriageReturn
    else s.character c)

/-- Five blanks, as `case '\t'` prints them. -/
def Crt.tab (s : Crt) : Crt :=
  ((((s.step 0x20).step 0x20).step 0x20).step 0x20).step 0x20

/-- The screen after any character. -/
def Crt.putc (c : Word) (s : Crt) : Crt :=
  if c &&& 0xff = 0x09 then s.tab.scroll else s.step c

/-- A character other than a tab reaches no other driver from the display. -/
theorem cgaPutc_of_ne_tab {c : Word} (h : c &&& 0xff ≠ 0x09) (m : Console δ) :
    cgaPutc d c m =
      { io := moveCursor d (m.crt.step c) m.io, crt := m.crt.step c } := by
  rw [cgaPutc]
  simp only [withAttr_low, dif_neg h, Crt.step, cgaFinish]
  split
  · rfl
  split
  · rfl
  split
  · rfl
  · rfl

/-- A tab prints five blanks through `cons_putc`, that is on every device. -/
theorem cgaPutc_of_tab {c : Word} (h : c &&& 0xff = 0x09) (m : Console δ) :
    cgaPutc d c m =
      cgaFinish d (consPutc d 0x20 (consPutc d 0x20 (consPutc d 0x20 (consPutc d 0x20
        (consPutc d 0x20 m))))) := by
  rw [cgaPutc]
  simp only [withAttr_low, h]
  rfl

theorem consPutc_crt_of_ne_tab {c : Word} (h : c &&& 0xff ≠ 0x09) (m : Console δ) :
    (consPutc d c m).crt = m.crt.step c := by
  rw [consPutc, cgaPutc_of_ne_tab d h]

theorem cgaPutc_crt (c : Word) (m : Console δ) : (cgaPutc d c m).crt = m.crt.putc c := by
  unfold Crt.putc
  split
  · rename_i h
    rw [cgaPutc_of_tab d h]
    have hsp : (0x20 : Word) &&& 0xff ≠ 0x09 := by decide
    simp only [cgaFinish, consPutc_crt_of_ne_tab d hsp]
    rfl
  · rename_i h
    rw [cgaPutc_of_ne_tab d h]

/-- **The screen depends on the screen and the character alone.** -/
theorem consPutc_crt (c : Word) (m : Console δ) : (consPutc d c m).crt = m.crt.putc c := by
  rw [consPutc, cgaPutc_crt]

/-- Every call ends with the four cursor writes. -/
theorem cgaPutc_io (c : Word) (m : Console δ) :
    ∃ io, (cgaPutc d c m).io = moveCursor d (m.crt.putc c) io := by
  by_cases h : c &&& 0xff = 0x09
  · have hcrt := cgaPutc_crt d c m
    rw [cgaPutc_of_tab d h] at hcrt ⊢
    exact ⟨_, congrArg (moveCursor d · _) hcrt⟩
  · rw [cgaPutc_of_ne_tab d h, Crt.putc, if_neg h]
    exact ⟨m.io, rfl⟩

theorem moveCursor_outs (s : Crt) (io : Io δ) :
    (moveCursor d s io).outs = io.outs ++
      [(s.addr6845.port, 14), (s.addr6845.port + 1, BitVec.ofNat 8 (s.pos >>> 8)),
       (s.addr6845.port, 15), (s.addr6845.port + 1, BitVec.ofNat 8 s.pos)] := by
  simp [moveCursor]

/-- `cputchar`. -/
def cputchar (c : Int) (m : Console δ) : Console δ := consPutc d (BitVec.ofInt 32 c) m

end Jos
