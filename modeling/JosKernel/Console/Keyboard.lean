import JosKernel.Format.Cprintf

/-!
# The keyboard decoder

`kern/console.c` and `inc/kbdreg.h`: `kbd_proc_data` with its tables.  `shift` holds the
modifier bits, the lock bits and the pending `E0` escape; a break code clears bits, a make code
sets or flips them and yields the character of the key.

`kbdDecode` is what a byte does to `shift` and to the result, without the ports.  Principal
result: `kbdDecode_range` — no byte reads as the "no data" of an empty controller.
-/

set_option autoImplicit false

namespace Jos

def KBSTATP : Nat := 0x64
def KBDATAP : Nat := 0x60
def KBS_DIB : Byte := 0x01
def KBS_TERR : Byte := 0x20

def KEY_HOME : Byte := 0xE0
def KEY_END : Byte := 0xE1
def KEY_UP : Byte := 0xE2
def KEY_DN : Byte := 0xE3
def KEY_LF : Byte := 0xE4
def KEY_RT : Byte := 0xE5
def KEY_PGUP : Byte := 0xE6
def KEY_PGDN : Byte := 0xE7
def KEY_INS : Byte := 0xE8
def KEY_DEL : Byte := 0xE9

def NO : Byte := 0

def SHIFT : Word := 1 <<< 0
def CTL : Word := 1 <<< 1
def ALT : Word := 1 <<< 2
def CAPSLOCK : Word := 1 <<< 3
def NUMLOCK : Word := 1 <<< 4
def SCROLLLOCK : Word := 1 <<< 5
def E0ESC : Word := 1 <<< 6

/-! ## Tables -/

/-- `static uint8_t t[256] = { entries, [i] = v, ... }`. -/
def table (entries : List Byte) (designated : List (Byte × Byte)) (i : Byte) : Byte :=
  match designated.lookup i with
  | some v => v
  | none => entries.getD i.toNat 0

def shiftcode : Byte → Byte :=
  table [] [(0x1D, CTL.setWidth 8), (0x2A, SHIFT.setWidth 8), (0x36, SHIFT.setWidth 8),
    (0x38, ALT.setWidth 8), (0x9D, CTL.setWidth 8), (0xB8, ALT.setWidth 8)]

def togglecode : Byte → Byte :=
  table [] [(0x3A, CAPSLOCK.setWidth 8), (0x45, NUMLOCK.setWidth 8), (0x46, SCROLLLOCK.setWidth 8)]

def normalmap : Byte → Byte :=
  table
    [NO, 0x1B, char '1', char '2', char '3', char '4', char '5', char '6',  -- 0x00
     char '7', char '8', char '9', char '0', char '-', char '=', char '\x08', char '\t',
     char 'q', char 'w', char 'e', char 'r', char 't', char 'y', char 'u', char 'i',  -- 0x10
     char 'o', char 'p', char '[', char ']', char '\n', NO, char 'a', char 's',
     char 'd', char 'f', char 'g', char 'h', char 'j', char 'k', char 'l', char ';',  -- 0x20
     char '\'', char '`', NO, char '\\', char 'z', char 'x', char 'c', char 'v',
     char 'b', char 'n', char 'm', char ',', char '.', char '/', NO, char '*',  -- 0x30
     NO, char ' ', NO, NO, NO, NO, NO, NO,
     NO, NO, NO, NO, NO, NO, NO, char '7',  -- 0x40
     char '8', char '9', char '-', char '4', char '5', char '6', char '+', char '1',
     char '2', char '3', char '0', char '.', NO, NO, NO, NO]  -- 0x50
    [(0xC7, KEY_HOME), (0x9C, char '\n'), (0xB5, char '/'), (0xC8, KEY_UP), (0xC9, KEY_PGUP),
     (0xCB, KEY_LF), (0xCD, KEY_RT), (0xCF, KEY_END), (0xD0, KEY_DN), (0xD1, KEY_PGDN),
     (0xD2, KEY_INS), (0xD3, KEY_DEL)]

def shiftmap : Byte → Byte :=
  table
    [NO, 0o33, char '!', char '@', char '#', char '$', char '%', char '^',  -- 0x00
     char '&', char '*', char '(', char ')', char '_', char '+', char '\x08', char '\t',
     char 'Q', char 'W', char 'E', char 'R', char 'T', char 'Y', char 'U', char 'I',  -- 0x10
     char 'O', char 'P', char '\x7b', char '\x7d', char '\n', NO, char 'A', char 'S',
     char 'D', char 'F', char 'G', char 'H', char 'J', char 'K', char 'L', char ':',  -- 0x20
     char '"', char '~', NO, char '|', char 'Z', char 'X', char 'C', char 'V',
     char 'B', char 'N', char 'M', char '<', char '>', char '?', NO, char '*',  -- 0x30
     NO, char ' ', NO, NO, NO, NO, NO, NO,
     NO, NO, NO, NO, NO, NO, NO, char '7',  -- 0x40
     char '8', char '9', char '-', char '4', char '5', char '6', char '+', char '1',
     char '2', char '3', char '0', char '.', NO, NO, NO, NO]  -- 0x50
    [(0xC7, KEY_HOME), (0x9C, char '\n'), (0xB5, char '/'), (0xC8, KEY_UP), (0xC9, KEY_PGUP),
     (0xCB, KEY_LF), (0xCD, KEY_RT), (0xCF, KEY_END), (0xD0, KEY_DN), (0xD1, KEY_PGDN),
     (0xD2, KEY_INS), (0xD3, KEY_DEL)]

/-- `C(x)`: the control character of a key. -/
def ctl (x : Char) : Byte := char x - char '@'

def ctlmap : Byte → Byte :=
  table
    [NO, NO, NO, NO, NO, NO, NO, NO,
     NO, NO, NO, NO, NO, NO, NO, NO,
     ctl 'Q', ctl 'W', ctl 'E', ctl 'R', ctl 'T', ctl 'Y', ctl 'U', ctl 'I',
     ctl 'O', ctl 'P', NO, NO, char '\r', NO, ctl 'A', ctl 'S',
     ctl 'D', ctl 'F', ctl 'G', ctl 'H', ctl 'J', ctl 'K', ctl 'L', NO,
     NO, NO, NO, ctl '\\', ctl 'Z', ctl 'X', ctl 'C', ctl 'V',
     ctl 'B', ctl 'N', ctl 'M', NO, NO, ctl '/', NO, NO]
    [(0x97, KEY_HOME), (0xB5, ctl '/'), (0xC8, KEY_UP), (0xC9, KEY_PGUP), (0xCB, KEY_LF),
     (0xCD, KEY_RT), (0xCF, KEY_END), (0xD0, KEY_DN), (0xD1, KEY_PGDN), (0xD2, KEY_INS),
     (0xD3, KEY_DEL)]

/-- `charcode[i]`, for `i` up to 3. -/
def charcode (i : Word) : Byte → Byte :=
  if i = 0 then normalmap
  else if i = 1 then shiftmap
  else ctlmap

/-! ## The decoder -/

/-- The test for Caps Lock: letters change case. -/
def swapCase (c : Int) : Int :=
  if (char 'a').toNat ≤ c ∧ c ≤ (char 'z').toNat then c + ((char 'A').toNat - (char 'a').toNat)
  else if (char 'A').toNat ≤ c ∧ c ≤ (char 'Z').toNat then
    c + ((char 'a').toNat - (char 'A').toNat)
  else c

/-- The branch for a break code. -/
def kbdRelease (data : Byte) (shift : Word) : Word :=
  let data := if shift &&& E0ESC ≠ 0 then data else data &&& 0x7F
  shift &&& ~~~((shiftcode data).setWidth 32 ||| E0ESC)

/-- Behind an `E0` escape a make code has bit 7 set. -/
def kbdUnescape (data : Byte) (shift : Word) : Byte × Word :=
  if shift &&& E0ESC ≠ 0 then (data ||| 0x80, shift &&& ~~~E0ESC) else (data, shift)

/-- The character of a key. -/
def kbdChar (data : Byte) (shift : Word) : Int :=
  let c : Int := (charcode (shift &&& (CTL ||| SHIFT)) data).toNat
  if shift &&& CAPSLOCK ≠ 0 then swapCase c else c

/-- The branch for a make code, up to the special keys. -/
def kbdPress (data : Byte) (shift : Word) : Int × Word :=
  let (data, shift) := kbdUnescape data shift
  let shift := shift ||| (shiftcode data).setWidth 32
  let shift := shift ^^^ (togglecode data).setWidth 32
  (kbdChar data shift, shift)

/-- The console with the static `shift` of `kbd_proc_data`. -/
structure Keyboard (δ : Type) where
  con : Console δ
  shift : Word

variable {δ : Type} (d : Device δ)

/-- Read a port on the keyboard's side of the console. -/
def Keyboard.inb (port : Nat) (k : Keyboard δ) : Byte × Keyboard δ :=
  let (data, io) := Jos.inb d port k.con.io
  (data, { k with con := { k.con with io } })

/-- `cprintf("Rebooting!\n"); outb(0x92, 0x3);`. -/
def reboot (m : Console δ) : Except Fault (Console δ) := do
  let (m, _) ← vcprintf d (CStr.ofString "Rebooting!\n") [] m
  .ok { m with io := outb d 0x92 0x3 m.io }

/-- `kbd_proc_data`: the character of a completed key, 0 for none, -1 for no data. -/
def kbdProcData (k : Keyboard δ) : Except Fault (Int × Keyboard δ) :=
  let (stat, k) := k.inb d KBSTATP
  if stat &&& KBS_DIB = 0 then .ok (-1, k)
  else if stat &&& KBS_TERR ≠ 0 then .ok (-1, k)
  else
    let (data, k) := k.inb d KBDATAP
    if data = 0xE0 then .ok (0, { k with shift := k.shift ||| E0ESC })
    else if data &&& 0x80 ≠ 0 then .ok (0, { k with shift := kbdRelease data k.shift })
    else
      let (c, shift) := kbdPress data k.shift
      -- Ctrl-Alt-Del: reboot
      if ~~~shift &&& (CTL ||| ALT) = 0 ∧ c = KEY_DEL.toNat then do
        let con ← reboot d k.con
        .ok (c, { con, shift })
      else .ok (c, { k with shift })

/-! ## What a byte does -/

/-- The result and the new `shift` for a byte from the keyboard. -/
def kbdDecode (data : Byte) (shift : Word) : Int × Word :=
  if data = 0xE0 then (0, shift ||| E0ESC)
  else if data &&& 0x80 ≠ 0 then (0, kbdRelease data shift)
  else kbdPress data shift

theorem swapCase_range {c : Int} (h0 : 0 ≤ c) (h1 : c ≤ 255) :
    0 ≤ swapCase c ∧ swapCase c ≤ 255 := by
  have ha : (char 'a').toNat = 97 := rfl
  have hz : (char 'z').toNat = 122 := rfl
  have hA : (char 'A').toNat = 65 := rfl
  have hZ : (char 'Z').toNat = 90 := rfl
  unfold swapCase
  rw [ha, hz, hA, hZ]
  split
  · omega
  · split <;> omega

theorem kbdChar_range (data : Byte) (shift : Word) :
    0 ≤ kbdChar data shift ∧ kbdChar data shift ≤ 255 := by
  have hlt := (charcode (shift &&& (CTL ||| SHIFT)) data).isLt
  unfold kbdChar
  simp only
  split
  · apply swapCase_range
    · omega
    · omega
  · omega

/-- A byte never reads as "no data". -/
theorem kbdDecode_range (data : Byte) (shift : Word) :
    0 ≤ (kbdDecode data shift).1 ∧ (kbdDecode data shift).1 ≤ 255 := by
  unfold kbdDecode
  split
  · simp
  split
  · simp
  · exact kbdChar_range _ _

end Jos
