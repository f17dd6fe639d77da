import JosKernel.Console.Display

/-!
# The display refines a scrolling terminal

`Terminal` is what the display is for: a tape of 16-bit cells in rows of 80, a linear cursor
`a` and a top visible row `t`.  Nothing is ever lost from the tape; the screen is the window
of 25 rows from row `t` on.

Principal results: `Window.putc` — one character keeps the window relation;
`cga_refines_terminal` — over every sequence of characters the screen memory is the window,
the cursor registers hold the position and no write leaves the screen.
-/

set_option autoImplicit false

namespace Jos

/-! ## The terminal -/

/-- A terminal with an unbounded number of rows. -/
structure Terminal where
  cell : Nat → Cell
  a : Nat
  t : Nat

/-- A blank in the default attribute. -/
def blankCell : Cell := 0x0720

/-- The cell of a character: without attribute bits it gets attribute `0x07`. -/
def cellOf (c : Word) : Cell :=
  if c.toNat < 256 then 0x0700 ||| c.setWidth 16 else c.setWidth 16

/-- A blank in the attribute of a character. -/
def eraserOf (c : Word) : Cell := (cellOf c &&& 0xff00) ||| 0x0020

/-- Scroll by one row when the cursor has left the window. -/
def Terminal.settle (T : Terminal) : Terminal :=
  if T.a ≥ 80 * T.t + 2000 then { T with t := T.t + 1 } else T

/-- Print a cell at the cursor. -/
def Terminal.print (x : Cell) (T : Terminal) : Terminal :=
  Terminal.settle { T with cell := Function.update T.cell T.a x, a := T.a + 1 }

def Terminal.newline (T : Terminal) : Terminal :=
  Terminal.settle { T with a := (T.a / 80 + 1) * 80 }

def Terminal.carriageReturn (T : Terminal) : Terminal := { T with a := T.a / 80 * 80 }

/-- Step back and erase, but not out of the window. -/
def Terminal.backspace (x : Cell) (T : Terminal) : Terminal :=
  if T.a > 80 * T.t then { T with cell := Function.update T.cell (T.a - 1) x, a := T.a - 1 }
  else T

def Terminal.tab (T : Terminal) : Terminal :=
  ((((T.print blankCell).print blankCell).print blankCell).print blankCell).print blankCell

def Terminal.putc (c : Word) (T : Terminal) : Terminal :=
  if c.toNat % 256 = 8 then T.backspace (eraserOf c)
  else if c.toNat % 256 = 10 then T.newline
  else if c.toNat % 256 = 13 then T.carriageReturn
  else if c.toNat % 256 = 9 then T.tab
  else T.print (cellOf c)

/-- The terminal whose window is the present screen, with blank rows below it. -/
def Terminal.ofScreen (s : Crt) : Terminal :=
  ⟨fun i => if i < CRT_SIZE then s.buf i else blankCell, s.pos, 0⟩

theorem Terminal.settle_of_lt {T : Terminal} (h : T.a < 80 * T.t + 2000) : T.settle = T :=
  if_neg (by omega)

@[simp] theorem Terminal.settle_a (T : Terminal) : T.settle.a = T.a := by
  unfold Terminal.settle
  split <;> rfl

@[simp] theorem Terminal.settle_cell (T : Terminal) : T.settle.cell = T.cell := by
  unfold Terminal.settle
  split <;> rfl

theorem Terminal.settle_t_le (T : Terminal) : T.settle.t ≤ T.t + 1 := by
  unfold Terminal.settle
  split
  · exact Nat.le_refl _
  · exact Nat.le_succ _

@[simp] theorem Terminal.print_a (x : Cell) (T : Terminal) : (T.print x).a = T.a + 1 :=
  Terminal.settle_a _

@[simp] theorem Terminal.print_cell (x : Cell) (T : Terminal) :
    (T.print x).cell = Function.update T.cell T.a x :=
  Terminal.settle_cell _

/-- Printing scrolls by at most one row, and only from the last cell of the window. -/
theorem Terminal.print_t (x : Cell) (T : Terminal) :
    (T.print x).t ≤ T.t + 1 ∧ (T.a + 1 < 80 * T.t + 2000 → (T.print x).t = T.t) := by
  refine ⟨Terminal.settle_t_le _, fun h => ?_⟩
  unfold Terminal.print
  rw [Terminal.settle_of_lt h]

/-! ## Characters -/

theorem toNat_low_byte (c : Word) : (c &&& 0xff).toNat = c.toNat % 256 := by
  rw [BitVec.toNat_and]
  exact Nat.and_two_pow_sub_one_eq_mod c.toNat 8

theorem low_byte_eq (c : Word) {k : Nat} (hk : k < 256) :
    c &&& 0xff = BitVec.ofNat 32 k ↔ c.toNat % 256 = k := by
  rw [← BitVec.toNat_inj, toNat_low_byte, BitVec.toNat_ofNat]
  omega

/-- The attribute test of `cga_putc`: no bit above the low byte is set. -/
theorem no_attr_iff (c : Word) : c &&& ~~~0xFF = 0 ↔ c.toNat < 256 := by
  have hsplit : c = (c &&& 0xff) ||| (c &&& ~~~0xff) := by
    rw [← BitVec.and_or_distrib_left, BitVec.or_not_self, BitVec.and_allOnes]
  constructor
  · intro h
    have hlow : c = c &&& 0xff := hsplit.trans (by rw [h]; exact BitVec.or_zero)
    have := toNat_low_byte c
    rw [← hlow] at this
    omega
  · intro h
    have hlow : c &&& 0xff = c := by
      rw [← BitVec.toNat_inj, toNat_low_byte]
      omega
    rw [← hlow, BitVec.and_assoc, BitVec.and_not_self]
    exact BitVec.and_zero

theorem withAttr_cell (c : Word) : (withAttr c).setWidth 16 = cellOf c := by
  unfold withAttr cellOf
  simp only [no_attr_iff]
  split
  · rw [BitVec.setWidth_or, BitVec.or_comm]
    rfl
  · rfl

theorem withAttr_eraser (c : Word) :
    ((withAttr c &&& ~~~0xff) ||| 0x20).setWidth 16 = eraserOf c := by
  rw [BitVec.setWidth_or, BitVec.setWidth_and, withAttr_cell]
  rfl

/-! ## The window relation -/

/-- The writes made between two states all lie on the screen. -/
def Crt.WritesInside (s s' : Crt) : Prop :=
  ∃ ws, s'.writes = s.writes ++ ws ∧ ∀ i ∈ ws, i < CRT_SIZE

theorem Crt.WritesInside.refl (s : Crt) : s.WritesInside s := ⟨[], by simp, by simp⟩

theorem Crt.WritesInside.trans {s s' s'' : Crt} (h : s.WritesInside s')
    (h' : s'.WritesInside s'') : s.WritesInside s'' := by
  obtain ⟨ws, hws, hin⟩ := h
  obtain ⟨ws', hws', hin'⟩ := h'
  refine ⟨ws ++ ws', by rw [hws', hws, List.append_assoc], ?_⟩
  intro i hi
  rcases List.mem_append.1 hi with hi | hi
  · exact hin i hi
  · exact hin' i hi

/-- The screen shows the 2000 cells of the tape from row `t` on, and the tape is blank below.
    The cursor may stand up to one row behind the screen, as it does before a scroll. -/
structure View (s : Crt) (T : Terminal) : Prop where
  pos : s.pos + 80 * T.t = T.a
  bound : s.pos < CRT_SIZE + CRT_COLS
  cells : ∀ i < CRT_SIZE, s.buf i = T.cell (80 * T.t + i)
  below : ∀ j, 80 * T.t + CRT_SIZE ≤ j → T.cell j = blankCell

/-- A view with the cursor on the screen. -/
structure Window (s : Crt) (T : Terminal) : Prop extends View s T where
  onScreen : s.pos < CRT_SIZE

theorem Window.ofScreen {s : Crt} (h : s.pos < CRT_SIZE) : Window s (Terminal.ofScreen s) where
  pos := by simp [Terminal.ofScreen]
  bound := by simp only [CRT_COLS]; omega
  cells i hi := by simp [Terminal.ofScreen, hi]
  below j hj := by
    have : ¬ j < CRT_SIZE := by simp only [Terminal.ofScreen] at hj; omega
    simp [Terminal.ofScreen, this]
  onScreen := h

/-! ### Scrolling -/

theorem Crt.blank_spec : ∀ (n i : Nat) (s : Crt),
    (Crt.blank i n s).pos = s.pos ∧ (Crt.blank i n s).addr6845 = s.addr6845 ∧
      (Crt.blank i n s).writes = s.writes ++ List.range' i n ∧
      ∀ j, (Crt.blank i n s).buf j = if i ≤ j ∧ j < i + n then blankCell else s.buf j
  | 0, i, s => by
    refine ⟨rfl, rfl, by simp [Crt.blank], fun j => ?_⟩
    rw [if_neg (by omega)]
    rfl
  | n + 1, i, s => by
    obtain ⟨hpos, haddr, hwrites, hbuf⟩ := Crt.blank_spec n (i + 1) (s.write i (0x0700 ||| 0x20))
    refine ⟨hpos, haddr, ?_, fun j => ?_⟩
    · rw [Crt.blank, hwrites, Crt.write, List.range'_succ]
      simp
    · rw [Crt.blank, hbuf, Crt.write]
      by_cases hj : j = i
      · subst hj
        rw [if_neg (by omega), if_pos (by omega)]
        exact Function.update_self ..
      · have hrest : (i + 1 ≤ j ∧ j < i + 1 + n) ↔ (i ≤ j ∧ j < i + (n + 1)) := by omega
        simp only [hrest, Function.update_of_ne hj]

/-- The screen behind the cursor test of `cga_putc` when it scrolls. -/
theorem Crt.scroll_of_le {s : Crt} (h : CRT_SIZE ≤ s.pos) :
    s.scroll.pos = s.pos - 80 ∧ s.scroll.addr6845 = s.addr6845 ∧
      s.scroll.writes = s.writes ++ (List.range 1920 ++ List.range' 1920 80) ∧
      ∀ j, s.scroll.buf j =
        if j < 1920 then s.buf (j + 80) else if j < 2000 then blankCell else s.buf j := by
  obtain ⟨hpos, haddr, hwrites, hbuf⟩ :=
    Crt.blank_spec CRT_COLS (CRT_SIZE - CRT_COLS) s.moveUp
  have hcell : ∀ j, (Crt.blank (CRT_SIZE - CRT_COLS) CRT_COLS s.moveUp).buf j =
      if 1920 ≤ j ∧ j < 2000 then blankCell
      else if j < 1920 then s.buf (j + 80) else s.buf j := hbuf
  rw [Crt.scroll, if_pos h]
  refine ⟨congrArg (· - 80) hpos, haddr, ?_, fun j => ?_⟩
  · exact hwrites.trans (List.append_assoc ..)
  · refine (hcell j).trans ?_
    by_cases hlow : j < 1920
    · rw [if_neg (by omega), if_pos hlow, if_pos hlow]
    · rw [if_neg hlow, if_neg hlow]
      by_cases hlast : j < 2000
      · rw [if_pos (by omega), if_pos hlast]
      · rw [if_neg (by omega), if_neg hlast]

theorem Crt.scroll_of_lt {s : Crt} (h : s.pos < CRT_SIZE) : s.scroll = s := by
  rw [Crt.scroll, if_neg (by omega)]

/-- **The scroll follows the window down by one row.** -/
theorem View.scroll {s : Crt} {T : Terminal} (h : View s T) : Window s.scroll T.settle := by
  obtain ⟨hpos, hbound, hcells, hbelow⟩ := h
  simp only [CRT_SIZE_eq, CRT_COLS_eq] at hbound hcells hbelow
  unfold Terminal.settle
  by_cases hs : CRT_SIZE ≤ s.pos
  · obtain ⟨spos, -, -, sbuf⟩ := Crt.scroll_of_le hs
    rw [CRT_SIZE_eq] at hs
    rw [if_pos (by omega)]
    constructor
    constructor
    all_goals simp only [spos, sbuf, CRT_SIZE_eq, CRT_COLS_eq]
    · omega
    · omega
    · intro i hi
      by_cases hlast : i < 1920
      · rw [if_pos hlast, hcells _ (by omega)]
        congr 1
        omega
      · rw [if_neg hlast, if_pos hi, hbelow _ (by omega)]
    · exact fun j hj => hbelow j (by omega)
    · omega
  · rw [Crt.scroll_of_lt (by omega)]
    rw [CRT_SIZE_eq] at hs
    rw [if_neg (by omega)]
    exact ⟨⟨hpos, hbound, hcells, hbelow⟩, by rw [CRT_SIZE_eq]; omega⟩

theorem Crt.scroll_inside (s : Crt) : s.WritesInside s.scroll := by
  by_cases hs : CRT_SIZE ≤ s.pos
  · obtain ⟨-, -, swrites, -⟩ := Crt.scroll_of_le hs
    refine ⟨_, swrites, fun i hi => ?_⟩
    simp only [List.mem_append, List.mem_range, List.mem_range'_1] at hi
    rw [CRT_SIZE_eq]
    omega
  · rw [Crt.scroll_of_lt (by omega)]
    exact Crt.WritesInside.refl s

/-! ### The other operations -/

/-- Writing the cell under the cursor and advancing. -/
theorem Window.character {s : Crt} {T : Terminal} (h : Window s T) (c : Word) :
    View (s.character c)
      { T with cell := Function.update T.cell T.a (c.setWidth 16), a := T.a + 1 } := by
  obtain ⟨⟨hpos, -, hcells, hbelow⟩, hon⟩ := h
  simp only [CRT_SIZE_eq] at hcells hbelow hon
  constructor
  all_goals simp only [Crt.character, Crt.write, CRT_SIZE_eq, CRT_COLS_eq]
  · omega
  · omega
  · intro i hi
    by_cases heq : i = s.pos
    · rw [heq, Function.update_self, show 80 * T.t + s.pos = T.a by omega, Function.update_self]
    · rw [Function.update_of_ne heq, Function.update_of_ne (by omega), hcells i hi]
  · intro j hj
    rw [Function.update_of_ne (by omega), hbelow j hj]

theorem Window.newline {s : Crt} {T : Terminal} (h : Window s T) :
    View s.newline { T with a := (T.a / 80 + 1) * 80 } := by
  obtain ⟨⟨hpos, -, hcells, hbelow⟩, hon⟩ := h
  simp only [CRT_SIZE_eq] at hon
  refine ⟨?_, ?_, hcells, hbelow⟩
  all_goals simp only [Crt.newline, Crt.carriageReturn, CRT_SIZE_eq, CRT_COLS_eq]; omega

theorem Window.carriageReturn {s : Crt} {T : Terminal} (h : Window s T) :
    Window s.carriageReturn T.carriageReturn := by
  obtain ⟨⟨hpos, -, hcells, hbelow⟩, hon⟩ := h
  simp only [CRT_SIZE_eq] at hon
  refine ⟨⟨?_, ?_, hcells, hbelow⟩, ?_⟩
  all_goals
    simp only [Crt.carriageReturn, Terminal.carriageReturn, CRT_SIZE_eq, CRT_COLS_eq]; omega

theorem Window.backspace {s : Crt} {T : Terminal} (h : Window s T) (c : Word) :
    Window (s.backspace c) (T.backspace (((c &&& ~~~0xff) ||| 0x20).setWidth 16)) ∧
      s.WritesInside (s.backspace c) := by
  obtain ⟨⟨hpos, hbound, hcells, hbelow⟩, hon⟩ := h
  unfold Crt.backspace Terminal.backspace
  by_cases hzero : 0 < s.pos
  · rw [if_pos hzero, if_pos (by omega)]
    have hin : s.pos - 1 < CRT_SIZE := by omega
    refine ⟨⟨⟨?_, ?_, fun i hi => ?_, fun j hj => ?_⟩, ?_⟩, [s.pos - 1], rfl, by simpa using hin⟩
    all_goals simp only [Crt.write]
    · omega
    · omega
    · by_cases heq : i = s.pos - 1
      · rw [heq, Function.update_self, show 80 * T.t + (s.pos - 1) = T.a - 1 by omega,
          Function.update_self]
      · rw [Function.update_of_ne heq, Function.update_of_ne (by omega), hcells i hi]
    · have hj' : 80 * T.t + CRT_SIZE ≤ j := hj
      rw [Function.update_of_ne (by omega), hbelow j hj']
    · omega
  · rw [if_neg hzero, if_neg (by omega)]
    exact ⟨⟨⟨hpos, hbound, hcells, hbelow⟩, hon⟩, Crt.WritesInside.refl s⟩

/-! ### One character -/

/-- A character that is not a tab. -/
theorem Window.step {s : Crt} {T : Terminal} (h : Window s T) {c : Word}
    (hc : c.toNat % 256 ≠ 9) : Window (s.step c) (T.putc c) ∧ s.WritesInside (s.step c) := by
  have h8 : c &&& 0xff = 0x08 ↔ c.toNat % 256 = 8 := low_byte_eq c (by decide)
  have h10 : c &&& 0xff = 0x0a ↔ c.toNat % 256 = 10 := low_byte_eq c (by decide)
  have h13 : c &&& 0xff = 0x0d ↔ c.toNat % 256 = 13 := low_byte_eq c (by decide)
  unfold Crt.step Terminal.putc
  simp only [withAttr_low, h8, h10, h13, if_neg hc]
  split
  · obtain ⟨hwin, hws⟩ := h.backspace (withAttr c)
    rw [Crt.scroll_of_lt hwin.onScreen, ← withAttr_eraser]
    exact ⟨hwin, hws⟩
  split
  · exact ⟨h.newline.scroll, Crt.scroll_inside _⟩
  split
  · have hwin := h.carriageReturn
    rw [Crt.scroll_of_lt hwin.onScreen]
    exact ⟨hwin, Crt.WritesInside.refl s⟩
  · have hview := (h.character (withAttr c)).scroll
    rw [withAttr_cell] at hview
    have hw : s.WritesInside (s.character (withAttr c)) :=
      ⟨[s.pos], rfl, by simpa using h.onScreen⟩
    exact ⟨hview, hw.trans (Crt.scroll_inside _)⟩

theorem Terminal.putc_blank (T : Terminal) : T.putc 0x20 = T.print blankCell := rfl

theorem Window.tab {s : Crt} {T : Terminal} (h : Window s T) :
    Window s.tab T.tab ∧ s.WritesInside s.tab := by
  have hsp : (0x20 : Word).toNat % 256 ≠ 9 := by decide
  obtain ⟨h1, w1⟩ := h.step hsp
  obtain ⟨h2, w2⟩ := h1.step hsp
  obtain ⟨h3, w3⟩ := h2.step hsp
  obtain ⟨h4, w4⟩ := h3.step hsp
  obtain ⟨h5, w5⟩ := h4.step hsp
  simp only [Terminal.putc_blank] at h5
  exact ⟨h5, (((w1.trans w2).trans w3).trans w4).trans w5⟩

/-- **One character keeps the window relation** and writes only on the screen. -/
theorem Window.putc {s : Crt} {T : Terminal} (h : Window s T) (c : Word) :
    Window (s.putc c) (T.putc c) ∧ s.WritesInside (s.putc c) := by
  have h9 : c &&& 0xff = 0x09 ↔ c.toNat % 256 = 9 := low_byte_eq c (by decide)
  unfold Crt.putc
  simp only [h9]
  split
  · rename_i htab
    obtain ⟨hwin, hws⟩ := h.tab
    rw [Crt.scroll_of_lt hwin.onScreen, Terminal.putc, if_neg (by omega), if_neg (by omega),
      if_neg (by omega), if_pos htab]
    exact ⟨hwin, hws⟩
  · rename_i htab
    exact h.step htab

/-! ## The cursor registers -/

/-- The CRT controller: an index port, a data port behind it, and its registers. -/
structure Crtc where
  index : Byte
  reg : Byte → Byte

def Crtc.outb (addr6845 : Adapter) (r : Crtc) (w : Nat × Byte) : Crtc :=
  if w.1 = addr6845.port then { r with index := w.2 }
  else if w.1 = addr6845.port + 1 then { r with reg := Function.update r.reg r.index w.2 }
  else r

/-- Registers 14 and 15, the cursor position. -/
def Crtc.cursor (r : Crtc) : Nat := (r.reg 14).toNat * 256 + (r.reg 15).toNat

/-- **The four writes set the cursor registers**, whatever was written before. -/
theorem moveCursor_cursor {δ : Type} (d : Device δ) {s : Crt} (hpos : s.pos < 65536)
    (io : Io δ) (r : Crtc) :
    ((moveCursor d s io).outs.foldl (Crtc.outb s.addr6845) r).cursor = s.pos := by
  rw [moveCursor_outs, List.foldl_append]
  generalize io.outs.foldl (Crtc.outb s.addr6845) r = r'
  simp [Crtc.outb, Crtc.cursor, Nat.shiftRight_eq_div_pow]
  omega

/-! ## Runs -/

theorem Crt.scroll_addr (s : Crt) : s.scroll.addr6845 = s.addr6845 := by
  by_cases hs : CRT_SIZE ≤ s.pos
  · exact (Crt.scroll_of_le hs).2.1
  · rw [Crt.scroll_of_lt (by omega)]

theorem Crt.step_addr (c : Word) (s : Crt) : (s.step c).addr6845 = s.addr6845 := by
  unfold Crt.step
  simp only [Crt.scroll_addr]
  split
  · unfold Crt.backspace
    split <;> rfl
  split
  · rfl
  split <;> rfl

theorem Crt.putc_addr (c : Word) (s : Crt) : (s.putc c).addr6845 = s.addr6845 := by
  unfold Crt.putc
  split
  · simp only [Crt.scroll_addr, Crt.tab, Crt.step_addr]
  · exact Crt.step_addr c s

variable {δ : Type} (d : Device δ)

/-- The state after a sequence of characters given to `cga_putc`. -/
def cgaPuts (cs : List Word) (m : Console δ) : Console δ := cs.foldl (fun m c => cgaPutc d c m) m

def Terminal.puts (cs : List Word) (T : Terminal) : Terminal := cs.foldl (fun T c => T.putc c) T

theorem Window.puts : ∀ (cs : List Word) {m : Console δ} {T : Terminal}, Window m.crt T →
    Window (cgaPuts d cs m).crt (T.puts cs) ∧ m.crt.WritesInside (cgaPuts d cs m).crt ∧
      (cgaPuts d cs m).crt.addr6845 = m.crt.addr6845
  | [], m, _, h => ⟨h, Crt.WritesInside.refl m.crt, rfl⟩
  | c :: cs, m, _, h => by
    have hcrt := cgaPutc_crt d c m
    obtain ⟨hwin, hws⟩ := h.putc c
    have haddr := Crt.putc_addr c m.crt
    rw [← hcrt] at hwin hws haddr
    obtain ⟨hwin', hws', haddr'⟩ := Window.puts cs hwin
    exact ⟨hwin', hws.trans hws', haddr'.trans haddr⟩

/-- After a last character the cursor registers hold the position. -/
theorem cgaPuts_cursor (cs : List Word) (c : Word) {m : Console δ} (h : m.crt.pos < CRT_SIZE)
    (r : Crtc) :
    ((cgaPuts d (cs ++ [c]) m).io.outs.foldl (Crtc.outb m.crt.addr6845) r).cursor =
      (cgaPuts d (cs ++ [c]) m).crt.pos := by
  obtain ⟨hwin, -, haddr⟩ := Window.puts d (cs ++ [c]) (Window.ofScreen h)
  have hlast : cgaPuts d (cs ++ [c]) m = cgaPutc d c (cgaPuts d cs m) := by
    simp [cgaPuts]
  obtain ⟨io, hio⟩ := cgaPutc_io d c (cgaPuts d cs m)
  rw [← cgaPutc_crt d, ← hlast] at hio
  have hpos := hwin.onScreen
  rw [CRT_SIZE_eq] at hpos
  rw [hio, ← haddr]
  exact moveCursor_cursor d (by omega) io r

/-- **The display refines the scrolling terminal.**  From any screen with the cursor on it, and
    for every sequence of characters, the screen memory is the terminal's window, the cursor
    stays on the screen, every write of the screen memory is inside it, and after every call
    the cursor registers hold `crt_pos`. -/
theorem cga_refines_terminal (m : Console δ) (hpos : m.crt.pos < CRT_SIZE) (cs : List Word) :
    let m' := cgaPuts d cs m
    let T := (Terminal.ofScreen m.crt).puts cs
    80 * T.t ≤ T.a ∧ m'.crt.pos = T.a - 80 * T.t ∧ m'.crt.pos < CRT_SIZE ∧
      (∀ i < CRT_SIZE, m'.crt.buf i = T.cell (80 * T.t + i)) ∧
      m.crt.WritesInside m'.crt ∧
      (cs ≠ [] → ∀ r : Crtc,
        (m'.io.outs.foldl (Crtc.outb m.crt.addr6845) r).cursor = m'.crt.pos) := by
  obtain ⟨hwin, hws, -⟩ := Window.puts d cs (Window.ofScreen hpos)
  have hp := hwin.pos
  refine ⟨by omega, by omega, hwin.onScreen, hwin.cells, hws, fun hne r => ?_⟩
  rcases List.eq_nil_or_concat cs with hnil | ⟨cs', c, hcs⟩
  · exact absurd hnil hne
  · rw [List.concat_eq_append] at hcs
    rw [hcs]
    exact cgaPuts_cursor d cs' c hpos r

/-- A console with the cursor in the last cell of a blank screen. -/
def lastCell : Console Unit := ⟨⟨(), []⟩, ⟨.cga, fun _ => blankCell, 1999, []⟩⟩

/-- A character in the last cell scrolls the screen. -/
theorem cga_refines_terminal_last : (cgaPuts readyDevice [0x41] lastCell).crt.pos = 1920 :=
  (cga_refines_terminal readyDevice lastCell (by decide) [0x41]).2.1.trans (by decide)

end Jos
