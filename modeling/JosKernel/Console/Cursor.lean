import JosKernel.Console.Terminal

/-!
# The cursor that the hardware reports

`cga_init` of `kern/console.c`: it chooses the adapter and takes the position of the cursor,
unchecked, from the CRT controller.  The driver tests the position behind each character and
scrolls by one row, so a position from the second row below the screen on stays off the screen,
and a character printed below the screen is written there.

Principal results: `consPutc_onScreen` — a position on the screen stays there;
`stays_on_screen_iff` — a run stays on the screen exactly when it starts there, or when its
first character takes the cursor back without printing.
-/

set_option autoImplicit false

namespace Jos

/-- The video memory: the cells of the two buffers, and what the first cell of the CGA buffer
    holds after `0xA55A` was written to it. -/
structure Video where
  cells : Adapter → Nat → Cell
  readBack : Cell

variable {δ : Type} (d : Device δ)

/-- The adapter that answers the probe of `cga_init`. -/
def Video.adapter (v : Video) : Adapter := if v.readBack ≠ 0xA55A then .mono else .cga

/-- "Extract cursor location": registers 14 and 15. -/
def cursorLocation (addr6845 : Adapter) (io : Io δ) : Nat × Io δ :=
  let io := outb d addr6845.port 14 io
  let (hi, io) := inb d (addr6845.port + 1) io
  let io := outb d addr6845.port 15 io
  let (lo, io) := inb d (addr6845.port + 1) io
  (hi.toNat <<< 8 ||| lo.toNat, io)

/-- `cga_init`; the probed cell is written back. -/
def cgaInit (v : Video) (io : Io δ) : Console δ :=
  let (pos, io) := cursorLocation d v.adapter io
  { io,
    crt := { addr6845 := v.adapter, buf := v.cells v.adapter, pos := pos % 65536, writes := [] } }

/-- A sequence of characters given to `cons_putc`. -/
def consPuts (cs : List Word) (m : Console δ) : Console δ := cs.foldl (fun m c => consPutc d c m) m

/-- After every call the cursor is on the screen, and so is every write of the screen memory. -/
def StaysOnScreen (m : Console δ) (cs : List Word) : Prop :=
  ∀ pre, pre <+: cs → pre ≠ [] →
    m.crt.WritesInside (consPuts d pre m).crt ∧ (consPuts d pre m).crt.pos < CRT_SIZE

/-- A first character that takes the cursor from `pos` to the screen: a backspace from the first
    cell below it, a carriage return in the first row below it, or a newline at the end of the
    16-bit range. -/
def TakesBack (pos : Nat) (c : Word) : Prop :=
  c.toNat % 256 = 8 ∧ pos = 2000 ∨ c.toNat % 256 = 13 ∧ pos < 2080 ∨
    c.toNat % 256 = 10 ∧ 65456 ≤ pos

/-! ## On the screen -/

theorem consPutc_onScreen {m : Console δ} (h : m.crt.pos < CRT_SIZE) (c : Word) :
    m.crt.WritesInside (consPutc d c m).crt ∧ (consPutc d c m).crt.pos < CRT_SIZE := by
  rw [consPutc_crt]
  obtain ⟨hwin, hws⟩ := (Window.ofScreen h).putc c
  exact ⟨hws, hwin.onScreen⟩

theorem consPuts_onScreen : ∀ (cs : List Word) {m : Console δ}, m.crt.pos < CRT_SIZE →
    m.crt.WritesInside (consPuts d cs m).crt ∧ (consPuts d cs m).crt.pos < CRT_SIZE
  | [], m, h => ⟨Crt.WritesInside.refl m.crt, h⟩
  | c :: cs, m, h => by
    obtain ⟨hws, hpos⟩ := consPutc_onScreen d h c
    obtain ⟨hws', hpos'⟩ := consPuts_onScreen cs hpos
    exact ⟨hws.trans hws', hpos'⟩

/-- After a first call that ends on the screen everything stays there. -/
theorem staysOnScreen_cons {m : Console δ} {c : Word} {cs : List Word}
    (hws : m.crt.WritesInside (m.crt.putc c)) (hpos : (m.crt.putc c).pos < CRT_SIZE) :
    StaysOnScreen d m (c :: cs) := by
  rw [← consPutc_crt d] at hws hpos
  intro pre hpre hne
  cases pre with
  | nil => exact absurd rfl hne
  | cons c' pre =>
    have hc : c' = c := (List.cons_prefix_cons.1 hpre).1
    rw [hc]
    obtain ⟨hws', hpos'⟩ := consPuts_onScreen d pre hpos
    exact ⟨hws.trans hws', hpos'⟩

theorem StaysOnScreen.head {m : Console δ} {c : Word} {cs : List Word}
    (h : StaysOnScreen d m (c :: cs)) :
    m.crt.WritesInside (m.crt.putc c) ∧ (m.crt.putc c).pos < CRT_SIZE := by
  have hfirst := h [c] (by simp) (by simp)
  rw [← consPutc_crt d]
  exact hfirst

/-! ## Below the screen -/

/-- Writes are only added. -/
def Crt.Extends (s s' : Crt) : Prop := ∃ ws, s'.writes = s.writes ++ ws

theorem Crt.Extends.trans {s s' s'' : Crt} (h : s.Extends s') (h' : s'.Extends s'') :
    s.Extends s'' := by
  obtain ⟨ws, hws⟩ := h
  obtain ⟨ws', hws'⟩ := h'
  exact ⟨ws ++ ws', by rw [hws', hws, List.append_assoc]⟩

theorem Crt.WritesInside.extends {s s' : Crt} (h : s.WritesInside s') : s.Extends s' := by
  obtain ⟨ws, hws, -⟩ := h
  exact ⟨ws, hws⟩

theorem Crt.step_extends (s : Crt) (c : Word) : s.Extends (s.step c) := by
  unfold Crt.step
  refine Crt.Extends.trans ?_ (Crt.scroll_inside _).extends
  split
  · unfold Crt.backspace
    split
    · exact ⟨[s.pos - 1], rfl⟩
    · exact ⟨[], (List.append_nil _).symm⟩
  split
  · exact ⟨[], (List.append_nil _).symm⟩
  split
  · exact ⟨[], (List.append_nil _).symm⟩
  · exact ⟨[s.pos], rfl⟩

/-- A write outside is not undone. -/
theorem not_writesInside {s s1 s2 : Crt} {i : Nat} (hwrite : s1.writes = s.writes ++ [i])
    (hi : CRT_SIZE ≤ i) (hext : s1.Extends s2) : ¬s.WritesInside s2 := by
  rintro ⟨ws, hws, hin⟩
  obtain ⟨ws', hws'⟩ := hext
  rw [hws', hwrite, List.append_assoc] at hws
  have hmem : i ∈ ws := by
    rw [← List.append_cancel_left hws]
    simp
  have := hin i hmem
  omega

/-- The position behind the scroll. -/
theorem Crt.scroll_pos (s : Crt) :
    s.scroll.pos = if CRT_SIZE ≤ s.pos then s.pos - 80 else s.pos := by
  split
  · rename_i h
    exact (Crt.scroll_of_le h).1
  · rename_i h
    rw [Crt.scroll_of_lt (Nat.lt_of_not_le h)]

variable {s : Crt}

/-- A backspace writes the cell in front of the cursor. -/
theorem Crt.backspace_below (hpos : CRT_SIZE ≤ s.pos) (c : Word) :
    (s.WritesInside (s.backspace c).scroll ∧ (s.backspace c).scroll.pos < CRT_SIZE) ↔
      s.pos = 2000 := by
  have hback : s.backspace c = Crt.write (s.pos - 1) (((c &&& ~~~0xff) ||| 0x20).setWidth 16)
      { s with pos := s.pos - 1 } := by
    rw [CRT_SIZE_eq] at hpos
    exact if_pos (by omega)
  rw [hback]
  constructor
  · rintro ⟨hws, -⟩
    by_contra hne
    rw [CRT_SIZE_eq] at hpos
    refine not_writesInside rfl ?_ (Crt.scroll_inside _).extends hws
    rw [CRT_SIZE_eq]
    omega
  · intro heq
    have hlow : s.pos - 1 < CRT_SIZE := by
      rw [heq]
      decide
    rw [Crt.scroll_of_lt (by exact hlow)]
    exact ⟨⟨[s.pos - 1], rfl, by simpa using hlow⟩, hlow⟩

/-- A carriage return and the scroll go back by at most one row. -/
theorem Crt.carriageReturn_below (hpos : CRT_SIZE ≤ s.pos) :
    (s.WritesInside s.carriageReturn.scroll ∧ s.carriageReturn.scroll.pos < CRT_SIZE) ↔
      s.pos < 2080 := by
  have hws : s.WritesInside s.carriageReturn.scroll := Crt.scroll_inside s.carriageReturn
  have hcol : s.carriageReturn.pos = s.pos - s.pos % 80 := rfl
  rw [Crt.scroll_pos, hcol]
  rw [CRT_SIZE_eq] at hpos ⊢
  constructor
  · rintro ⟨-, hlt⟩
    split at hlt <;> omega
  · intro hlt
    refine ⟨hws, ?_⟩
    split <;> omega

/-- A newline goes on by a row, unless the 16-bit position wraps. -/
theorem Crt.newline_below (hpos : CRT_SIZE ≤ s.pos) (hword : s.pos < 65536) :
    (s.WritesInside s.newline.scroll ∧ s.newline.scroll.pos < CRT_SIZE) ↔ 65456 ≤ s.pos := by
  have hws : s.WritesInside s.newline.scroll := Crt.scroll_inside s.newline
  have hcol : s.newline.pos = (s.pos + 80) % 65536 - (s.pos + 80) % 65536 % 80 := rfl
  rw [Crt.scroll_pos, hcol]
  rw [CRT_SIZE_eq] at hpos ⊢
  constructor
  · rintro ⟨-, hlt⟩
    split at hlt <;> omega
  · intro hwrap
    refine ⟨hws, ?_⟩
    split <;> omega

/-- Any other character is written below the screen. -/
theorem Crt.character_below (hpos : CRT_SIZE ≤ s.pos) (c : Word) {s' : Crt}
    (hext : (s.character c).Extends s') : ¬s.WritesInside s' :=
  not_writesInside (show (s.character c).writes = s.writes ++ [s.pos] from rfl) hpos hext

/-- **Below the screen the first character has to take the cursor back.** -/
theorem Crt.putc_below (hpos : CRT_SIZE ≤ s.pos) (hword : s.pos < 65536) (c : Word) :
    (s.WritesInside (s.putc c) ∧ (s.putc c).pos < CRT_SIZE) ↔ TakesBack s.pos c := by
  have h8 : c &&& 0xff = 0x08 ↔ c.toNat % 256 = 8 := low_byte_eq c (by decide)
  have h9 : c &&& 0xff = 0x09 ↔ c.toNat % 256 = 9 := low_byte_eq c (by decide)
  have h10 : c &&& 0xff = 0x0a ↔ c.toNat % 256 = 10 := low_byte_eq c (by decide)
  have h13 : c &&& 0xff = 0x0d ↔ c.toNat % 256 = 13 := low_byte_eq c (by decide)
  unfold TakesBack Crt.putc
  by_cases htab : c.toNat % 256 = 9
  · -- the first of the five blanks
    rw [if_pos (h9.2 htab)]
    have hblank : (s.character (withAttr 0x20)).Extends s.tab.scroll := by
      refine Crt.Extends.trans (Crt.scroll_inside _).extends
        (Crt.Extends.trans ?_ (Crt.scroll_inside _).extends)
      exact (((Crt.step_extends _ _).trans (Crt.step_extends _ _)).trans
        (Crt.step_extends _ _)).trans (Crt.step_extends _ _)
    constructor
    · rintro ⟨hws, -⟩
      exact absurd hws (Crt.character_below hpos _ hblank)
    · intro hback
      omega
  rw [if_neg fun h => htab (h9.1 h)]
  unfold Crt.step
  simp only [withAttr_low, h8, h10, h13]
  by_cases hbs : c.toNat % 256 = 8
  · rw [if_pos hbs, Crt.backspace_below hpos]
    omega
  rw [if_neg hbs]
  by_cases hnl : c.toNat % 256 = 10
  · rw [if_pos hnl, Crt.newline_below hpos hword]
    omega
  rw [if_neg hnl]
  by_cases hcr : c.toNat % 256 = 13
  · rw [if_pos hcr, Crt.carriageReturn_below hpos]
    omega
  rw [if_neg hcr]
  constructor
  · rintro ⟨hws, -⟩
    exact absurd hws (Crt.character_below hpos _ (Crt.scroll_inside _).extends)
  · intro hback
    omega

/-! ## Runs from the hardware's cursor -/

theorem cgaInit_pos (v : Video) (io : Io δ) :
    (cgaInit d v io).crt.pos = (cursorLocation d v.adapter io).1 % 65536 := rfl

/-- **A run stays on the screen exactly when the hardware's cursor is on it, or when the first
    character takes the cursor back.** -/
theorem stays_on_screen_iff (v : Video) (io : Io δ) (cs : List Word) :
    StaysOnScreen d (cgaInit d v io) cs ↔
      (cursorLocation d v.adapter io).1 % 65536 < CRT_SIZE ∨
        ∀ c ∈ cs.head?, TakesBack ((cursorLocation d v.adapter io).1 % 65536) c := by
  have hword : (cgaInit d v io).crt.pos < 65536 := by
    rw [cgaInit_pos]
    exact Nat.mod_lt _ (by decide)
  rw [← cgaInit_pos]
  cases cs with
  | nil =>
    constructor
    · intro _
      refine Or.inr fun c hc => ?_
      cases hc
    · intro _ pre hpre hne
      exact absurd (List.prefix_nil.1 hpre) hne
  | cons c cs =>
    have hhead : (∀ c' ∈ (c :: cs).head?, TakesBack (cgaInit d v io).crt.pos c') ↔
        TakesBack (cgaInit d v io).crt.pos c := by simp
    rw [hhead]
    by_cases hpos : (cgaInit d v io).crt.pos < CRT_SIZE
    · have hfirst := consPutc_onScreen d hpos c
      rw [consPutc_crt] at hfirst
      constructor
      · intro _
        exact Or.inl hpos
      · intro _
        exact staysOnScreen_cons d hfirst.1 hfirst.2
    · have hbelow := Crt.putc_below (Nat.le_of_not_lt hpos) hword c
      constructor
      · intro h
        exact Or.inr (hbelow.1 h.head)
      · rintro (hlt | hback)
        · exact absurd hlt hpos
        · obtain ⟨hws, hon⟩ := hbelow.2 hback
          exact staysOnScreen_cons d hws hon

/-- A CRT controller whose cursor is at 2000, in the first cell below the screen. -/
def hiddenCursor : Device Byte where
  inb _ index := (if index = 14 then 0x07 else 0xD0, index)
  outb port data index := if port = CGA_BASE then data else index

/-- A character printed at a hidden cursor is written below the screen. -/
theorem hiddenCursor_leaves :
    ¬StaysOnScreen hiddenCursor (cgaInit hiddenCursor ⟨fun _ _ => blankCell, 0xA55A⟩ ⟨0, []⟩)
      [0x41] := by
  intro h
  have hback := (Crt.putc_below (by decide) (by decide) 0x41).1 h.head
  revert hback
  unfold TakesBack
  decide

end Jos
