import JosKernel.Console.Terminal

/-!
# The serial and the parallel stream

What `cputchar` sends to the other two output devices.  `sent port` reads the bytes written
to one port out of the record of all port writes.

The display driver expands a tab by calling `cons_putc`, so the five blanks of a tab go to
every device, behind the tab itself.  Principal results: `cputchar_sent` — the bytes that one
character adds to each stream; `streams_exact_iff` — the streams are the low bytes of the
characters exactly when no character is a tab.
-/

set_option autoImplicit false

namespace Jos

variable {δ : Type} (d : Device δ)

/-- The bytes written to a port, in order. -/
def sent (port : Nat) (outs : List (Nat × Byte)) : List Byte :=
  (outs.filter fun w => w.1 = port).map Prod.snd

theorem sent_append (port : Nat) (xs ys : List (Nat × Byte)) :
    sent port (xs ++ ys) = sent port xs ++ sent port ys := by
  simp [sent]

/-- The transmit register of the serial port and the data port of the printer. -/
def IsStreamPort (port : Nat) : Prop := port = COM1 + COM_TX ∨ port = LPT

theorem moveCursor_sent {port : Nat} (h : IsStreamPort port) (s : Crt) (io : Io δ) :
    sent port (moveCursor d s io).outs = sent port io.outs := by
  rw [moveCursor_outs, sent_append]
  rcases h with rfl | rfl <;> cases s.addr6845 <;>
    simp [sent, Adapter.port, MONO_BASE, CGA_BASE, COM1, COM_TX, LPT]

/-- The serial and the parallel driver send the low byte, once. -/
theorem drivers_sent {port : Nat} (h : IsStreamPort port) (c : Word) (io : Io δ) :
    sent port (lptPutc d c (serialPutc d c io)).outs = sent port io.outs ++ [c.setWidth 8] := by
  rw [lptPutc_outs, serialPutc_outs, sent_append, sent_append, List.append_assoc]
  rcases h with rfl | rfl <;> simp [sent, COM1, COM_TX, LPT]

theorem consPutc_sent_of_ne_tab {port : Nat} (h : IsStreamPort port) {c : Word}
    (hc : c &&& 0xff ≠ 0x09) (m : Console δ) :
    sent port (consPutc d c m).io.outs = sent port m.io.outs ++ [c.setWidth 8] := by
  rw [consPutc, cgaPutc_of_ne_tab d hc]
  simp only [moveCursor_sent d h, drivers_sent d h]

theorem consPutc_sent_of_tab {port : Nat} (h : IsStreamPort port) {c : Word}
    (hc : c &&& 0xff = 0x09) (m : Console δ) :
    sent port (consPutc d c m).io.outs =
      sent port m.io.outs ++ c.setWidth 8 :: List.replicate 5 0x20 := by
  have hsp : (0x20 : Word) &&& 0xff ≠ 0x09 := by decide
  rw [consPutc, cgaPutc_of_tab d hc]
  simp only [cgaFinish, moveCursor_sent d h, consPutc_sent_of_ne_tab d h hsp, drivers_sent d h,
    List.append_assoc]
  rfl

/-- What one character adds to either stream. -/
def expansion (c : Int) : List Byte :=
  if c % 256 = 9 then BitVec.ofInt 8 c :: List.replicate 5 0x20 else [BitVec.ofInt 8 c]

theorem setWidth_ofInt (c : Int) : (BitVec.ofInt 32 c).setWidth 8 = BitVec.ofInt 8 c := by
  rw [← BitVec.toNat_inj, BitVec.toNat_setWidth, BitVec.toNat_ofInt, BitVec.toNat_ofInt]
  omega

theorem ofInt_is_tab (c : Int) : BitVec.ofInt 32 c &&& 0xff = 0x09 ↔ c % 256 = 9 := by
  rw [show (0x09 : Word) = BitVec.ofNat 32 9 from rfl, low_byte_eq _ (by decide),
    BitVec.toNat_ofInt]
  omega

/-- **One character on the streams**: its low byte, and for a tab five blanks behind it. -/
theorem cputchar_sent {port : Nat} (h : IsStreamPort port) (c : Int) (m : Console δ) :
    sent port (cputchar d c m).io.outs = sent port m.io.outs ++ expansion c := by
  unfold cputchar expansion
  split
  · rename_i hc
    rw [consPutc_sent_of_tab d h ((ofInt_is_tab c).2 hc), setWidth_ofInt]
  · rename_i hc
    rw [consPutc_sent_of_ne_tab d h (fun htab => hc ((ofInt_is_tab c).1 htab)), setWidth_ofInt]

/-- A sequence of characters given to `cputchar`. -/
def cputchars (cs : List Int) (m : Console δ) : Console δ := cs.foldl (fun m c => cputchar d c m) m

theorem cputchars_sent {port : Nat} (h : IsStreamPort port) : ∀ (cs : List Int) (m : Console δ),
    sent port (cputchars d cs m).io.outs = sent port m.io.outs ++ cs.flatMap expansion
  | [], m => by simp [cputchars]
  | c :: cs, m => by
    have := cputchars_sent h cs (cputchar d c m)
    rw [cputchar_sent d h] at this
    simpa [cputchars] using this

theorem length_flatMap_expansion (cs : List Int) :
    (cs.flatMap expansion).length = cs.length + 5 * (cs.filter fun c => c % 256 = 9).length := by
  induction cs with
  | nil => rfl
  | cons c cs ih =>
    rw [List.flatMap_cons, List.length_append, ih, expansion, List.filter_cons]
    by_cases hc : c % 256 = 9
    · simp [hc]; omega
    · simp [hc]; omega

/-- The expansions are the low bytes exactly when there is nothing to expand. -/
theorem flatMap_expansion_eq_iff (cs : List Int) :
    cs.flatMap expansion = cs.map (BitVec.ofInt 8) ↔ ∀ c ∈ cs, c % 256 ≠ 9 := by
  constructor
  · intro h c hc htab
    have hlen := congrArg List.length h
    rw [length_flatMap_expansion, List.length_map] at hlen
    have hpos : 0 < (cs.filter fun c => c % 256 = 9).length :=
      List.length_pos_of_mem (List.mem_filter.2 ⟨hc, by simpa using htab⟩)
    omega
  · intro h
    induction cs with
    | nil => rfl
    | cons c cs ih =>
      rw [List.flatMap_cons, List.map_cons, expansion, if_neg (h c List.mem_cons_self),
        ih fun x hx => h x (List.mem_cons_of_mem _ hx)]
      rfl

/-- Both streams receive the low bytes of the characters and nothing else. -/
def StreamsExact (m : Console δ) (cs : List Int) : Prop :=
  ∀ port, IsStreamPort port → sent port (cputchars d cs m).io.outs =
    sent port m.io.outs ++ cs.map (BitVec.ofInt 8)

/-- **Every output device receives the same characters exactly when none of them is a tab.** -/
theorem streams_exact_iff (m : Console δ) (cs : List Int) :
    StreamsExact d m cs ↔ ∀ c ∈ cs, c % 256 ≠ 9 := by
  rw [← flatMap_expansion_eq_iff]
  unfold StreamsExact
  constructor
  · intro h
    have hserial := h (COM1 + COM_TX) (Or.inl rfl)
    rw [cputchars_sent d (Or.inl rfl)] at hserial
    exact List.append_cancel_left hserial
  · intro h port hport
    rw [cputchars_sent d hport, h]

/-- A tab reaches the serial port as a tab and five blanks. -/
theorem tab_not_exact : ¬ StreamsExact readyDevice lastCell [9] := by
  intro h
  have hserial := h (COM1 + COM_TX) (Or.inl rfl)
  rw [cputchars_sent readyDevice (Or.inl rfl)] at hserial
  exact absurd (List.append_cancel_left hserial) (by decide)

end Jos
