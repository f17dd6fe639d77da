import JosKernel.Console.Modifiers
import JosKernel.Console.Mouse
import JosKernel.Console.Streams

/-!
# Ctrl-Alt-Del

`kbd_proc_data` prints a message and writes the reset pulse when it decodes the Delete key with
Ctrl and Alt held.  `Printed` is what a part of the kernel does to the output devices: the
characters it prints, on both streams and on the screen, and what it writes to the system
control port.

Principal results: `rebootsOn_iff` — at which bytes of a history the decoder pulls the reset;
`reset_pulses` — the pulses and the messages of a whole history, and nothing else is printed.
-/

set_option autoImplicit false

namespace Jos

/-! ## Output -/

/-- The system control port. -/
def SYSCTL : Nat := 0x92

/-- The ports that the output drivers write. -/
def consolePorts : List Nat :=
  [COM1 + COM_TX, LPT, LPT + 2, MONO_BASE, MONO_BASE + 1, CGA_BASE, CGA_BASE + 1]

section

variable {δ : Type} (d : Device δ)

theorem moveCursor_quiet {port : Nat} (h : port ∉ consolePorts) (s : Crt) (io : Io δ) :
    sent port (moveCursor d s io).outs = sent port io.outs := by
  simp only [consolePorts, List.mem_cons, List.not_mem_nil, or_false, not_or] at h
  obtain ⟨-, -, -, h3, h4, h5, h6⟩ := h
  rw [moveCursor_outs, sent_append]
  cases s.addr6845 <;> simp [sent, Adapter.port, Ne.symm h3, Ne.symm h4, Ne.symm h5, Ne.symm h6]

theorem drivers_quiet {port : Nat} (h : port ∉ consolePorts) (c : Word) (io : Io δ) :
    sent port (lptPutc d c (serialPutc d c io)).outs = sent port io.outs := by
  simp only [consolePorts, List.mem_cons, List.not_mem_nil, or_false, not_or] at h
  obtain ⟨h0, h1, h2, -⟩ := h
  rw [lptPutc_outs, serialPutc_outs, sent_append, sent_append]
  simp [sent, Ne.symm h0, Ne.symm h1, Ne.symm h2]

theorem consPutc_quiet_of_ne_tab {port : Nat} (h : port ∉ consolePorts) {c : Word}
    (hc : c &&& 0xff ≠ 0x09) (m : Console δ) :
    sent port (consPutc d c m).io.outs = sent port m.io.outs := by
  rw [consPutc, cgaPutc_of_ne_tab d hc]
  simp only [moveCursor_quiet d h, drivers_quiet d h]

/-- No other port is written. -/
theorem consPutc_quiet {port : Nat} (h : port ∉ consolePorts) (c : Word) (m : Console δ) :
    sent port (consPutc d c m).io.outs = sent port m.io.outs := by
  by_cases hc : c &&& 0xff = 0x09
  · have hsp : (0x20 : Word) &&& 0xff ≠ 0x09 := by decide
    rw [consPutc, cgaPutc_of_tab d hc]
    simp only [cgaFinish, moveCursor_quiet d h, consPutc_quiet_of_ne_tab d h hsp,
      drivers_quiet d h]
  · exact consPutc_quiet_of_ne_tab d h hc m

end

/-- The screen after a sequence of characters. -/
def Crt.puts (cs : List Int) (s : Crt) : Crt := cs.foldl (fun s c => s.putc (BitVec.ofInt 32 c)) s

/-- What was printed between two states of the console, and what was written to the system control
    port. -/
structure Printed {δ : Type} (m m' : Console δ) (cs : List Int) (pulses : List Byte) : Prop where
  streams : ∀ port, IsStreamPort port →
    sent port m'.io.outs = sent port m.io.outs ++ cs.flatMap expansion
  screen : m'.crt = m.crt.puts cs
  control : sent SYSCTL m'.io.outs = sent SYSCTL m.io.outs ++ pulses

section

variable {δ : Type} {m m' m'' : Console δ} {cs cs' : List Int} {ps ps' : List Byte}

theorem Printed.refl (m : Console δ) : Printed m m [] [] where
  streams _ _ := (List.append_nil _).symm
  screen := rfl
  control := (List.append_nil _).symm

theorem Printed.trans (h : Printed m m' cs ps) (h' : Printed m' m'' cs' ps') :
    Printed m m'' (cs ++ cs') (ps ++ ps') where
  streams port hport := by
    rw [h'.streams port hport, h.streams port hport, List.flatMap_append, List.append_assoc]
  screen := by rw [h'.screen, h.screen, Crt.puts, Crt.puts, Crt.puts, List.foldl_append]
  control := by rw [h'.control, h.control, List.append_assoc]

/-- Reading the hardware prints nothing. -/
theorem Printed.of_eq (houts : m'.io.outs = m.io.outs) (hcrt : m'.crt = m.crt) :
    Printed m m' [] [] := by
  have h := Printed.refl m
  constructor
  · rw [houts]
    exact h.streams
  · rw [hcrt]
    exact h.screen
  · rw [houts]
    exact h.control

theorem printed_cputchar (d : Device δ) (c : Int) (m : Console δ) :
    Printed m (cputchar d c m) [c] [] where
  streams port hport := by
    rw [cputchar_sent d hport, List.flatMap_cons, List.flatMap_nil, List.append_nil]
  screen := consPutc_crt d _ m
  control := by
    rw [List.append_nil]
    exact consPutc_quiet d (by decide) _ m

/-- A text that is printed. -/
theorem printed_emit (d : Device δ) : ∀ (cs : List Int) (m : Console δ),
    Printed m (emit (cputchar d) cs m) cs []
  | [], m => Printed.refl m
  | c :: cs, m => (printed_cputchar d c m).trans (printed_emit d cs (cputchar d c m))

end

/-! ## The test for Ctrl-Alt-Del -/

/-- The message that is printed. -/
def rebootText : List Int := plain (CStr.ofString "Rebooting!\n").bytes

/-- The decoder pulls the reset at this byte. -/
def rebootsOn (b : Byte) (shift : Word) : Bool :=
  if b = 0xE0 then false
  else if b &&& 0x80 ≠ 0 then false
  else ~~~(kbdPress b shift).2 &&& (CTL ||| ALT) = 0 ∧ (kbdPress b shift).1 = KEY_DEL.toNat

/-- How often the decoder pulls the reset. -/
def reboots : List Byte → Word → Nat
  | [], _ => 0
  | b :: bs, shift => (rebootsOn b shift).toNat + reboots bs (kbdDecode b shift).2

/-- Ctrl is held, and Alt. -/
def CtrlAlt (bs : List Byte) : Prop :=
  lastMade [0x1D, 0x9D] (split bs).events = true ∧ lastMade [0x38, 0xB8] (split bs).events = true

instance (bs : List Byte) : Decidable (CtrlAlt bs) := inferInstanceAs (Decidable (_ ∧ _))

set_option maxRecDepth 4000 in
theorem ctlmap_delete : ∀ key : Byte, ctlmap key = KEY_DEL ↔ key = 0xD3 := by decide +kernel

set_option maxRecDepth 4000 in
theorem swapCase_delete : ∀ c : Byte, swapCase c.toNat = KEY_DEL.toNat ↔ c = KEY_DEL := by
  decide +kernel

set_option maxRecDepth 4000 in
theorem extended_delete : ∀ b : Byte, b.toNat < 0x80 → (b + 0x80 = 0xD3 ↔ b = 0x53) := by
  decide +kernel

/-- With Ctrl held, only the Delete key has its character. -/
theorem kbdChar_delete {key : Byte} {shift : Word} (hctl : shift.getLsbD 1 = true) :
    kbdChar key shift = KEY_DEL.toNat ↔ key = 0xD3 := by
  have hmap : charcode (shift &&& (CTL ||| SHIFT)) = ctlmap := by
    have h1 : shift &&& CTL = if shift.getLsbD 1 then CTL else 0 := BitVec.and_twoPow shift 1
    have h0 : shift &&& SHIFT = if shift.getLsbD 0 then SHIFT else 0 := BitVec.and_twoPow shift 0
    rw [BitVec.and_or_distrib_left, h1, h0, hctl]
    cases shift.getLsbD 0 <;> rfl
  rw [← ctlmap_delete, kbdChar, hmap]
  split
  · exact swapCase_delete _
  · rw [Int.natCast_inj, BitVec.toNat_inj]

/-- The test of the two bits. -/
theorem ctrlAlt_bits (shift : Word) :
    ~~~shift &&& (CTL ||| ALT) = 0 ↔ shift.getLsbD 1 = true ∧ shift.getLsbD 2 = true := by
  have h1 : ~~~shift &&& CTL = if (~~~shift).getLsbD 1 then CTL else 0 := BitVec.and_twoPow _ 1
  have h2 : ~~~shift &&& ALT = if (~~~shift).getLsbD 2 then ALT else 0 := BitVec.and_twoPow _ 2
  rw [BitVec.and_or_distrib_left, h1, h2, BitVec.getLsbD_not, BitVec.getLsbD_not]
  cases shift.getLsbD 1 <;> cases shift.getLsbD 2 <;> decide

/-- **The reset is pulled exactly at the Delete key with Ctrl and Alt held**: at the byte `53`
    behind an `E0`, when the last event of the Ctrl keys is a make, and that of the Alt keys. -/
theorem rebootsOn_iff (bs : List Byte) (b : Byte) :
    rebootsOn b (shiftAfter bs 0) = true ↔ b = 0x53 ∧ bs.getLast? = some 0xE0 ∧ CtrlAlt bs := by
  have hagrees := split_agrees bs
  unfold rebootsOn
  by_cases hesc : b = 0xE0
  · rw [if_pos hesc, hesc]
    exact iff_of_false Bool.false_ne_true fun h => absurd h.1 (by decide)
  rw [if_neg hesc]
  by_cases hbreak : b &&& 0x80 ≠ 0
  · rw [if_pos hbreak]
    exact iff_of_false Bool.false_ne_true fun h => hbreak (by rw [h.1]; decide)
  have hlow : b.toNat < 0x80 := Nat.lt_of_not_le fun h => hbreak ((break_iff b).2 h)
  have hkey := (hagrees.unescaped hlow).1
  have hafter := hagrees.decode b
  rw [kbdDecode, if_neg hesc, if_neg hbreak, Split.byte_make _ hesc hlow] at hafter
  have hchar : (kbdPress b (shiftAfter bs 0)).1 =
      kbdChar (kbdUnescape b (shiftAfter bs 0)).1 (kbdPress b (shiftAfter bs 0)).2 := rfl
  rw [if_neg hbreak, decide_eq_true_iff, ctrlAlt_bits, hchar, hkey]
  generalize (kbdPress b (shiftAfter bs 0)).2 = shift at hafter
  generalize hk : (if (split bs).pending then b + 0x80 else b) = key at hafter
  -- Delete is no modifier key, so that its own make changes none of the two bits
  have hheld : key = 0xD3 → ((shift.getLsbD 1 = true ∧ shift.getLsbD 2 = true) ↔ CtrlAlt bs) := by
    intro hkey
    rw [hafter 1, hafter 2, hkey]
    show lastMade [0x1D, 0x9D] _ = true ∧ lastMade [0x38, 0xB8] _ = true ↔ _
    rw [lastMade_append, lastMade_append, if_neg (by decide), if_neg (by decide)]
    rfl
  have hdelete : key = 0xD3 ↔ b = 0x53 ∧ bs.getLast? = some 0xE0 := by
    rw [← hk, ← split_pending]
    by_cases hpending : (split bs).pending = true
    · rw [if_pos hpending, extended_delete b hlow]
      exact (and_iff_left hpending).symm
    · rw [if_neg hpending]
      refine iff_of_false (fun h => ?_) fun h => hpending h.2
      rw [h] at hlow
      exact absurd hlow (by decide)
  constructor
  · rintro ⟨hbits, hc⟩
    have hkey := (kbdChar_delete hbits.1).1 hc
    obtain ⟨hb, hlast⟩ := hdelete.1 hkey
    exact ⟨hb, hlast, (hheld hkey).1 hbits⟩
  · rintro ⟨hb, hlast, hctrlAlt⟩
    have hkey := hdelete.2 ⟨hb, hlast⟩
    have hbits := (hheld hkey).2 hctrlAlt
    exact ⟨hbits, (kbdChar_delete hbits.1).2 hkey⟩

/-! ## Histories -/

theorem reboots_append : ∀ (bs cs : List Byte) (shift : Word),
    reboots (bs ++ cs) shift = reboots bs shift + reboots cs (shiftAfter bs shift)
  | [], _, _ => (Nat.zero_add _).symm
  | b :: bs, cs, shift => by
    rw [List.cons_append, reboots, reboots_append bs cs, reboots, Nat.add_assoc]
    rfl

/-- The byte at `i` completes Ctrl-Alt-Del. -/
def CompletesReset (bs : List Byte) (i : Nat) : Prop :=
  bs[i]? = some 0x53 ∧ (bs.take i).getLast? = some 0xE0 ∧ CtrlAlt (bs.take i)

instance (bs : List Byte) (i : Nat) : Decidable (CompletesReset bs i) :=
  inferInstanceAs (Decidable (_ ∧ _))

/-- The number of bytes that complete Ctrl-Alt-Del. -/
def resets (bs : List Byte) : Nat := (List.range bs.length).countP (CompletesReset bs ·)

theorem resets_concat (bs : List Byte) (b : Byte) :
    resets (bs ++ [b]) = resets bs + (rebootsOn b (shiftAfter bs 0)).toNat := by
  have hsame : ∀ i ∈ List.range bs.length,
      decide (CompletesReset (bs ++ [b]) i) = true ↔ decide (CompletesReset bs i) = true := by
    intro i hi
    rw [List.mem_range] at hi
    rw [decide_eq_true_iff, decide_eq_true_iff, CompletesReset, CompletesReset,
      List.getElem?_append_left hi, List.take_append_of_le_length (Nat.le_of_lt hi)]
  have hlast : CompletesReset (bs ++ [b]) bs.length ↔ rebootsOn b (shiftAfter bs 0) = true := by
    rw [rebootsOn_iff, CompletesReset, List.getElem?_concat_length, List.take_left,
      Option.some.injEq]
  rw [resets, List.length_append, List.length_singleton, List.range_succ, List.countP_append,
    List.countP_congr hsame, List.countP_singleton, resets]
  cases hb : rebootsOn b (shiftAfter bs 0) with
  | false =>
    rw [hb] at hlast
    rw [decide_eq_false fun h => Bool.false_ne_true (hlast.1 h)]
    rfl
  | true =>
    rw [hb] at hlast
    rw [decide_eq_true (hlast.2 rfl)]
    rfl

/-- What the decoder counts are the bytes that complete Ctrl-Alt-Del. -/
theorem reboots_eq_resets (bs : List Byte) : reboots bs 0 = resets bs := by
  induction bs using List.reverseRecOn with
  | nil => rfl
  | append_singleton bs b ih =>
    rw [reboots_append, resets_concat, ih]
    rfl

/-! ## What the keyboard driver prints -/

/-- The messages of `n` resets. -/
def rebootTexts (n : Nat) : List Int := (List.replicate n rebootText).flatten

/-- A message and a pulse for each reset, and nothing else. -/
def PrintedResets {δ : Type} (m m' : Console δ) (n : Nat) : Prop :=
  Printed m m' (rebootTexts n) (List.replicate n 0x03)

theorem PrintedResets.trans {δ : Type} {m m' m'' : Console δ} {n n' : Nat}
    (h : PrintedResets m m' n) (h' : PrintedResets m' m'' n') : PrintedResets m m'' (n + n') := by
  have htrans := Printed.trans h h'
  rwa [rebootTexts, rebootTexts, ← List.flatten_append, List.replicate_append_replicate,
    List.replicate_append_replicate] at htrans

theorem reboot_printed {δ : Type} {d : Device δ} {m m' : Console δ} (h : reboot d m = .ok m') :
    PrintedResets m m' 1 := by
  have htext : output (CStr.ofString "Rebooting!\n") [] = .ok rebootText :=
    output_text (by decide) []
  have hone : rebootTexts 1 = rebootText := List.append_nil _
  rw [reboot, vcprintf_of_output d htext m] at h
  cases h
  have hprint := printed_emit d rebootText m
  rw [PrintedResets, hone]
  constructor
  · intro port hport
    rw [outb_outs, sent_append, hprint.streams port hport]
    have hnone : sent port [(SYSCTL, (0x3 : Byte))] = [] := by
      rcases hport with rfl | rfl <;> rfl
    exact (congrArg _ hnone).trans (List.append_nil _)
  · exact hprint.screen
  · rw [outb_outs, sent_append, hprint.control, List.append_nil]
    rfl

variable {ε : Type} {d : Device ε}

/-- **A call of `kbd_proc_data` prints nothing but the message of a reset.** -/
theorem kbdProcData_printed {k k' : Typing ε} {c : Int} {s : Scan} {rest : List Scan}
    (h : k.con.pending = s :: rest) (hs : s.mouse = false)
    (hcall : kbdProcData (i8042 d) k = .ok (c, k')) :
    PrintedResets k.con k'.con (rebootsOn s.data k.shift).toNat := by
  have hstat : statusOf k.con.pending = KBS_DIB := by
    rw [h, statusOf, if_neg (by simp [hs])]
  have hdata : dataOf k.con.pending = s.data := by rw [h]; rfl
  obtain ⟨hread, -, hshift⟩ := @Keyboard.inb_data ε d k
  rw [hdata] at hread
  have hquiet : PrintedResets k.con (k.inb (i8042 d) KBDATAP).2.con 0 := Printed.of_eq rfl rfl
  unfold kbdProcData at hcall
  rw [Keyboard.inb_status, hstat] at hcall
  simp only [show KBS_DIB &&& KBS_DIB ≠ 0 by decide, show KBS_DIB &&& KBS_TERR = 0 by decide,
    ne_eq, not_true, if_false, hread, hshift] at hcall
  unfold rebootsOn
  by_cases hesc : s.data = 0xE0
  · rw [if_pos hesc] at hcall ⊢
    cases hcall
    exact hquiet
  rw [if_neg hesc] at hcall ⊢
  by_cases hbreak : s.data &&& 0x80 = 0
  · rw [if_neg fun hb => hb hbreak] at hcall ⊢
    split at hcall
    · rename_i hreset
      rw [decide_eq_true hreset]
      obtain ⟨m', hreboot, hk⟩ := bind_ok.mp hcall
      cases hk
      exact hquiet.trans (reboot_printed hreboot)
    · rename_i hreset
      rw [decide_eq_false hreset]
      cases hcall
      exact hquiet
  · rw [if_pos hbreak] at hcall ⊢
    cases hcall
    exact hquiet

theorem kbdCalls_printed : ∀ (bs : List Byte) {k k' : Typing ε} {cs : List Int} {rest : List Scan},
    k.con.pending = bs.map Scan.key ++ rest → kbdCalls (i8042 d) bs.length k = .ok (cs, k') →
    PrintedResets k.con k'.con (reboots bs k.shift)
  | [], _, _, _, _, _, hcalls => by
    cases hcalls
    exact Printed.refl _
  | b :: bs, k, k', cs, rest, h, hcalls => by
    obtain ⟨k1, hcall, hshift, hpending⟩ := @kbdProcData_key ε d k _ _ h rfl
    have hone := kbdProcData_printed h rfl hcall
    obtain ⟨r, hr, hcalls⟩ := bind_ok.mp hcalls
    rw [hcall] at hr
    cases hr
    obtain ⟨r', hrest, hk⟩ := bind_ok.mp hcalls
    cases hk
    have hmore := kbdCalls_printed bs hpending hrest
    rw [hshift] at hmore
    exact hone.trans hmore

/-- **The resets of a history**: whatever the keyboard sends and whatever other hardware there is,
    the decoder writes the reset pulse and prints its message once for each Ctrl-Alt-Del, and
    writes nothing else to the output devices. -/
theorem reset_pulses (con : Console (List Scan × ε)) (bs : List Byte) (rest : List Scan) :
    ∃ cs k', kbdCalls (i8042 d) bs.length ⟨con.withPending (bs.map Scan.key ++ rest), 0⟩ =
        .ok (cs, k') ∧
      sent SYSCTL k'.con.io.outs = sent SYSCTL con.io.outs ++ List.replicate (resets bs) 0x03 ∧
      k'.con.crt = con.crt.puts (rebootTexts (resets bs)) ∧
      ∀ port, IsStreamPort port → sent port k'.con.io.outs =
        sent port con.io.outs ++ (rebootTexts (resets bs)).flatMap expansion := by
  have hpending : (con.withPending (bs.map Scan.key ++ rest)).pending =
      bs.map Scan.key ++ rest := rfl
  obtain ⟨k', hcalls, -, -⟩ := @kbdCalls_keys ε d bs
    ⟨con.withPending (bs.map Scan.key ++ rest), 0⟩ rest hpending
  have hprinted := kbdCalls_printed bs hpending hcalls
  rw [reboots_eq_resets] at hprinted
  exact ⟨_, k', hcalls, hprinted.control, hprinted.screen, hprinted.streams⟩

/-- Ctrl, Alt and Delete, and Delete once more: two resets. -/
example : resets [0x1D, 0x38, 0xE0, 0x53, 0xE0, 0xD3, 0xE0, 0x53] = 2 := by decide

/-- The Delete of the keypad, and Delete behind the break of Alt. -/
example : resets [0x1D, 0x38, 0x53, 0xB8, 0xE0, 0x53] = 0 := by decide

end Jos
