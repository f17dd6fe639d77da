import JosKernel.Console.Reboot

/-!
# Typing a text

What a keyboard sends for a text, and that the decoder gets the text back.  A key is found in
the tables of the driver; with Caps Lock on, the key of the other case is struck.

Principal results: `typed_keystrokes` — every text of typable characters comes out of the decoder
as it was typed, whichever locks are on, and leaves no modifier behind; `resets_keystrokes` — no
text resets the machine.
-/

set_option autoImplicit false

namespace Jos

/-- The keys from code 0 on that have a character in a table. -/
def findKey (map : Byte → Byte) (c : Byte) : Option Byte :=
  ((List.range 0x59).map (BitVec.ofNat 8)).find? fun k => map k = c

/-- The key of a character, and whether Shift is held. -/
def keyOf (c : Byte) : Option (Byte × Bool) :=
  match findKey normalmap c with
  | some k => some (k, false)
  | none => (findKey shiftmap c).map fun k => (k, true)

/-- The letter in the other case. -/
def otherCase (c : Byte) : Byte := BitVec.ofInt 8 (swapCase c.toNat)

/-- The character whose key is struck. -/
def struck (shift : Word) (c : Byte) : Byte := if shift &&& CAPSLOCK ≠ 0 then otherCase c else c

/-- The bytes of a keystroke: a make and a break, inside those of the left Shift key. -/
def stroke : Option (Byte × Bool) → List Byte
  | none => []
  | some (k, false) => [k, k + 0x80]
  | some (k, true) => [0x2A, k, k + 0x80, 0xAA]

/-- What is sent for a text. -/
def keystrokes (shift : Word) (text : List Byte) : List Byte :=
  text.flatMap fun c => stroke (keyOf (struck shift c))

/-- A character with a key, in either case. -/
def Typable (c : Byte) : Prop := c ≠ 0 ∧ (keyOf c).isSome ∧ (keyOf (otherCase c)).isSome

instance (c : Byte) : Decidable (Typable c) := inferInstanceAs (Decidable (_ ∧ _))

/-- No modifier is held, and no escape is pending; the locks may be on. -/
structure Released (shift : Word) : Prop where
  noShift : shift &&& SHIFT = 0
  noCtl : shift &&& CTL = 0
  noEscape : shift &&& E0ESC = 0

/-! ## Keys -/

/-- The printable characters and the four control characters that have a key. -/
def keyboardText : List Byte :=
  [0x08, 0x09, 0x0A, 0x1B] ++ (List.range 95).map fun k => BitVec.ofNat 8 (0x20 + k)

theorem typable_keyboardText : ∀ c ∈ keyboardText, Typable c := by decide +kernel

theorem findKey_spec {map : Byte → Byte} {c k : Byte} (h : findKey map c = some k) :
    k.toNat < 0x59 ∧ map k = c := by
  obtain ⟨n, hn, rfl⟩ := List.mem_map.mp (List.mem_of_find?_eq_some h)
  have hlt := List.mem_range.mp hn
  have hmap := @List.find?_some _ (fun k => decide (map k = c)) _ _ h
  refine ⟨?_, of_decide_eq_true hmap⟩
  rw [BitVec.toNat_ofNat]
  omega

set_option maxRecDepth 4000 in
/-- A key with a character is no modifier and no lock. -/
theorem character_key : ∀ k : Byte, k.toNat < 0x59 → normalmap k ≠ 0 ∨ shiftmap k ≠ 0 →
    shiftcode k = 0 ∧ togglecode k = 0 := by decide +kernel

set_option maxRecDepth 4000 in
theorem break_of_key : ∀ k : Byte, k.toNat < 0x59 →
    k ≠ 0xE0 ∧ k &&& 0x80 = 0 ∧ k + 0x80 ≠ 0xE0 ∧ (k + 0x80) &&& 0x80 ≠ 0 ∧
      (k + 0x80) &&& 0x7F = k := by decide +kernel

set_option maxRecDepth 4000 in
theorem otherCase_otherCase : ∀ c : Byte, swapCase (otherCase c).toNat = c.toNat := by
  decide +kernel

/-! ## Modifiers -/

variable {shift : Word}

theorem and_or_eq {w m : Word} (h : shift &&& m = 0#32) : (shift ||| w) &&& m = w &&& m := by
  rw [BitVec.and_or_distrib_right, h, BitVec.zero_or]

/-- Clearing bits that are not set. -/
theorem and_not_of_and_eq_zero {m : Word} (h : shift &&& m = 0#32) : shift &&& ~~~m = shift := by
  refine BitVec.eq_of_getLsbD_eq fun i hi => ?_
  have hbit := congrArg (fun w => w.getLsbD i) h
  simp only [BitVec.getLsbD_and, BitVec.getLsbD_zero] at hbit
  rw [BitVec.getLsbD_and, BitVec.getLsbD_not]
  cases hs : shift.getLsbD i with
  | false => rfl
  | true =>
    rw [hs, Bool.true_and] at hbit
    rw [hbit]
    simp [hi]

/-- The state with the left Shift key held, and without it again. -/
theorem Released.hold (h : Released shift) :
    (shift ||| SHIFT) &&& (CTL ||| SHIFT) = 1 ∧ (shift ||| SHIFT) &&& E0ESC = 0 ∧
      (shift ||| SHIFT) &&& CAPSLOCK = shift &&& CAPSLOCK ∧
      (shift ||| SHIFT) &&& ~~~(SHIFT ||| E0ESC) = shift := by
  have hctl : shift &&& (CTL ||| SHIFT) = 0 := by
    rw [BitVec.and_or_distrib_left, h.noCtl, h.noShift]
    rfl
  have hclear : shift &&& (SHIFT ||| E0ESC) = 0 := by
    rw [BitVec.and_or_distrib_left, h.noShift, h.noEscape]
    rfl
  have hcaps : SHIFT &&& CAPSLOCK = 0#32 := rfl
  have hdown : SHIFT &&& ~~~(SHIFT ||| E0ESC) = 0#32 := rfl
  refine ⟨(and_or_eq hctl).trans rfl, (and_or_eq h.noEscape).trans rfl, ?_, ?_⟩
  · rw [BitVec.and_or_distrib_right, hcaps, BitVec.or_zero]
  · rw [BitVec.and_or_distrib_right, hdown, BitVec.or_zero, and_not_of_and_eq_zero hclear]

/-! ## A keystroke -/

/-- What a key yields when only its table and Caps Lock matter. -/
theorem press_key {k : Byte} (hk : k.toNat < 0x59) (hkey : shiftcode k = 0 ∧ togglecode k = 0)
    (hesc : shift &&& E0ESC = 0) :
    kbdDecode k shift = (kbdChar k shift, shift) ∧ kbdDecode (k + 0x80) shift = (0, shift) := by
  obtain ⟨hne, hmake, hbreakNe, hbreak, hlow⟩ := break_of_key k hk
  have hstay : kbdUnescape k shift = (k, shift) := if_neg (not_not.mpr hesc)
  constructor
  · rw [kbdDecode, if_neg hne, if_neg (not_not.mpr hmake), kbdPress, hstay]
    simp only [hkey.1, hkey.2]
    have hzero : (0 : Byte).setWidth 32 = 0#32 := rfl
    rw [hzero, BitVec.or_zero, BitVec.xor_zero]
  · rw [kbdDecode, if_neg hbreakNe, if_pos hbreak, kbdRelease]
    simp only [if_neg (not_not.mpr hesc), hlow, hkey.1]
    have hzero : (0 : Byte).setWidth 32 ||| E0ESC = E0ESC := rfl
    rw [hzero, and_not_of_and_eq_zero hesc]

/-- The left Shift key goes down, and up. -/
theorem press_shift (h : Released shift) :
    kbdDecode 0x2A shift = (0, shift ||| SHIFT) ∧
      kbdDecode 0xAA (shift ||| SHIFT) = (0, shift) := by
  obtain ⟨hmap, hesc, -, hup⟩ := h.hold
  have hstay : kbdUnescape 0x2A shift = (0x2A, shift) := if_neg (not_not.mpr h.noEscape)
  constructor
  · rw [kbdDecode, if_neg (by decide), if_neg (by decide), kbdPress, hstay]
    have hcode : (shiftcode 0x2A).setWidth 32 = SHIFT := by decide
    have htoggle : (togglecode 0x2A).setWidth 32 = 0#32 := by decide
    have hnone : ((shiftmap 0x2A).toNat : Int) = 0 := by decide
    simp only [hcode, htoggle, BitVec.xor_zero, kbdChar, hmap]
    rw [show charcode 1 = shiftmap from rfl, hnone]
    congr 1
    exact ite_eq_right_iff.mpr fun _ => rfl
  · have hcode : (shiftcode (0xAA &&& 0x7F)).setWidth 32 = SHIFT := by decide
    rw [kbdDecode, if_neg (by decide), if_pos (by decide), kbdRelease]
    simp only [if_neg (not_not.mpr hesc), hcode]
    rw [hup]

/-- One byte that is no character, and one that is. -/
theorem typed_skip {b : Byte} {bs : List Byte} {shift' : Word}
    (h : kbdDecode b shift = (0, shift')) : typed (b :: bs) shift = typed bs shift' := by
  rw [typed_cons, h]
  rfl

theorem typed_char {b : Byte} {bs : List Byte} {shift' : Word} {c : Int}
    (h : kbdDecode b shift = (c, shift')) (hc : c ≠ 0) :
    typed (b :: bs) shift = c :: typed bs shift' := by
  rw [typed_cons, h, if_neg hc]
  rfl

/-- The character of a key, in the case that Caps Lock asks for. -/
def cased (shift : Word) (c : Byte) : Int :=
  if shift &&& CAPSLOCK ≠ 0 then swapCase c.toNat else c.toNat

theorem cased_ne_zero {c : Byte} (hc : c ≠ 0) (shift : Word) : cased shift c ≠ 0 := by
  have hpos : (c.toNat : Int) ≠ 0 := fun h0 => hc (BitVec.eq_of_toNat_eq (by simpa using h0))
  unfold cased
  split
  · exact mt (swapCase_eq_zero _).mp hpos
  · exact hpos

/-- **A keystroke** comes out as its character and changes no modifier. -/
theorem typed_stroke (h : Released shift) {c : Byte} (hc : c ≠ 0) {key : Byte × Bool}
    (hkey : keyOf c = some key) :
    typed (stroke (some key)) shift = [cased shift c] ∧
      shiftAfter (stroke (some key)) shift = shift := by
  have hcase := cased_ne_zero hc shift
  unfold keyOf at hkey
  cases hfind : findKey normalmap c with
  | some k =>
    rw [hfind] at hkey
    cases hkey
    obtain ⟨hk, hmap⟩ := findKey_spec hfind
    have hplain := character_key k hk (Or.inl (by rw [hmap]; exact hc))
    obtain ⟨hmake, hbreak⟩ := press_key hk hplain h.noEscape
    have hnone : shift &&& (CTL ||| SHIFT) = 0 := by
      rw [BitVec.and_or_distrib_left, h.noCtl, h.noShift]
      rfl
    have hchar : kbdChar k shift = cased shift c := by
      rw [kbdChar, hnone, show charcode 0 = normalmap from rfl, hmap]
      rfl
    rw [hchar] at hmake
    constructor
    · rw [stroke, typed_char hmake hcase, typed_skip hbreak]
      rfl
    · simp only [stroke, shiftAfter, List.foldl_cons, List.foldl_nil, hmake, hbreak]
  | none =>
    rw [hfind] at hkey
    obtain ⟨k, hfind', rfl⟩ := Option.map_eq_some_iff.mp hkey
    obtain ⟨hk, hmap⟩ := findKey_spec hfind'
    have hplain := character_key k hk (Or.inr (by rw [hmap]; exact hc))
    obtain ⟨hone, hesc, hcaps, -⟩ := h.hold
    obtain ⟨hdown, hup⟩ := press_shift h
    obtain ⟨hmake, hbreak⟩ := press_key hk hplain hesc
    have hchar : kbdChar k (shift ||| SHIFT) = cased shift c := by
      rw [kbdChar, hone, hcaps, show charcode 1 = shiftmap from rfl, hmap]
      rfl
    rw [hchar] at hmake
    constructor
    · rw [stroke, typed_skip hdown, typed_char hmake hcase, typed_skip hbreak, typed_skip hup]
      rfl
    · simp only [stroke, shiftAfter, List.foldl_cons, List.foldl_nil, hdown, hmake, hbreak, hup]

/-! ## A text -/

theorem struck_spec {c : Byte} (hc : Typable c) (shift : Word) :
    ∃ key, keyOf (struck shift c) = some key ∧ struck shift c ≠ 0 ∧
      cased shift (struck shift c) = c.toNat := by
  obtain ⟨hne, hkey, hother⟩ := hc
  unfold struck cased
  split
  · obtain ⟨key, hkey⟩ := Option.isSome_iff_exists.mp hother
    have hback := otherCase_otherCase c
    refine ⟨key, hkey, fun h0 => ?_, hback⟩
    rw [h0] at hback
    have hzero : (c.toNat : Int) = 0 := hback.symm
    exact hne (BitVec.eq_of_toNat_eq (Int.natCast_eq_zero.mp hzero))
  · obtain ⟨key, hkey⟩ := Option.isSome_iff_exists.mp hkey
    exact ⟨key, hkey, hne, rfl⟩

/-- **A text comes out as it was typed**, whichever locks are on. -/
theorem typed_keystrokes (h : Released shift) : ∀ (text : List Byte), (∀ c ∈ text, Typable c) →
    typed (keystrokes shift text) shift = plain text ∧
      shiftAfter (keystrokes shift text) shift = shift
  | [], _ => ⟨rfl, rfl⟩
  | c :: text, hall => by
    obtain ⟨hc, htext⟩ := List.forall_mem_cons.mp hall
    obtain ⟨key, hkey, hne, hcased⟩ := struck_spec hc shift
    obtain ⟨hone, hafter⟩ := typed_stroke h hne hkey
    obtain ⟨hrest, hend⟩ := typed_keystrokes h text htext
    have hsplit : keystrokes shift (c :: text) = stroke (some key) ++ keystrokes shift text := by
      rw [keystrokes, List.flatMap_cons, hkey]
      rfl
    constructor
    · rw [hsplit, typed_append, hone, hafter, hrest, hcased]
      rfl
    · rw [hsplit, shiftAfter_append, hafter, hend]

/-! ## Ctrl-Alt-Del -/

theorem keyOf_lt {c : Byte} {key : Byte × Bool} (h : keyOf c = some key) : key.1.toNat < 0x59 := by
  unfold keyOf at h
  cases hfind : findKey normalmap c with
  | some k =>
    rw [hfind] at h
    cases h
    exact (findKey_spec hfind).1
  | none =>
    rw [hfind] at h
    obtain ⟨k, hfind', rfl⟩ := Option.map_eq_some_iff.mp h
    exact (findKey_spec hfind').1

/-- No keystroke of a text begins an extended key. -/
theorem escape_not_mem_keystrokes (shift : Word) (text : List Byte) :
    0xE0 ∉ keystrokes shift text := by
  intro hmem
  obtain ⟨c, -, hmem⟩ := List.mem_flatMap.mp hmem
  cases hkey : keyOf (struck shift c) with
  | none =>
    rw [hkey] at hmem
    cases hmem
  | some key =>
    obtain ⟨k, shifted⟩ := key
    obtain ⟨hmake, -, hbreak, -⟩ := break_of_key k (keyOf_lt hkey)
    rw [hkey] at hmem
    have hmem : 0xE0 = k ∨ 0xE0 = k + 0x80 := by
      cases shifted <;> simpa [stroke] using hmem
    rcases hmem with h | h
    · exact hmake h.symm
    · exact hbreak h.symm

/-- **No text resets the machine.** -/
theorem resets_keystrokes (shift : Word) (text : List Byte) :
    resets (keystrokes shift text) = 0 := by
  refine List.countP_eq_zero.mpr fun i _ hreset => ?_
  obtain ⟨-, hlast, -⟩ := of_decide_eq_true hreset
  exact escape_not_mem_keystrokes shift text
    (List.mem_of_mem_take (List.mem_of_getLast? hlast))

end Jos
