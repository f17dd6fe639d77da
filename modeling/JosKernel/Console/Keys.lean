import JosKernel.Console.Decoder

/-!
# The characters of the keys

What a make code yields behind any byte history: the letters with the modifiers, the other keys
without regard to Caps Lock, and the extended navigation keys with their own codes.  The three
tables of `kern/console.c` agree on the extended keys except for one: `ctlmap` has the code of
Home at `0x97`, where no key finds it.

Principal result: `keyLaw_iff` — the keys have their characters behind every history but one
that leaves `CTL` set, and only Home differs there.
-/

set_option autoImplicit false

namespace Jos

/-! ## The keyboard's layout -/

/-- The keys from a code on, row by row. -/
def keyRow (first : Nat) (row : List Char) : List (Byte × Char) :=
  row.zipIdx.map fun (c, i) => (BitVec.ofNat 8 (first + i), c)

def letterKeys : List (Byte × Char) :=
  keyRow 0x10 "qwertyuiop".toList ++ keyRow 0x1E "asdfghjkl".toList ++
    keyRow 0x2C "zxcvbnm".toList

/-- The codes of the letter keys. -/
def letterCodes : List Byte := letterKeys.map Prod.fst

/-- The keys that send an `E0` in front of these codes. -/
def navigationKeys : List (Byte × Byte) :=
  [(0x47, KEY_HOME), (0x48, KEY_UP), (0x49, KEY_PGUP), (0x4B, KEY_LF), (0x4D, KEY_RT),
    (0x4F, KEY_END), (0x50, KEY_DN), (0x51, KEY_PGDN), (0x52, KEY_INS), (0x53, KEY_DEL)]

/-- The character of a letter key. -/
def letterChar (l : Char) (shift : Word) : Byte :=
  if shift &&& CTL ≠ 0 then char l &&& 0x1F
  else if shift &&& SHIFT ≠ 0 ↔ shift &&& CAPSLOCK ≠ 0 then char l
  else char l.toUpper

variable {ε : Type} (d : Device ε) (m : Console (List Scan × ε)) (rest : List Scan)

/-- `kbd_proc_data` reads a history and then a byte: the bits that the history leaves, and what
the last call returns. -/
def keyResult (bs : List Byte) (b : Byte) : Except Fault (Word × Int) := do
  let (_, k) ← kbdCalls (i8042 d) bs.length
    ⟨m.withPending (bs.map Scan.key ++ Scan.key b :: rest), 0⟩
  let (c, _) ← kbdProcData (i8042 d) k
  .ok (k.shift, c)

/-- A byte that is not a letter key behind the history. -/
def OtherKey (bs : List Byte) (b : Byte) : Prop :=
  bs.getLast? = some 0xE0 ∨ b ∉ letterCodes

/-- A key yields its character behind the history. -/
structure KeyLaw (bs : List Byte) (b : Byte) : Prop where
  letter : ∀ l, (b, l) ∈ letterKeys → bs.getLast? ≠ some 0xE0 →
    ∃ shift, keyResult d m rest bs b = .ok (shift, (letterChar l shift).toNat)
  /-- Caps Lock does not matter: another history that leaves the same `SHIFT`, `CTL` and escape
  yields the same. -/
  other : OtherKey bs b → ∃ shift c, keyResult d m rest bs b = .ok (shift, c) ∧
    ∀ bs' shift' c', keyResult d m rest bs' b = .ok (shift', c') →
      shift &&& (E0ESC ||| SHIFT ||| CTL) = shift' &&& (E0ESC ||| SHIFT ||| CTL) → c = c'
  navigation : ∀ code, (b, code) ∈ navigationKeys → bs.getLast? = some 0xE0 →
    ∃ shift, keyResult d m rest bs b = .ok (shift, code.toNat)

variable {d m rest}

theorem keyResult_eq (bs : List Byte) (b : Byte) :
    keyResult d m rest bs b = .ok (shiftAfter bs 0, (kbdDecode b (shiftAfter bs 0)).1) := by
  obtain ⟨k, hcalls, hshift, hpending⟩ := @kbdCalls_keys ε d bs
    ⟨m.withPending (bs.map Scan.key ++ Scan.key b :: rest), 0⟩ (Scan.key b :: rest) rfl
  obtain ⟨k', hcall, -, -⟩ := @kbdProcData_key ε d k (Scan.key b) rest hpending rfl
  rw [hshift] at hcall
  refine bind_ok.mpr ⟨_, hcalls, bind_ok.mpr ⟨_, hcall, ?_⟩⟩
  rw [← hshift]
  rfl

/-! ## The tables -/

/-- The bits of `shift` that the character depends on. -/
def charBits : Word := SHIFT ||| CTL ||| CAPSLOCK

theorem and_charBits (shift : Word) {mask : Word} (h : charBits &&& mask = mask) :
    shift &&& charBits &&& mask = shift &&& mask := by
  rw [BitVec.and_assoc, h]

theorem kbdChar_charBits (data : Byte) (shift : Word) :
    kbdChar data shift = kbdChar data (shift &&& charBits) := by
  unfold kbdChar
  rw [and_charBits shift (by decide), and_charBits shift (by decide)]

theorem letterChar_charBits (l : Char) (shift : Word) :
    letterChar l shift = letterChar l (shift &&& charBits) := by
  unfold letterChar
  rw [and_charBits shift (by decide), and_charBits shift (by decide),
    and_charBits shift (by decide)]

/-- A statement about the bits that the character depends on has few cases. -/
theorem charBits_cases {P : Word → Prop} (h : ∀ n < 12, P (BitVec.ofNat 32 n)) (shift : Word) :
    P (shift &&& charBits) := by
  have hle : (shift &&& charBits).toNat ≤ 11 := by
    rw [BitVec.toNat_and]
    exact Nat.and_le_right
  have hcase := h (shift &&& charBits).toNat (by omega)
  rwa [BitVec.ofNat_toNat, BitVec.setWidth_eq] at hcase

/-- A list is gone through by `all`. -/
theorem forall_of_all {α : Type} {P : α → Prop} [DecidablePred P] {l : List α}
    (h : (l.all fun a => decide (P a)) = true) : ∀ a ∈ l, P a := fun a ha =>
  of_decide_eq_true (List.all_eq_true.mp h a ha)

theorem letterKeys_table : ∀ p ∈ letterKeys, ∀ n < 12,
    kbdChar p.1 (BitVec.ofNat 32 n) = (letterChar p.2 (BitVec.ofNat 32 n)).toNat :=
  forall_of_all (by decide +kernel)

theorem navigationKeys_table : ∀ p ∈ navigationKeys, ∀ n < 12,
    kbdChar (p.1 ||| 0x80) (BitVec.ofNat 32 n) =
      if p.1 = 0x47 ∧ BitVec.ofNat 32 n &&& CTL ≠ 0 then 0 else p.2.toNat :=
  forall_of_all (by decide +kernel)

/-- What holds of every entry of a table, written or not, holds of every access. -/
theorem table_entry {P : Byte → Byte → Prop} {entries : List Byte}
    {designated : List (Byte × Byte)} (hdesignated : ∀ p ∈ designated, P p.1 p.2)
    (hentries : ∀ p ∈ entries.zipIdx, P (BitVec.ofNat 8 p.2) p.1) (hzero : ∀ i, P i 0) (i : Byte) :
    P i (table entries designated i) := by
  unfold table
  cases hlookup : designated.lookup i with
  | some v =>
    obtain ⟨before, after, heq, -⟩ := List.lookup_eq_some_iff.mp hlookup
    exact hdesignated (i, v) (by rw [heq]; simp)
  | none =>
    show P i (entries.getD i.toNat 0)
    rw [List.getD_eq_getElem?_getD]
    cases hget : entries[i.toNat]? with
    | none => exact hzero i
    | some t =>
      have hentry := hentries (t, i.toNat) (List.mk_mem_zipIdx_iff_getElem?.mpr hget)
      rwa [BitVec.ofNat_toNat, BitVec.setWidth_eq] at hentry

/-- Caps Lock changes the character only if the key is a letter key. -/
def LetterOnly (key c : Byte) : Prop :=
  swapCase c.toNat = c.toNat ∨ letterCodes.contains key = true

instance (key c : Byte) : Decidable (LetterOnly key c) := inferInstanceAs (Decidable (_ ∨ _))

/-- No other key has a letter in any table. -/
theorem letterOnly_charcode (i : Word) (data : Byte) : LetterOnly data (charcode i data) := by
  have hzero : ∀ key, LetterOnly key 0 := fun _ => Or.inl (by decide)
  unfold charcode
  split
  · exact table_entry (forall_of_all (by decide +kernel)) (forall_of_all (by decide +kernel))
      hzero data
  split
  · exact table_entry (forall_of_all (by decide +kernel)) (forall_of_all (by decide +kernel))
      hzero data
  · exact table_entry (forall_of_all (by decide +kernel)) (forall_of_all (by decide +kernel))
      hzero data

/-- The code of a key is a make code, and the key by which the decoder knows it is neither a
modifier nor a lock. -/
structure PlainKey (code key : Byte) : Prop where
  noEscape : code ≠ 0xE0
  make : code &&& 0x80 = 0
  noModifier : shiftcode key = 0
  noLock : togglecode key = 0

instance (code key : Byte) : Decidable (PlainKey code key) :=
  decidable_of_iff (code ≠ 0xE0 ∧ code &&& 0x80 = 0 ∧ shiftcode key = 0 ∧ togglecode key = 0)
    ⟨fun ⟨h1, h2, h3, h4⟩ => ⟨h1, h2, h3, h4⟩, fun ⟨h1, h2, h3, h4⟩ => ⟨h1, h2, h3, h4⟩⟩

theorem letterKeys_plain : ∀ p ∈ letterKeys, PlainKey p.1 p.1 :=
  forall_of_all (by decide +kernel)

theorem navigationKeys_plain : ∀ p ∈ navigationKeys, PlainKey p.1 (p.1 ||| 0x80) :=
  forall_of_all (by decide +kernel)

theorem mem_letterCodes {key : Byte} : key ∈ letterCodes ↔ ∃ l, (key, l) ∈ letterKeys := by
  unfold letterCodes
  simp

/-- No letter key is extended. -/
theorem extended_not_letter (b : Byte) : b ||| 0x80 ∉ letterCodes := by
  intro hmem
  have hbit : ∀ b : Byte, (b ||| 0x80) &&& 0x80 ≠ 0 := by decide +kernel
  obtain ⟨l, hl⟩ := mem_letterCodes.mp hmem
  exact hbit b (letterKeys_plain _ hl).make

/-! ## One key -/

variable {b : Byte} {shift : Word}

theorem kbdDecode_make (hb : b ≠ 0xE0) (hmake : b &&& 0x80 = 0) (shift : Word) :
    kbdDecode b shift = kbdPress b shift := by
  rw [kbdDecode, if_neg hb, if_neg (not_not_intro hmake)]

theorem kbdUnescape_none (h : ¬shift &&& E0ESC ≠ 0) : kbdUnescape b shift = (b, shift) :=
  if_neg h

theorem kbdUnescape_pending (h : shift &&& E0ESC ≠ 0) :
    kbdUnescape b shift = (b ||| 0x80, shift &&& ~~~E0ESC) := if_pos h

/-- A key that is neither a modifier nor a lock leaves the bits as they are. -/
theorem kbdPress_char {data : Byte} {shift' : Word} (hun : kbdUnescape b shift = (data, shift'))
    (hshift : shiftcode data = 0) (htoggle : togglecode data = 0) :
    (kbdPress b shift).1 = kbdChar data shift' := by
  unfold kbdPress
  rw [hun]
  simp only [hshift, htoggle]
  rw [show BitVec.setWidth 32 (0 : Byte) = 0#32 by decide, BitVec.or_zero, BitVec.xor_zero]

theorem letter_decode {l : Char} (hl : (b, l) ∈ letterKeys) (h : ¬shift &&& E0ESC ≠ 0) :
    (kbdDecode b shift).1 = (letterChar l shift).toNat := by
  obtain ⟨hb, hmake, hshift, htoggle⟩ := letterKeys_plain (b, l) hl
  rw [kbdDecode_make hb hmake, kbdPress_char (kbdUnescape_none h) hshift htoggle,
    kbdChar_charBits, letterChar_charBits]
  exact @charBits_cases (fun w => kbdChar b w = (letterChar l w).toNat)
    (letterKeys_table (b, l) hl) shift

theorem navigation_decode {code : Byte} (hcode : (b, code) ∈ navigationKeys)
    (h : shift &&& E0ESC ≠ 0) :
    (kbdDecode b shift).1 = if b = 0x47 ∧ shift &&& CTL ≠ 0 then 0 else code.toNat := by
  obtain ⟨hb, hmake, hshift, htoggle⟩ := navigationKeys_plain (b, code) hcode
  have hkeep : shift &&& ~~~E0ESC &&& charBits = shift &&& charBits := by
    rw [BitVec.and_assoc, show ~~~E0ESC &&& charBits = charBits by decide]
  rw [kbdDecode_make hb hmake, kbdPress_char (kbdUnescape_pending h) hshift htoggle,
    kbdChar_charBits, hkeep, ← and_charBits shift (show charBits &&& CTL = CTL by decide)]
  exact @charBits_cases
    (fun w => kbdChar (b ||| 0x80) w = if b = 0x47 ∧ w &&& CTL ≠ 0 then 0 else code.toNat)
    (navigationKeys_table (b, code) hcode) shift

theorem and_eq_of_mask {mask w w' : Word} (h : w &&& mask = w' &&& mask) {part : Word}
    (hpart : mask &&& part = part) : w &&& part = w' &&& part := by
  rw [← hpart, ← BitVec.and_assoc, ← BitVec.and_assoc, h]

/-- Setting and flipping bits commutes with selecting some of them. -/
theorem and_of_press {w w' mask : Word} (h : w &&& mask = w' &&& mask) (set flip : Word) :
    ((w ||| set) ^^^ flip) &&& mask = ((w' ||| set) ^^^ flip) &&& mask := by
  apply BitVec.eq_of_getLsbD_eq
  intro i _
  have hbit := congrArg (fun v => v.getLsbD i) h
  simp only [BitVec.getLsbD_and, BitVec.getLsbD_xor, BitVec.getLsbD_or] at hbit ⊢
  cases hmask : mask.getLsbD i with
  | false => rw [Bool.and_false, Bool.and_false]
  | true =>
    rw [hmask, Bool.and_true, Bool.and_true] at hbit
    rw [hbit]

/-- A key without letters yields what the table selected by `SHIFT` and `CTL` has. -/
theorem kbdPress_other {data : Byte} (hdata : data ∉ letterCodes) {w w' v v' : Word}
    (hw : kbdUnescape b w = (data, v)) (hw' : kbdUnescape b w' = (data, v'))
    (h : v &&& (CTL ||| SHIFT) = v' &&& (CTL ||| SHIFT)) :
    (kbdPress b w).1 = (kbdPress b w').1 := by
  have hchar : ∀ u, kbdChar data u = (charcode (u &&& (CTL ||| SHIFT)) data).toNat := by
    intro u
    unfold kbdChar
    simp only
    split
    · refine (letterOnly_charcode _ data).resolve_right ?_
      rw [List.contains_iff_mem]
      exact hdata
    · rfl
  unfold kbdPress
  rw [hw, hw']
  simp only [hchar]
  rw [and_of_press h]

/-- **Caps Lock does not change the other keys.** -/
theorem other_decode {shift' : Word}
    (hother : shift &&& E0ESC ≠ 0 ∨ b ∉ letterCodes)
    (hsame : shift &&& (E0ESC ||| SHIFT ||| CTL) = shift' &&& (E0ESC ||| SHIFT ||| CTL)) :
    (kbdDecode b shift).1 = (kbdDecode b shift').1 := by
  have hescape : shift &&& E0ESC = shift' &&& E0ESC := and_eq_of_mask hsame (by decide)
  have htable : shift &&& (CTL ||| SHIFT) = shift' &&& (CTL ||| SHIFT) :=
    and_eq_of_mask hsame (by decide)
  by_cases hb : b = 0xE0
  · rw [kbdDecode, kbdDecode, if_pos hb, if_pos hb]
  by_cases hbreak : b &&& 0x80 = 0
  · rw [kbdDecode_make hb hbreak, kbdDecode_make hb hbreak]
    by_cases hpending : shift &&& E0ESC ≠ 0
    · refine kbdPress_other (extended_not_letter b) (kbdUnescape_pending hpending)
        (kbdUnescape_pending (hescape ▸ hpending)) ?_
      rw [BitVec.and_assoc, BitVec.and_assoc,
        show ~~~E0ESC &&& (CTL ||| SHIFT) = CTL ||| SHIFT by decide]
      exact htable
    · exact kbdPress_other (hother.resolve_left hpending) (kbdUnescape_none hpending)
        (kbdUnescape_none (hescape ▸ hpending)) htable
  · rw [kbdDecode, kbdDecode, if_neg hb, if_neg hb, if_pos hbreak, if_pos hbreak]

/-! ## Every key behind every history -/

/-- **The characters of the keys.**  Every key has its own behind every history, except Home
behind one that leaves `CTL` set. -/
theorem keyLaw_iff (d : Device ε) (m : Console (List Scan × ε)) (rest : List Scan)
    (bs : List Byte) (b : Byte) :
    KeyLaw d m rest bs b ↔
      ¬(b = 0x47 ∧ bs.getLast? = some 0xE0 ∧ lastMade [0x1D, 0x9D] (split bs).events = true) := by
  have hform := (split_agrees bs).closedForm
  rw [← hform.escape, ← hform.ctl]
  constructor
  · rintro law ⟨rfl, hescape, hctl⟩
    obtain ⟨shift, hresult⟩ := law.navigation KEY_HOME (by decide) (hform.escape.mp hescape)
    rw [keyResult_eq, navigation_decode (show (0x47, KEY_HOME) ∈ navigationKeys by decide) hescape,
      if_pos ⟨rfl, hctl⟩] at hresult
    have hzero : (0 : Int) = KEY_HOME.toNat := congrArg Prod.snd (Except.ok.inj hresult)
    exact absurd hzero (by decide)
  · intro hhome
    refine ⟨fun l hl hescape => ⟨shiftAfter bs 0, ?_⟩, fun hother => ?_, fun code hcode hescape =>
      ⟨shiftAfter bs 0, ?_⟩⟩
    · rw [keyResult_eq, letter_decode hl (mt hform.escape.mp hescape)]
    · refine ⟨_, _, keyResult_eq bs b, fun bs' shift' c' hresult hsame => ?_⟩
      rw [keyResult_eq] at hresult
      obtain ⟨rfl, rfl⟩ := Prod.mk.inj (Except.ok.inj hresult)
      exact other_decode (hother.imp_left hform.escape.mpr) hsame
    · have hpending := hform.escape.mpr hescape
      rw [keyResult_eq, navigation_decode hcode hpending,
        if_neg fun h => hhome ⟨h.1, hpending, h.2⟩]

/-- The control key and then Home yield no character. -/
theorem controlHome_not_law :
    ¬KeyLaw readyDevice ⟨⟨([], ()), []⟩, ⟨.cga, fun _ => 0x0720, 0, []⟩⟩ [] [0x1D, 0xE0] 0x47 := by
  intro law
  obtain ⟨shift, hresult⟩ := law.navigation KEY_HOME (by decide) rfl
  rw [keyResult_eq] at hresult
  have hhome : (kbdDecode 0x47 (shiftAfter [0x1D, 0xE0] 0)).1 = KEY_HOME.toNat :=
    congrArg Prod.snd (Except.ok.inj hresult)
  exact absurd hhome (by decide +kernel)

end Jos
