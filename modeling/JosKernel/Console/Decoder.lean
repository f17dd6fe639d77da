import JosKernel.Console.Controller

/-!
# The state of the keyboard decoder

`split` cuts a byte sequence into key events: `E0` announces an extended key, a byte from
`0x80` on is a break and any other byte a make.  The bits of `shift` are then a function of the
events: a modifier bit is the last event of its keys, a lock bit the parity of its makes.

Principal results: `Split.Agrees.decode` — one byte keeps the closed form;
`keyboard_closed_form` — it holds after every byte sequence, whatever it is.
-/

set_option autoImplicit false

namespace Jos

/-! ## Key events -/

/-- A make or a break of a key; an extended key has bit 7 set. -/
structure KeyEvent where
  key : Byte
  make : Bool
  deriving DecidableEq, Repr

/-- The key events so far, and whether an escape is pending. -/
structure Split where
  pending : Bool
  events : List KeyEvent

def Split.byte (s : Split) (b : Byte) : Split :=
  if b = 0xE0 then { s with pending := true }
  else if b.toNat ≥ 0x80 then
    ⟨false, s.events ++ [⟨if s.pending then b else b - 0x80, false⟩]⟩
  else ⟨false, s.events ++ [⟨if s.pending then b + 0x80 else b, true⟩]⟩

def split (bs : List Byte) : Split := bs.foldl Split.byte ⟨false, []⟩

/-- The last event on one of the keys was a make. -/
def lastMade (keys : List Byte) (es : List KeyEvent) : Bool :=
  (es.filter fun e => e.key ∈ keys).getLast?.any KeyEvent.make

/-- The number of makes of a key. -/
def makes (key : Byte) (es : List KeyEvent) : Nat :=
  (es.filter fun e => e.key = key ∧ e.make = true).length

theorem lastMade_append (keys : List Byte) (es : List KeyEvent) (e : KeyEvent) :
    lastMade keys (es ++ [e]) = if e.key ∈ keys then e.make else lastMade keys es := by
  unfold lastMade
  rw [List.filter_append]
  split
  · rename_i h
    simp [h]
  · rename_i h
    simp [h]

theorem makes_append (key : Byte) (es : List KeyEvent) (e : KeyEvent) :
    makes key (es ++ [e]) = makes key es + if e.key = key ∧ e.make = true then 1 else 0 := by
  unfold makes
  rw [List.filter_append, List.length_append]
  split
  · rename_i h
    simp [h]
  · rename_i h
    simp [h]

/-! ## The bits of `shift` -/

/-- The keys that hold bit `i` of `shift`. -/
def modifierKeys : Nat → List Byte
  | 0 => [0x2A, 0x36]
  | 1 => [0x1D, 0x9D]
  | 2 => [0x38, 0xB8]
  | _ => []

/-- The key that flips bit `i` of `shift`. -/
def lockKey : Nat → Option Byte
  | 3 => some 0x3A
  | 4 => some 0x45
  | 5 => some 0x46
  | _ => none

theorem modifierKeys_of_ge : ∀ {i : Nat}, 3 ≤ i → modifierKeys i = []
  | _ + 3, _ => rfl

theorem lockKey_of_lt : ∀ {i : Nat}, i < 3 → lockKey i = none
  | 0, _ => rfl
  | 1, _ => rfl
  | 2, _ => rfl

theorem lockKey_of_ge : ∀ {i : Nat}, 6 ≤ i → lockKey i = none
  | _ + 6, _ => rfl

/-- Bit `i` of `shift` as the events determine it. -/
def Split.bit (s : Split) (i : Nat) : Bool :=
  if i < 3 then lastMade (modifierKeys i) s.events
  else if i < 6 then (lockKey i).any fun key => makes key s.events % 2 = 1
  else i = 6 && s.pending

/-- `shift` is what the events determine. -/
def Split.Agrees (s : Split) (shift : Word) : Prop := ∀ i, shift.getLsbD i = s.bit i

set_option maxRecDepth 10000 in
theorem shiftcode_low : ∀ b : Byte, ∀ i < 8,
    (shiftcode b).getLsbD i = decide (b ∈ modifierKeys i) := by decide +kernel

set_option maxRecDepth 10000 in
theorem togglecode_low : ∀ b : Byte, ∀ i < 8,
    (togglecode b).getLsbD i = decide (lockKey i = some b) := by decide +kernel

theorem shiftcode_bit (b : Byte) (i : Nat) :
    ((shiftcode b).setWidth 32).getLsbD i = decide (b ∈ modifierKeys i) := by
  rw [BitVec.getLsbD_setWidth]
  by_cases hi : i < 8
  · rw [shiftcode_low b i hi, decide_eq_true (show i < 32 by omega), Bool.true_and]
  · rw [BitVec.getLsbD_of_ge _ _ (by omega), modifierKeys_of_ge (by omega)]
    simp

theorem togglecode_bit (b : Byte) (i : Nat) :
    ((togglecode b).setWidth 32).getLsbD i = decide (lockKey i = some b) := by
  rw [BitVec.getLsbD_setWidth]
  by_cases hi : i < 8
  · rw [togglecode_low b i hi, decide_eq_true (show i < 32 by omega), Bool.true_and]
  · rw [BitVec.getLsbD_of_ge _ _ (by omega), lockKey_of_ge (by omega)]
    simp

theorem E0ESC_bit (i : Nat) : E0ESC.getLsbD i = decide (i = 6) := by
  show (BitVec.twoPow 32 6).getLsbD i = _
  rw [BitVec.getLsbD_twoPow]
  by_cases h : i = 6
  · simp [h]
  · simp [h, Ne.symm h]

/-- The test of a bit of `shift`. -/
theorem and_bit_ne_zero (w : Word) {i : Nat} (hi : i < 32) :
    w &&& BitVec.twoPow 32 i ≠ 0 ↔ w.getLsbD i = true := by
  rw [BitVec.and_twoPow]
  cases w.getLsbD i with
  | false => simp
  | true =>
    simp only [if_true, iff_true]
    intro h
    have hbit := congrArg (fun v => v.getLsbD i) h
    simp at hbit
    omega

theorem escape_iff (w : Word) : w &&& E0ESC ≠ 0 ↔ w.getLsbD 6 = true :=
  and_bit_ne_zero w (by decide)

/-! ## One byte -/

theorem break_iff : ∀ b : Byte, b &&& 0x80 ≠ 0 ↔ b.toNat ≥ 0x80 := by decide +kernel

theorem break_key : ∀ b : Byte, b.toNat ≥ 0x80 → b &&& 0x7F = b - 0x80 := by decide +kernel

theorem make_key : ∀ b : Byte, b.toNat < 0x80 → b ||| 0x80 = b + 0x80 := by decide +kernel

variable {s : Split} {shift : Word}

theorem Split.Agrees.escaped (h : s.Agrees shift) : shift &&& E0ESC ≠ 0 ↔ s.pending = true := by
  rw [escape_iff, h 6]
  simp [Split.bit]

/-- An escape sets its own bit. -/
theorem Split.Agrees.escape (h : s.Agrees shift) :
    Split.Agrees { s with pending := true } (shift ||| E0ESC) := by
  intro i
  rw [BitVec.getLsbD_or, h i, E0ESC_bit]
  unfold Split.bit
  by_cases hi : i = 6
  · simp [hi]
  · simp [hi]

/-- A break clears the bit of its key and the escape. -/
theorem Split.Agrees.release (h : s.Agrees shift) (key : Byte) :
    Split.Agrees ⟨false, s.events ++ [⟨key, false⟩]⟩
      (shift &&& ~~~((shiftcode key).setWidth 32 ||| E0ESC)) := by
  intro i
  rw [BitVec.getLsbD_and, BitVec.getLsbD_not, BitVec.getLsbD_or, h i, shiftcode_bit, E0ESC_bit]
  unfold Split.bit
  by_cases hmod : i < 3
  · simp only [if_pos hmod, lastMade_append]
    by_cases hkey : key ∈ modifierKeys i
    · simp [hkey]
    · simp [hkey, show i < 32 by omega, show i ≠ 6 by omega]
  have hnone : modifierKeys i = [] := modifierKeys_of_ge (by omega)
  simp only [if_neg hmod, hnone]
  by_cases hlock : i < 6
  · simp [hlock, show i < 32 by omega, show i ≠ 6 by omega, makes_append]
  · by_cases hi : i = 6
    · simp [hi]
    · simp [hi, hlock]

/-- A make sets or flips the bit of its key. -/
theorem Split.Agrees.press (h : s.Agrees shift) (key : Byte) (hp : s.pending = false) :
    Split.Agrees ⟨false, s.events ++ [⟨key, true⟩]⟩
      ((shift ||| (shiftcode key).setWidth 32) ^^^ (togglecode key).setWidth 32) := by
  intro i
  rw [BitVec.getLsbD_xor, BitVec.getLsbD_or, h i, shiftcode_bit, togglecode_bit]
  unfold Split.bit
  by_cases hmod : i < 3
  · simp only [if_pos hmod, lastMade_append, lockKey_of_lt hmod]
    by_cases hkey : key ∈ modifierKeys i
    · simp [hkey]
    · simp [hkey]
  have hnone : modifierKeys i = [] := modifierKeys_of_ge (by omega)
  simp only [if_neg hmod, hnone]
  by_cases hlock : i < 6
  · cases hkey : lockKey i with
    | none => simp [hlock]
    | some lock =>
      simp only [if_pos hlock, Option.any_some, makes_append, Option.some.injEq]
      by_cases heq : key = lock
      · simp only [heq, List.not_mem_nil, decide_false, Bool.or_false, true_and, if_true,
          decide_true, Bool.xor_true]
        rw [← decide_not, decide_eq_decide]
        omega
      · simp [heq, Ne.symm heq]
  · simp [hlock, lockKey_of_ge (Nat.le_of_not_lt hlock), hp]

/-- Taking the escape away. -/
theorem Split.Agrees.unescape (h : s.Agrees shift) :
    Split.Agrees { s with pending := false } (shift &&& ~~~E0ESC) := by
  intro i
  rw [BitVec.getLsbD_and, BitVec.getLsbD_not, h i, E0ESC_bit]
  unfold Split.bit
  by_cases hi : i = 6
  · simp [hi]
  · by_cases hlock : i < 6
    · simp [hi, show i < 32 by omega, hlock]
    · simp [hi, hlock, show ¬i < 3 by omega]

/-- The key of a make code, and the bits without the escape. -/
theorem Split.Agrees.unescaped (h : s.Agrees shift) {b : Byte} (hlow : b.toNat < 0x80) :
    (kbdUnescape b shift).1 = (if s.pending then b + 0x80 else b) ∧
      Split.Agrees { s with pending := false } (kbdUnescape b shift).2 := by
  unfold kbdUnescape
  simp only [h.escaped, make_key b hlow]
  cases hp : s.pending with
  | true => exact ⟨rfl, h.unescape⟩
  | false =>
    have hsame : { s with pending := false } = s := by rw [← hp]
    rw [hsame]
    exact ⟨rfl, h⟩

/-- **One byte keeps the closed form.** -/
theorem Split.Agrees.decode (h : s.Agrees shift) (b : Byte) :
    (s.byte b).Agrees (kbdDecode b shift).2 := by
  unfold Split.byte kbdDecode
  by_cases hesc : b = 0xE0
  · rw [if_pos hesc, if_pos hesc]
    exact h.escape
  rw [if_neg hesc, if_neg hesc]
  by_cases hbreak : b.toNat ≥ 0x80
  · -- the escape decides which of the two keys with this code is released
    have hkey : (if shift &&& E0ESC ≠ 0 then b else b &&& 0x7F) =
        if s.pending then b else b - 0x80 := by
      rw [break_key b hbreak]
      simp only [h.escaped]
    rw [if_pos hbreak, if_pos ((break_iff b).2 hbreak)]
    simp only [kbdRelease, hkey]
    exact h.release _
  · obtain ⟨hkey, hclear⟩ := h.unescaped (Nat.lt_of_not_le hbreak)
    rw [if_neg hbreak, if_neg (fun hb => hbreak ((break_iff b).1 hb)), ← hkey]
    exact hclear.press _ rfl

/-! ## Byte sequences -/

theorem split_append (bs : List Byte) (b : Byte) : split (bs ++ [b]) = (split bs).byte b := by
  simp [split]

/-- An escape is pending exactly behind an `E0`. -/
theorem split_pending (bs : List Byte) : (split bs).pending = true ↔ bs.getLast? = some 0xE0 := by
  rcases List.eq_nil_or_concat bs with rfl | ⟨init, b, rfl⟩
  · simp [split]
  · rw [List.concat_eq_append, split_append, List.getLast?_concat, Option.some.injEq]
    unfold Split.byte
    by_cases hb : b = 0xE0
    · simp [hb]
    · rw [if_neg hb]
      split <;> exact iff_of_false Bool.false_ne_true hb

/-- `shift` after a byte sequence. -/
def shiftAfter (bs : List Byte) (shift : Word) : Word :=
  bs.foldl (fun shift b => (kbdDecode b shift).2) shift

theorem Split.Agrees.run : ∀ (bs : List Byte) {s : Split} {shift : Word}, s.Agrees shift →
    (bs.foldl Split.byte s).Agrees (shiftAfter bs shift)
  | [], _, _, h => h
  | b :: bs, _, _, h => Split.Agrees.run bs (h.decode b)

theorem Split.agrees_zero : Split.Agrees ⟨false, []⟩ 0 := by
  intro i
  unfold Split.bit
  split
  · simp [lastMade]
  split
  · cases lockKey i with
    | none => simp
    | some key => simp [makes]
  · simp

/-- The bits after a byte sequence. -/
theorem split_agrees (bs : List Byte) : (split bs).Agrees (shiftAfter bs 0) :=
  Split.agrees_zero.run bs

/-! ## Calls of `kbd_proc_data` -/

/-- `n` calls of `kbd_proc_data`: the results, in order. -/
def kbdCalls {δ : Type} (d : Device δ) :
    Nat → Keyboard δ → Except Fault (List Int × Keyboard δ)
  | 0, k => .ok ([], k)
  | n + 1, k => do
      let (c, k) ← kbdProcData d k
      let (cs, k) ← kbdCalls d n k
      .ok (c :: cs, k)

/-- The results for a byte sequence. -/
def resultsOf : List Byte → Word → List Int
  | [], _ => []
  | b :: bs, shift => (kbdDecode b shift).1 :: resultsOf bs (kbdDecode b shift).2

theorem resultsOf_range : ∀ (bs : List Byte) (shift : Word), ∀ c ∈ resultsOf bs shift,
    0 ≤ c ∧ c ≤ 255
  | [], _, c, hc => absurd hc List.not_mem_nil
  | b :: bs, shift, c, hc => by
    rcases List.mem_cons.1 hc with rfl | hc
    · exact kbdDecode_range b shift
    · exact resultsOf_range bs _ c hc

variable {ε : Type} {d : Device ε}

/-- The calls take the keyboard bytes out of the controller one by one. -/
theorem kbdCalls_keys : ∀ (bs : List Byte) {k : Typing ε} {rest : List Scan},
    k.con.pending = bs.map Scan.key ++ rest →
    ∃ k', kbdCalls (i8042 d) bs.length k = .ok (resultsOf bs k.shift, k') ∧
      k'.shift = shiftAfter bs k.shift ∧ k'.con.pending = rest
  | [], k, _, h => ⟨k, rfl, rfl, h⟩
  | b :: bs, k, rest, h => by
    obtain ⟨k1, hcall, hshift, hpending⟩ := @kbdProcData_key ε d k _ _ h rfl
    obtain ⟨k2, hcalls, hshift', hpending'⟩ := kbdCalls_keys bs hpending
    rw [hshift] at hcalls hshift'
    refine ⟨k2, ?_, hshift', hpending'⟩
    exact bind_ok.mpr ⟨_, hcall, bind_ok.mpr ⟨_, hcalls, rfl⟩⟩

/-- A call returns -1 or a byte value. -/
theorem kbdProcData_range {δ : Type} {d : Device δ} {k k' : Keyboard δ} {c : Int}
    (h : kbdProcData d k = .ok (c, k')) : c = -1 ∨ 0 ≤ c ∧ c ≤ 255 := by
  unfold kbdProcData at h
  simp only at h
  split at h
  · cases h
    exact Or.inl rfl
  split at h
  · cases h
    exact Or.inl rfl
  refine Or.inr ?_
  split at h
  · cases h
    decide
  split at h
  · cases h
    decide
  split at h
  · obtain ⟨con, -, hcon⟩ := bind_ok.mp h
    cases hcon
    exact kbdChar_range _ _
  · cases h
    exact kbdChar_range _ _

/-! ## The closed form -/

/-- `shift` as a function of the bytes. -/
structure ClosedForm (bs : List Byte) (shift : Word) : Prop where
  escape : shift &&& E0ESC ≠ 0 ↔ bs.getLast? = some 0xE0
  shifted : shift &&& SHIFT ≠ 0 ↔ lastMade [0x2A, 0x36] (split bs).events = true
  ctl : shift &&& CTL ≠ 0 ↔ lastMade [0x1D, 0x9D] (split bs).events = true
  alt : shift &&& ALT ≠ 0 ↔ lastMade [0x38, 0xB8] (split bs).events = true
  capslock : shift &&& CAPSLOCK ≠ 0 ↔ makes 0x3A (split bs).events % 2 = 1
  numlock : shift &&& NUMLOCK ≠ 0 ↔ makes 0x45 (split bs).events % 2 = 1
  scrolllock : shift &&& SCROLLLOCK ≠ 0 ↔ makes 0x46 (split bs).events % 2 = 1
  noOther : shift &&&
    ~~~(SHIFT ||| CTL ||| ALT ||| CAPSLOCK ||| NUMLOCK ||| SCROLLLOCK ||| E0ESC) = 0

theorem Split.Agrees.closedForm {bs : List Byte} {shift : Word} (h : (split bs).Agrees shift) :
    ClosedForm bs shift := by
  have hbit : ∀ i < 7, shift &&& BitVec.twoPow 32 i ≠ 0 ↔ (split bs).bit i = true := by
    intro i hi
    rw [and_bit_ne_zero shift (by omega), h i]
  have hescape : (split bs).bit 6 = (split bs).pending := by simp [Split.bit]
  constructor
  · rw [← split_pending, ← hescape]
    exact hbit 6 (by decide)
  · exact hbit 0 (by decide)
  · exact hbit 1 (by decide)
  · exact hbit 2 (by decide)
  · exact (hbit 3 (by decide)).trans decide_eq_true_iff
  · exact (hbit 4 (by decide)).trans decide_eq_true_iff
  · exact (hbit 5 (by decide)).trans decide_eq_true_iff
  · apply BitVec.eq_of_getLsbD_eq
    intro i _
    rw [BitVec.getLsbD_and, h i]
    by_cases hi : i < 7
    · have hmask : ∀ i < 7, (~~~(SHIFT ||| CTL ||| ALT ||| CAPSLOCK ||| NUMLOCK ||| SCROLLLOCK |||
          E0ESC)).getLsbD i = false := by decide
      rw [hmask i hi, Bool.and_false]
      exact BitVec.getLsbD_zero.symm
    · have hunused : (split bs).bit i = false := by
        simp [Split.bit, show ¬i < 3 by omega, show ¬i < 6 by omega, show i ≠ 6 by omega]
      rw [hunused, Bool.false_and]
      exact BitVec.getLsbD_zero.symm

/-- A console whose controller holds the given bytes. -/
def Console.withPending {ε : Type} (q : List Scan) (m : Console (List Scan × ε)) :
    Console (List Scan × ε) :=
  { m with io := { m.io with dev := (q, m.io.dev.2) } }

/-- **The closed form of the decoder state**, behind every sequence of keyboard bytes, with any
    other bytes behind it in the controller and any other hardware around it.  A result is -1
    for "no data" or a byte value. -/
theorem keyboard_closed_form (d : Device ε) (m : Console (List Scan × ε)) (bs : List Byte)
    (rest : List Scan) :
    ∃ results k', kbdCalls (i8042 d) bs.length
        ⟨m.withPending (bs.map Scan.key ++ rest), 0⟩ = .ok (results, k') ∧
      k'.con.pending = rest ∧ ClosedForm bs k'.shift ∧ (∀ c ∈ results, 0 ≤ c ∧ c ≤ 255) ∧
      ∀ c k'', kbdProcData (i8042 d) k' = .ok (c, k'') → c = -1 ∨ 0 ≤ c ∧ c ≤ 255 := by
  obtain ⟨k', hcalls, hshift, hpending⟩ :=
    @kbdCalls_keys ε d bs ⟨m.withPending (bs.map Scan.key ++ rest), 0⟩ rest rfl
  refine ⟨_, k', hcalls, hpending, ?_, resultsOf_range bs 0, fun c k'' h => kbdProcData_range h⟩
  rw [hshift]
  exact (split_agrees bs).closedForm

end Jos
