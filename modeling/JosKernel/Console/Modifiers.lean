import Mathlib.Data.List.Induction
import JosKernel.Console.Decoder

/-!
# Modifier keys that are held

Histories of presses and releases of the keys of a keyboard, and the bytes that they send.  A
modifier has one bit in `shift` and two keys, and the driver does not know how many of them are
down: the bit follows the key that was used last.

Principal results: `split_codes` — the bytes of a history split into its actions;
`modifiers_follow_last` — after every history a modifier bit is set exactly when one of its
keys is down and the last use of the two was not a release.
-/

set_option autoImplicit false

namespace Jos

/-- No key has the code whose break code is the escape byte `E0`. -/
def isKeyCode (code : Byte) : Bool := code.toNat < 0x80 && code != 0x60

/-- A key of the keyboard; an extended key sends an `E0` in front of its codes. -/
structure PhysKey where
  extended : Bool
  code : Byte
  valid : isKeyCode code = true
  deriving DecidableEq

/-- A press, which repeats while the key is held, or a release. -/
structure Action where
  key : PhysKey
  press : Bool
  deriving DecidableEq

/-- The make code of a press, the break code of a release. -/
def Action.code (a : Action) : List Byte :=
  let code := if a.press then a.key.code else a.key.code + 0x80
  if a.key.extended then [0xE0, code] else [code]

/-- The bytes of a history. -/
def codes (h : List Action) : List Byte := h.flatMap Action.code

/-- The last use of one of the keys was a press. -/
def lastPressed (keys : List PhysKey) (h : List Action) : Bool :=
  (h.filter fun a => a.key ∈ keys).getLast?.any Action.press

/-- The last use of one of the keys was a release. -/
def lastReleased (keys : List PhysKey) (h : List Action) : Bool :=
  (h.filter fun a => a.key ∈ keys).getLast?.any fun a => !a.press

/-- The key is down after the history. -/
def down (k : PhysKey) (h : List Action) : Bool := lastPressed [k] h

/-- Only keys that are down are released. -/
def Physical (h : List Action) : Prop :=
  ∀ i (hi : i < h.length), h[i].press = false → down h[i].key (h.take i) = true

/-- The modifiers: one bit and two keys each. -/
inductive Modifier where
  | shift
  | ctl
  | alt
  deriving DecidableEq, Repr

def Modifier.bit : Modifier → Word
  | .shift => SHIFT
  | .ctl => CTL
  | .alt => ALT

def Modifier.left : Modifier → PhysKey
  | .shift => ⟨false, 0x2A, rfl⟩
  | .ctl => ⟨false, 0x1D, rfl⟩
  | .alt => ⟨false, 0x38, rfl⟩

def Modifier.right : Modifier → PhysKey
  | .shift => ⟨false, 0x36, rfl⟩
  | .ctl => ⟨true, 0x1D, rfl⟩
  | .alt => ⟨true, 0x38, rfl⟩

/-! ## From actions to key events -/

/-- The byte by which the driver knows a key. -/
def PhysKey.byte (k : PhysKey) : Byte := if k.extended then k.code + 0x80 else k.code

def Action.event (a : Action) : KeyEvent := ⟨a.key.byte, a.press⟩

theorem isKeyCode_iff (code : Byte) :
    isKeyCode code = true ↔ code.toNat < 0x80 ∧ code ≠ 0x60 := by
  simp [isKeyCode]

theorem make_ne_escape {code : Byte} (h : isKeyCode code = true) : code ≠ 0xE0 := by
  rw [isKeyCode_iff] at h
  bv_omega

theorem break_ne_escape {code : Byte} (h : isKeyCode code = true) : code + 0x80 ≠ 0xE0 := by
  rw [isKeyCode_iff] at h
  bv_omega

theorem break_high {code : Byte} (h : isKeyCode code = true) : (code + 0x80).toNat ≥ 0x80 := by
  rw [isKeyCode_iff] at h
  bv_omega

theorem PhysKey.byte_inj {k k' : PhysKey} (h : k.byte = k'.byte) : k = k' := by
  obtain ⟨ext, code, hcode⟩ := k
  obtain ⟨ext', code', hcode'⟩ := k'
  have hlow := ((isKeyCode_iff code).1 hcode).1
  have hlow' := ((isKeyCode_iff code').1 hcode').1
  unfold PhysKey.byte at h
  cases ext with
  | false =>
    cases ext' with
    | false =>
      cases h
      rfl
    | true =>
      simp only [Bool.false_eq_true, if_false, if_true] at h
      bv_omega
  | true =>
    cases ext' with
    | false =>
      simp only [Bool.false_eq_true, if_false, if_true] at h
      bv_omega
    | true =>
      have heq : code = code' := by
        simp only [if_true] at h
        bv_omega
      subst heq
      rfl

theorem Split.byte_make (s : Split) {b : Byte} (hb : b ≠ 0xE0) (hlow : b.toNat < 0x80) :
    s.byte b = ⟨false, s.events ++ [⟨if s.pending then b + 0x80 else b, true⟩]⟩ := by
  rw [Split.byte, if_neg hb, if_neg (by omega)]

theorem Split.byte_break (s : Split) {b : Byte} (hb : b ≠ 0xE0) (hhigh : b.toNat ≥ 0x80) :
    s.byte b = ⟨false, s.events ++ [⟨if s.pending then b else b - 0x80, false⟩]⟩ := by
  rw [Split.byte, if_neg hb, if_pos hhigh]

/-- The bytes of one action are one key event. -/
theorem foldl_code (a : Action) (es : List KeyEvent) :
    a.code.foldl Split.byte ⟨false, es⟩ = ⟨false, es ++ [a.event]⟩ := by
  obtain ⟨⟨ext, code, hcode⟩, press⟩ := a
  have hlow := ((isKeyCode_iff code).1 hcode).1
  have hmake := fun s : Split => s.byte_make (make_ne_escape hcode) hlow
  have hbreak := fun s : Split => s.byte_break (break_ne_escape hcode) (break_high hcode)
  have hback : code + 0x80 - 0x80 = code := BitVec.add_sub_cancel code 0x80
  cases ext with
  | false =>
    cases press with
    | false =>
      refine (hbreak _).trans ?_
      simp only [Bool.false_eq_true, if_false, hback]
      rfl
    | true => exact hmake _
  | true =>
    -- the escape is pending at the second byte
    cases press with
    | false => exact hbreak ⟨true, es⟩
    | true => exact hmake ⟨true, es⟩

/-- **The bytes of a history split into its actions.** -/
theorem foldl_codes : ∀ (h : List Action) (es : List KeyEvent),
    (codes h).foldl Split.byte ⟨false, es⟩ = ⟨false, es ++ h.map Action.event⟩
  | [], es => by simp [codes]
  | a :: h, es => by
    have ih := foldl_codes h (es ++ [a.event])
    rw [codes, List.flatMap_cons, List.foldl_append, foldl_code]
    rw [codes] at ih
    rw [ih, List.map_cons, List.append_assoc, List.singleton_append]

theorem split_codes (h : List Action) : split (codes h) = ⟨false, h.map Action.event⟩ :=
  foldl_codes h []

/-- The events see the same last use as the actions. -/
theorem lastMade_events (keys : List PhysKey) (h : List Action) :
    lastMade (keys.map PhysKey.byte) (h.map Action.event) = lastPressed keys h := by
  have hmem : ∀ a : Action, a.event.key ∈ keys.map PhysKey.byte ↔ a.key ∈ keys := by
    intro a
    rw [List.mem_map]
    constructor
    · rintro ⟨k, hk, hbyte⟩
      rw [← PhysKey.byte_inj hbyte]
      exact hk
    · intro hk
      exact ⟨a.key, hk, rfl⟩
  unfold lastMade lastPressed
  rw [List.filter_map, List.getLast?_map, Option.any_map]
  simp only [Function.comp_def, hmem]
  rfl

/-! ## Held keys -/

theorem lastPressed_append (keys : List PhysKey) (h : List Action) (a : Action) :
    lastPressed keys (h ++ [a]) = if a.key ∈ keys then a.press else lastPressed keys h := by
  unfold lastPressed
  rw [List.filter_append]
  split
  · rename_i hk
    simp [hk]
  · rename_i hk
    simp [hk]

theorem lastReleased_append (keys : List PhysKey) (h : List Action) (a : Action) :
    lastReleased keys (h ++ [a]) = if a.key ∈ keys then !a.press else lastReleased keys h := by
  unfold lastReleased
  rw [List.filter_append]
  split
  · rename_i hk
    simp [hk]
  · rename_i hk
    simp [hk]

/-- The last use was a press when a key is down and the last use was not a release. -/
theorem lastPressed_iff (l r : PhysKey) (h : List Action) :
    lastPressed [l, r] h = true ↔
      (down l h = true ∨ down r h = true) ∧ lastReleased [l, r] h = false := by
  induction h using List.reverseRecOn with
  | nil => simp [lastPressed, down]
  | append_singleton h a ih =>
    unfold down at ih ⊢
    simp only [lastPressed_append, lastReleased_append, List.mem_cons, List.not_mem_nil, or_false]
    by_cases hl : a.key = l
    · cases a.press <;> simp [hl]
    · by_cases hr : a.key = r
      · cases a.press <;> simp [hr]
      · simpa [hl, hr] using ih

/-! ## The modifier bits -/

/-- The bit of a modifier is the last use of its two keys. -/
theorem modifier_bit (m : Modifier) (h : List Action) :
    shiftAfter (codes h) 0 &&& m.bit ≠ 0 ↔ lastPressed [m.left, m.right] h = true := by
  have hform := (split_agrees (codes h)).closedForm
  rw [← lastMade_events]
  have hevents : (split (codes h)).events = h.map Action.event := by rw [split_codes]
  rw [← hevents]
  cases m with
  | shift => exact hform.shifted
  | ctl => exact hform.ctl
  | alt => exact hform.alt

variable {ε : Type} (d : Device ε)

/-- After the bytes of the history a modifier bit is set exactly when one of its keys is down. -/
def ModifiersHeld (con : Console (List Scan × ε)) (h : List Action) : Prop :=
  ∀ results k', kbdCalls (i8042 d) (codes h).length
      ⟨con.withPending ((codes h).map Scan.key), 0⟩ = .ok (results, k') →
    ∀ m : Modifier, k'.shift &&& m.bit ≠ 0 ↔ down m.left h = true ∨ down m.right h = true

/-- What `kbd_proc_data` makes of the bytes of a history. -/
theorem kbdCalls_codes (con : Console (List Scan × ε)) (h : List Action) :
    ∃ k', kbdCalls (i8042 d) (codes h).length ⟨con.withPending ((codes h).map Scan.key), 0⟩ =
        .ok (resultsOf (codes h) 0, k') ∧ k'.shift = shiftAfter (codes h) 0 := by
  obtain ⟨k', hcalls, hshift, -⟩ := @kbdCalls_keys ε d (codes h)
    ⟨con.withPending ((codes h).map Scan.key), 0⟩ [] (List.append_nil _).symm
  exact ⟨k', hcalls, hshift⟩

/-- **A modifier bit is set exactly when a key of the modifier is down and the last use of the
    two was not a release**, after every history of presses and releases. -/
theorem modifiers_follow_last (con : Console (List Scan × ε)) (h : List Action) :
    ∃ results k', kbdCalls (i8042 d) (codes h).length
        ⟨con.withPending ((codes h).map Scan.key), 0⟩ = .ok (results, k') ∧
      ∀ m : Modifier, k'.shift &&& m.bit ≠ 0 ↔
        (down m.left h = true ∨ down m.right h = true) ∧
          lastReleased [m.left, m.right] h = false := by
  obtain ⟨k', hcalls, hshift⟩ := kbdCalls_codes d con h
  refine ⟨_, k', hcalls, fun m => ?_⟩
  rw [hshift, modifier_bit, lastPressed_iff]

/-- Both shift keys are pressed and the left one is released. -/
def twoShifts : List Action :=
  [⟨Modifier.shift.left, true⟩, ⟨Modifier.shift.right, true⟩, ⟨Modifier.shift.left, false⟩]

/-- The right shift key is down, and `SHIFT` is clear. -/
theorem twoShifts_not_held :
    Physical twoShifts ∧
      ¬ModifiersHeld readyDevice ⟨⟨([], ()), []⟩, ⟨.cga, fun _ => 0x0720, 0, []⟩⟩ twoShifts := by
  refine ⟨?_, fun h => ?_⟩
  · intro i hi
    have hlast : ∀ i (hi : i < 3), (twoShifts.get ⟨i, hi⟩).press = false →
        down (twoShifts.get ⟨i, hi⟩).key (twoShifts.take i) = true := by decide
    exact hlast i hi
  · obtain ⟨k', hcalls, hshift⟩ := kbdCalls_codes readyDevice _ twoShifts
    have hheld := (h _ k' hcalls .shift).2 (by decide)
    rw [hshift] at hheld
    exact hheld (by decide)

end Jos
