import JosKernel.Format.Strtol

/-!
# The texts that `strtol` reads

The grammar of an integer: blanks, a sign, a `0x` that a hexadecimal digit follows, and a run
of digits that is as long as possible.  `strtol` agrees with it except at two places where it
has moved on without looking: behind a `0x` it needs no digit, and where it finds no digit at
all it leaves the blanks and the sign skipped.

Principal result: `strtolLaw_iff` — when the value and `*endptr` are those of the grammar.
-/

set_option autoImplicit false

namespace Jos

open Numeral

/-- The optional sign. -/
inductive Sign where
  | none
  | plus
  | minus
  deriving DecidableEq, Repr

def Sign.text : Sign → List Byte
  | .none => []
  | .plus => [char '+']
  | .minus => [char '-']

def Sign.apply : Sign → Int → Int
  | .minus, v => -v
  | _, v => v

/-- A `0x` with a hexadecimal digit behind it. -/
def HexPrefixed (s : List Byte) : Prop :=
  deref s = char '0' ∧ deref s.tail = char 'x' ∧ digitOf (deref s.tail.tail) < 16

/-- A base that allows the prefix. -/
def HexBase (base : Nat) : Prop := base = 0 ∨ base = 16

/-- The base in which the run is read. -/
def radix (base : Nat) (hex : Bool) (run : List Byte) : Nat :=
  if base ≠ 0 then base
  else if hex then 16
  else if deref run = char '0' then 8
  else 10

/-- A text that stands for an integer, in its parts. -/
structure Literal (base : Nat) where
  blanks : List Byte
  sign : Sign
  hex : Bool
  run : List Byte
  rest : List Byte
  blank : ∀ c ∈ blanks, c = char ' ' ∨ c = char '\t'
  hexBase : hex = true → HexBase base
  hexTaken : hex = false → HexBase base → ¬HexPrefixed (run ++ rest)
  nonempty : run ≠ []
  isDigit : ∀ c ∈ run, digitOf c < radix base hex run
  maximal : ¬digitOf (deref rest) < radix base hex run

variable {base : Nat}

def Literal.zeroX (l : Literal base) : List Byte := if l.hex then [char '0', char 'x'] else []

/-- What stands behind the sign. -/
def Literal.body (l : Literal base) : List Byte := l.zeroX ++ (l.run ++ l.rest)

def Literal.text (l : Literal base) : List Byte := l.blanks ++ (l.sign.text ++ l.body)

def Literal.value (l : Literal base) : Int :=
  l.sign.apply (horner (radix base l.hex l.run) 0 (l.run.map digitOf))

/-- `strtol` returns the value of the literal modulo `2^32` and stops behind its run; without a
literal it returns 0 and stops at the start. -/
structure StrtolLaw (s : CStr) (base : Nat) : Prop where
  literal : ∀ l : Literal base, l.text = s.bytes → strtol s base = (int32 l.value, l.rest)
  nothing : (¬∃ l : Literal base, l.text = s.bytes) → strtol s base = (0, s.bytes)

/-- What stands behind the blanks and the sign of a text. -/
def unsigned (s : List Byte) : List Byte := (strtolSign (gobble s)).2

/-- A `0x` without a hexadecimal digit behind it. -/
def DanglingPrefix (base : Nat) (s : List Byte) : Prop :=
  HexBase base ∧ deref s = char '0' ∧ deref s.tail = char 'x' ∧
    ¬digitOf (deref s.tail.tail) < 16

/-- The text starts with a digit of the base, a decimal one if the base is open. -/
def StartsWithDigit (base : Nat) (s : List Byte) : Prop :=
  digitOf (deref s) < if base = 0 then 10 else base

instance (base : Nat) : Decidable (HexBase base) := inferInstanceAs (Decidable (_ ∨ _))

instance (base : Nat) (s : List Byte) : Decidable (DanglingPrefix base s) :=
  inferInstanceAs (Decidable (_ ∧ _ ∧ _ ∧ _))

instance (base : Nat) (s : List Byte) : Decidable (StartsWithDigit base s) :=
  inferInstanceAs (Decidable (_ < _))

/-! ## Digits -/

/-- A digit is neither a blank nor a sign. -/
theorem digitOf_plain : ∀ c : Byte, digitOf c < 36 →
    c ≠ char ' ' ∧ c ≠ char '\t' ∧ c ≠ char '+' ∧ c ≠ char '-' := by decide +kernel

theorem digitOf_zero : digitOf (char '0') = 0 := by decide

theorem digitOf_x : digitOf (char 'x') = 33 := by decide

/-- A text whose first character is a digit is not empty. -/
theorem eq_cons_of_digit {s : List Byte} (h : digitOf (deref s) < 36) :
    ∃ c t, s = c :: t ∧ deref s = c := by
  cases s with
  | nil => exact absurd h (by decide)
  | cons c t => exact ⟨c, t, rfl, rfl⟩

theorem deref_append {s t : List Byte} (h : s ≠ []) : deref (s ++ t) = deref s := by
  cases s with
  | nil => exact absurd rfl h
  | cons c s => rfl

theorem int32_zero : int32 0 = 0 := rfl

theorem strtolDigits_nothing (hbase : base ≤ 36) {t : List Byte}
    (hmax : ¬digitOf (deref t) < base) : strtolDigits base t 0 = (0, t) := by
  have h := strtolDigits_run hbase hmax [] 0 fun _ hc => absurd hc List.not_mem_nil
  rw [List.nil_append, List.map_nil, horner, Int.natCast_zero, int32_zero] at h
  exact h

/-! ## The parts of a literal -/

theorem radix_le (hbase : base ≤ 36) (hex : Bool) (run : List Byte) : radix base hex run ≤ 36 := by
  unfold radix
  split
  · exact hbase
  · split
    · decide
    · split <;> decide

theorem radix_hex (h : HexBase base) (run : List Byte) : radix base true run = 16 := by
  unfold radix
  rcases h with h0 | h16
  · rw [if_neg (not_not_intro h0), if_pos rfl]
  · rw [if_pos (by omega), h16]

/-- The digits that a run in an open base may start with are the decimal ones. -/
theorem startsWithDigit_iff {t : List Byte} :
    StartsWithDigit base t ↔ digitOf (deref t) < radix base false t := by
  unfold StartsWithDigit radix
  by_cases h0 : base = 0
  · rw [if_pos h0, if_neg (not_not_intro h0), if_neg Bool.false_ne_true]
    by_cases hoctal : deref t = char '0'
    · rw [if_pos hoctal, hoctal, digitOf_zero]
      decide
    · rw [if_neg hoctal]
  · rw [if_neg h0, if_pos h0]

/-- A literal has a digit behind its sign. -/
theorem Literal.body_startsWithDigit (hbase : base = 0 ∨ 2 ≤ base) (l : Literal base) :
    StartsWithDigit base l.body := by
  unfold Literal.body Literal.zeroX
  cases hhex : l.hex with
  | true =>
    show digitOf (char '0') < _
    rw [digitOf_zero]
    rcases hbase with h0 | h2
    · rw [if_pos h0]
      decide
    · rw [if_neg (by omega)]
      omega
  | false =>
    obtain ⟨c, run, hrun⟩ := List.exists_cons_of_ne_nil l.nonempty
    have hc : digitOf c < radix base l.hex l.run := l.isDigit c (hrun ▸ List.mem_cons_self)
    rw [hhex] at hc
    have hfirst : StartsWithDigit base l.run := by
      apply startsWithDigit_iff.mpr
      rwa [hrun] at hc ⊢
    show digitOf (deref (l.run ++ l.rest)) < _
    rw [deref_append l.nonempty]
    exact hfirst

theorem gobble_blanks {t : List Byte} :
    ∀ blanks : List Byte, (∀ c ∈ blanks, c = char ' ' ∨ c = char '\t') →
      gobble (blanks ++ t) = gobble t
  | [], _ => rfl
  | c :: blanks, h => by
    obtain ⟨hc, hblanks⟩ := List.forall_mem_cons.mp h
    exact (if_pos hc).trans (gobble_blanks blanks hblanks)

theorem gobble_of_not_blank {c : Byte} {t : List Byte} (h : c ≠ char ' ') (h' : c ≠ char '\t') :
    gobble (c :: t) = c :: t := if_neg (not_or.mpr ⟨h, h'⟩)

/-- Behind the blanks, a sign is read before a digit. -/
theorem strtolSign_text (sign : Sign) {t : List Byte} (ht : digitOf (deref t) < 36) :
    strtolSign (gobble (sign.text ++ t)) = (decide (sign = .minus), t) := by
  obtain ⟨c, t', rfl, hc⟩ := eq_cons_of_digit ht
  rw [hc] at ht
  obtain ⟨hblank, htab, hplus, hminus⟩ := digitOf_plain c ht
  cases sign with
  | none =>
    show strtolSign (gobble (c :: t')) = _
    rw [gobble_of_not_blank hblank htab]
    exact (if_neg hplus).trans (if_neg hminus)
  | plus =>
    show strtolSign (gobble (char '+' :: c :: t')) = _
    rw [gobble_of_not_blank (by decide) (by decide)]
    rfl
  | minus =>
    show strtolSign (gobble (char '-' :: c :: t')) = _
    rw [gobble_of_not_blank (by decide) (by decide)]
    rfl

/-- `strtol` finds the sign of a literal and what stands behind it. -/
theorem strtolSign_literal (hbase : base = 0 ∨ 2 ≤ base ∧ base ≤ 36) (l : Literal base) :
    strtolSign (gobble l.text) = (decide (l.sign = .minus), l.body) := by
  have hdigit : StartsWithDigit base l.body := l.body_startsWithDigit (by omega)
  unfold Literal.text
  rw [gobble_blanks l.blanks l.blank]
  refine strtolSign_text l.sign (Nat.lt_of_lt_of_le hdigit ?_)
  split <;> omega

/-! ## The prefix -/

theorem hexBase_cast : ((base : Int) = 0 ∨ (base : Int) = 16) ↔ HexBase base := by
  unfold HexBase
  omega

theorem strtolPrefix_zeroX (h : HexBase base) (t : List Byte) :
    strtolPrefix base (char '0' :: char 'x' :: t) = (16, t) :=
  if_pos ⟨hexBase_cast.mpr h, rfl, rfl⟩

/-- Without a `0x` only an open base moves: behind a `0` to base 8. -/
theorem strtolPrefix_plain {t : List Byte}
    (h : ¬(HexBase base ∧ deref t = char '0' ∧ deref t.tail = char 'x')) :
    strtolPrefix base t =
      if base ≠ 0 then ((base : Int), t)
      else if deref t = char '0' then (8, t.tail) else (10, t) := by
  have hnone : ¬(((base : Int) = 0 ∨ (base : Int) = 16) ∧ deref t = char '0' ∧
      deref t.tail = char 'x') := fun hx => h ⟨hexBase_cast.mp hx.1, hx.2⟩
  unfold strtolPrefix
  rw [if_neg hnone]
  by_cases h0 : base = 0
  · have h0' : (base : Int) = 0 := by omega
    rw [if_neg (not_not_intro h0), if_pos h0']
    by_cases hoctal : deref t = char '0'
    · rw [if_pos ⟨h0', hoctal⟩, if_pos hoctal]
    · rw [if_neg fun hx => hoctal hx.2, if_neg hoctal]
  · have h0' : (base : Int) ≠ 0 := by omega
    rw [if_neg fun hx => h0' hx.1, if_neg h0', if_pos h0]

/-- The `0` that selects base 8 is skipped, and adds nothing to the value. -/
theorem strtolDigits_octal {run rest : List Byte} (hne : run ≠ [])
    (hzero : deref run = char '0') (hrun : ∀ c ∈ run, digitOf c < 8)
    (hmax : ¬digitOf (deref rest) < 8) :
    strtolDigits 8 (run ++ rest).tail 0 = (int32 (horner 8 0 (run.map digitOf)), rest) := by
  obtain ⟨c, run, rfl⟩ := List.exists_cons_of_ne_nil hne
  have hc : c = char '0' := hzero
  have hdigits := @strtolDigits_run 8 (by decide) rest hmax run 0
    (List.forall_mem_cons.mp hrun).2
  rw [hc, List.map_cons, digitOf_zero]
  exact hdigits

/-- Behind a prefix that is not dangling, the digit loop reads the run. -/
theorem strtolDigits_literal (hbase : base ≤ 36) (l : Literal base)
    (hpre : ¬DanglingPrefix base l.body) :
    strtolDigits (strtolPrefix base l.body).1 (strtolPrefix base l.body).2 0 =
      (int32 (horner (radix base l.hex l.run) 0 (l.run.map digitOf)), l.rest) := by
  have hle : radix base l.hex l.run ≤ 36 := radix_le hbase l.hex l.run
  have hrun := strtolDigits_run hle l.maximal l.run 0 l.isDigit
  cases hhex : l.hex with
  | true =>
    have hHex : HexBase base := l.hexBase hhex
    have hradix : radix base true l.run = 16 := radix_hex hHex l.run
    have hbody : l.body = char '0' :: char 'x' :: (l.run ++ l.rest) := by
      rw [Literal.body, Literal.zeroX, hhex]
      rfl
    rw [hhex, hradix] at hrun
    rw [hbody, strtolPrefix_zeroX hHex, hradix]
    exact hrun
  | false =>
    have hbody : l.body = l.run ++ l.rest := by
      rw [Literal.body, Literal.zeroX, hhex]
      rfl
    rw [hbody] at hpre ⊢
    rw [strtolPrefix_plain fun h => hpre ⟨h.1, h.2.1, h.2.2, fun h16 =>
      l.hexTaken hhex h.1 ⟨h.2.1, h.2.2, h16⟩⟩]
    rw [hhex] at hrun
    unfold radix at hrun ⊢
    rw [deref_append l.nonempty]
    by_cases h0 : base ≠ 0
    · rw [if_pos h0] at hrun ⊢
      rw [if_pos h0]
      exact hrun
    · rw [if_neg h0, if_neg Bool.false_ne_true] at hrun ⊢
      rw [if_neg h0]
      by_cases hoctal : deref l.run = char '0'
      · rw [if_pos hoctal] at hrun ⊢
        rw [if_pos hoctal]
        have hoct : radix base false l.run = 8 := by
          unfold radix
          rw [if_neg h0, if_neg Bool.false_ne_true, if_pos hoctal]
        have hdigits := l.isDigit
        have hmax := l.maximal
        rw [hhex, hoct] at hdigits hmax
        exact strtolDigits_octal l.nonempty hoctal hdigits hmax
      · rw [if_neg hoctal] at hrun ⊢
        rw [if_neg hoctal]
        exact hrun

/-! ## `strtol` -/

theorem strtol_eq (s : CStr) (base : Int) :
    strtol s base =
      let neg := (strtolSign (gobble s.bytes)).1
      let t := unsigned s.bytes
      let run := strtolDigits (strtolPrefix base t).1 (strtolPrefix base t).2 0
      (if neg then int32 (-run.1) else run.1, run.2) := rfl

/-- Where the digit loop reads 0, the sign does not matter. -/
theorem strtol_zero {s : CStr} {base : Int} {rest : List Byte}
    (hrun : strtolDigits (strtolPrefix base (unsigned s.bytes)).1
      (strtolPrefix base (unsigned s.bytes)).2 0 = (0, rest)) : strtol s base = (0, rest) := by
  have hneg : int32 (-0) = 0 := int32_zero
  rw [strtol_eq]
  simp only [hrun]
  rw [hneg, ite_self]

/-- Negating before or after the wrap. -/
theorem sign_apply (sign : Sign) (v : Int) :
    (if decide (sign = .minus) then int32 (-int32 v) else int32 v) = int32 (sign.apply v) := by
  cases sign with
  | none => rfl
  | plus => rfl
  | minus =>
    have hv : int32 v % 4294967296 = v % 4294967296 := int32_emod v
    show int32 (-int32 v) = int32 (-v)
    exact int32_congr (by omega)

theorem unsigned_literal (hbase : base = 0 ∨ 2 ≤ base ∧ base ≤ 36) (l : Literal base) :
    unsigned l.text = l.body := by
  rw [unsigned, strtolSign_literal hbase l]

/-- **`strtol` reads a literal.** -/
theorem strtol_literal (hbase : base = 0 ∨ 2 ≤ base ∧ base ≤ 36) {s : CStr} (l : Literal base)
    (hs : l.text = s.bytes) (hpre : ¬DanglingPrefix base (unsigned s.bytes)) :
    strtol s base = (int32 l.value, l.rest) := by
  rw [← hs, unsigned_literal hbase] at hpre
  rw [strtol_eq, ← hs, unsigned_literal hbase, strtolSign_literal hbase]
  simp only
  rw [strtolDigits_literal (by omega) l hpre, sign_apply]
  rfl

/-- Without a digit behind the sign, `strtol` stays there. -/
theorem strtol_no_digit (hbase : base = 0 ∨ 2 ≤ base ∧ base ≤ 36) {s : CStr}
    (h : ¬StartsWithDigit base (unsigned s.bytes)) : strtol s base = (0, unsigned s.bytes) := by
  have hzero : deref (unsigned s.bytes) ≠ char '0' := by
    intro h0
    apply h
    unfold StartsWithDigit
    rw [h0, digitOf_zero]
    split <;> omega
  have hpre := @strtolPrefix_plain base (unsigned s.bytes) fun hx => hzero hx.2.1
  have hrun : strtolDigits (strtolPrefix base (unsigned s.bytes)).1
      (strtolPrefix base (unsigned s.bytes)).2 0 = (0, unsigned s.bytes) := by
    unfold StartsWithDigit at h
    rw [hpre]
    by_cases h0 : base = 0
    · rw [if_pos h0] at h
      rw [if_neg (not_not_intro h0), if_neg hzero]
      exact @strtolDigits_nothing 10 (by decide) _ h
    · rw [if_neg h0] at h
      rw [if_pos h0]
      exact strtolDigits_nothing (by omega) h
  exact strtol_zero hrun

/-! ## Finding a literal -/

theorem eq_of_zeroX {t : List Byte} (h0 : deref t = char '0') (hx : deref t.tail = char 'x') :
    t = char '0' :: char 'x' :: t.tail.tail := by
  match t with
  | [] => exact absurd h0 (by decide)
  | [_] =>
    have hnul : (0 : Byte) = char 'x' := hx
    exact absurd hnul (by decide)
  | c :: d :: t =>
    have hc : c = char '0' := h0
    have hd : d = char 'x' := hx
    rw [hc, hd]
    rfl

/-- Every text starts with a run of digits that is as long as possible. -/
theorem exists_digitRun {b : Nat} (hb : b ≤ 36) : ∀ t : List Byte,
    ∃ run rest, t = run ++ rest ∧ (∀ c ∈ run, digitOf c < b) ∧ ¬digitOf (deref rest) < b ∧
      (digitOf (deref t) < b → run ≠ [])
  | [] => by
    have hnul : ¬digitOf (deref []) < b := by
      rw [show deref [] = 0 from rfl, digitOf_nul]
      omega
    exact ⟨[], [], rfl, fun _ hc => absurd hc List.not_mem_nil, hnul, fun h => absurd h hnul⟩
  | c :: t => by
    by_cases hc : digitOf c < b
    · obtain ⟨run, rest, heq, hrun, hmax, -⟩ := exists_digitRun hb t
      refine ⟨c :: run, rest, by rw [heq]; rfl, ?_, hmax, fun _ => List.cons_ne_nil c run⟩
      exact List.forall_mem_cons.mpr ⟨hc, hrun⟩
    · exact ⟨[], c :: t, rfl, fun _ hc => absurd hc List.not_mem_nil, hc, fun h => absurd h hc⟩

/-- Every text is blanks, a sign and what stands behind them. -/
theorem exists_gobbled : ∀ s : List Byte,
    ∃ blanks, (∀ c ∈ blanks, c = char ' ' ∨ c = char '\t') ∧ s = blanks ++ gobble s
  | [] => ⟨[], fun _ hc => absurd hc List.not_mem_nil, rfl⟩
  | c :: s => by
    by_cases hc : c = char ' ' ∨ c = char '\t'
    · obtain ⟨blanks, hblanks, heq⟩ := exists_gobbled s
      refine ⟨c :: blanks, List.forall_mem_cons.mpr ⟨hc, hblanks⟩, ?_⟩
      rw [gobble, if_pos hc, List.cons_append, ← heq]
    · refine ⟨[], fun _ hc => absurd hc List.not_mem_nil, ?_⟩
      rw [gobble, if_neg hc]
      rfl

theorem exists_signed (t : List Byte) : ∃ sign : Sign, t = sign.text ++ (strtolSign t).2 := by
  unfold strtolSign
  split
  · rename_i hplus
    cases t with
    | nil => exact absurd hplus (by decide)
    | cons c t =>
      have hc : c = char '+' := hplus
      exact ⟨.plus, by rw [hc]; rfl⟩
  · split
    · rename_i hminus
      cases t with
      | nil => exact absurd hminus (by decide)
      | cons c t =>
        have hc : c = char '-' := hminus
        exact ⟨.minus, by rw [hc]; rfl⟩
    · exact ⟨.none, rfl⟩

/-- The parts of a text from a literal that starts behind the sign. -/
theorem literal_of_body {s : List Byte} {hex : Bool} {run rest : List Byte}
    (hbody : unsigned s = (if hex then [char '0', char 'x'] else []) ++ (run ++ rest))
    (hexBase : hex = true → HexBase base)
    (hexTaken : hex = false → HexBase base → ¬HexPrefixed (run ++ rest)) (nonempty : run ≠ [])
    (isDigit : ∀ c ∈ run, digitOf c < radix base hex run)
    (maximal : ¬digitOf (deref rest) < radix base hex run) :
    ∃ l : Literal base, l.text = s ∧ l.rest = rest := by
  obtain ⟨blanks, hblanks, hs⟩ := exists_gobbled s
  obtain ⟨sign, hsign⟩ := exists_signed (gobble s)
  refine ⟨⟨blanks, sign, hex, run, rest, hblanks, hexBase, hexTaken, nonempty, isDigit,
    maximal⟩, ?_, rfl⟩
  show blanks ++ (sign.text ++ ((if hex then [char '0', char 'x'] else []) ++ (run ++ rest))) = s
  rw [← hbody, unsigned, ← hsign, ← hs]

/-- **A text with a digit behind its sign has a literal.** -/
theorem literal_of_digit (hbase : base = 0 ∨ 2 ≤ base ∧ base ≤ 36) {s : List Byte}
    (h : StartsWithDigit base (unsigned s)) : ∃ l : Literal base, l.text = s := by
  by_cases hhex : HexBase base ∧ HexPrefixed (unsigned s)
  · obtain ⟨hHex, h0, hx, h16⟩ := hhex
    obtain ⟨run, rest, heq, hrun, hmax, hne⟩ :=
      exists_digitRun (show 16 ≤ 36 by decide) (unsigned s).tail.tail
    have hradix : radix base true run = 16 := radix_hex hHex run
    have hbody : unsigned s = [char '0', char 'x'] ++ (run ++ rest) := by
      rw [← heq]
      exact eq_of_zeroX h0 hx
    obtain ⟨l, hl, -⟩ := @literal_of_body base s true run rest hbody (fun _ => hHex)
      (fun hfalse => absurd hfalse (by decide)) (hne h16) (by rwa [hradix]) (by rwa [hradix])
    exact ⟨l, hl⟩
  · obtain ⟨run, rest, heq, hrun, hmax, hne⟩ :=
      exists_digitRun (radix_le (show base ≤ 36 by omega) false (unsigned s)) (unsigned s)
    have hfirst : digitOf (deref (unsigned s)) < radix base false (unsigned s) :=
      startsWithDigit_iff.mp h
    have hradix : radix base false run = radix base false (unsigned s) := by
      unfold radix
      rw [heq, deref_append (hne hfirst)]
    obtain ⟨l, hl, -⟩ := @literal_of_body base s false run rest heq
      (fun htrue => absurd htrue (by decide)) (fun _ hHex hx => hhex ⟨hHex, by rwa [heq]⟩)
      (hne hfirst) (by rwa [hradix]) (by rwa [hradix])
    exact ⟨l, hl⟩

/-! ## Where the code moves on without looking -/

theorem strtol_dangling {s : CStr} (h : DanglingPrefix base (unsigned s.bytes)) :
    strtol s base = (0, (unsigned s.bytes).tail.tail) := by
  obtain ⟨hHex, h0, hx, hdigit⟩ := h
  have hrun : strtolDigits (strtolPrefix base (unsigned s.bytes)).1
      (strtolPrefix base (unsigned s.bytes)).2 0 = (0, (unsigned s.bytes).tail.tail) := by
    rw [eq_of_zeroX h0 hx, strtolPrefix_zeroX hHex]
    exact @strtolDigits_nothing 16 (by decide) _ hdigit
  exact strtol_zero hrun

/-- The literal of a dangling prefix is its `0`. -/
theorem literal_of_dangling {s : List Byte} (h : DanglingPrefix base (unsigned s)) :
    ∃ l : Literal base, l.text = s ∧ l.rest = char 'x' :: (unsigned s).tail.tail := by
  obtain ⟨hHex, h0, hx, hdigit⟩ := h
  have hbody : unsigned s = [] ++ ([char '0'] ++ char 'x' :: (unsigned s).tail.tail) :=
    eq_of_zeroX h0 hx
  have hradix : radix base false [char '0'] = 8 ∨ radix base false [char '0'] = 16 := by
    unfold radix
    rcases hHex with hopen | h16
    · rw [if_neg (not_not_intro hopen), if_neg Bool.false_ne_true]
      exact Or.inl (if_pos rfl)
    · rw [if_pos (by omega), h16]
      exact Or.inr rfl
  refine @literal_of_body base s false [char '0'] (char 'x' :: (unsigned s).tail.tail) hbody
    (fun htrue => absurd htrue (by decide)) (fun _ _ hx => hdigit hx.2.2)
    (List.cons_ne_nil _ _) ?_ ?_
  · intro c hc
    rw [List.mem_singleton.mp hc, digitOf_zero]
    omega
  · show ¬digitOf (char 'x') < _
    rw [digitOf_x]
    omega

theorem dangling_not_law {s : CStr} (h : DanglingPrefix base (unsigned s.bytes)) :
    ¬StrtolLaw s base := by
  intro law
  obtain ⟨l, hl, hrest⟩ := literal_of_dangling h
  have hvalue := law.literal l hl
  rw [strtol_dangling h, hrest] at hvalue
  exact absurd (congrArg (fun p => p.2.length) hvalue) (Nat.ne_of_lt (Nat.lt_succ_self _))

theorem no_literal (hbase : base = 0 ∨ 2 ≤ base ∧ base ≤ 36) {s : List Byte}
    (h : ¬StartsWithDigit base (unsigned s)) : ¬∃ l : Literal base, l.text = s := by
  rintro ⟨l, rfl⟩
  rw [unsigned_literal hbase] at h
  exact h (l.body_startsWithDigit (by omega))

theorem skipped_not_law (hbase : base = 0 ∨ 2 ≤ base ∧ base ≤ 36) {s : CStr}
    (h : ¬StartsWithDigit base (unsigned s.bytes)) (hskip : unsigned s.bytes ≠ s.bytes) :
    ¬StrtolLaw s base := by
  intro law
  have hnothing := law.nothing (no_literal hbase h)
  rw [strtol_no_digit hbase h] at hnothing
  exact hskip (congrArg Prod.snd hnothing)

/-- **`strtol` agrees with the grammar** exactly when no prefix dangles, and a digit of the
base stands behind the blanks and the sign or there are neither. -/
theorem strtolLaw_iff (hbase : base = 0 ∨ 2 ≤ base ∧ base ≤ 36) (s : CStr) :
    StrtolLaw s base ↔
      ¬DanglingPrefix base (unsigned s.bytes) ∧
        (StartsWithDigit base (unsigned s.bytes) ∨ unsigned s.bytes = s.bytes) := by
  constructor
  · intro law
    refine ⟨fun h => dangling_not_law h law, ?_⟩
    by_cases h : StartsWithDigit base (unsigned s.bytes)
    · exact Or.inl h
    · exact Or.inr (by_contra fun hskip => skipped_not_law hbase h hskip law)
  · rintro ⟨hpre, hdigit⟩
    refine ⟨fun l hl => strtol_literal hbase l hl hpre, fun hnone => ?_⟩
    have hno : ¬StartsWithDigit base (unsigned s.bytes) := fun h =>
      hnone (literal_of_digit hbase h)
    rw [strtol_no_digit hbase hno, hdigit.resolve_left hno]

/-- A negative number in hexadecimal, with its prefix. -/
theorem strtolLaw_iff_hex : StrtolLaw (CStr.ofString " -0x1F;") 0 :=
  (strtolLaw_iff (Or.inl rfl) (CStr.ofString " -0x1F;")).2 (by decide +kernel)

/-- A dangling prefix, and a sign with nothing behind it. -/
theorem dangling_and_sign_not_law :
    ¬StrtolLaw (CStr.ofString "0xg") 16 ∧ ¬StrtolLaw (CStr.ofString "-") 10 := by
  constructor
  · exact dangling_not_law (by decide +kernel)
  · exact skipped_not_law (by decide) (by decide +kernel) (by decide +kernel)

end Jos
