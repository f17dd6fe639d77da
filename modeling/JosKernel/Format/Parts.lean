import JosKernel.Format.Arguments
import JosKernel.Format.Width

/-!
# Messages

The formats of the kernel's own messages: texts with `%s`, `%d` and `%08x` between them.  A
format is given by its parts, and its output is the texts of the parts in order; `%08x` of a
word is its eight hexadecimal digits.

Principal results: `output_parts` — a format that is written in parts; `hexField_text` — the
digits of an address.
-/

set_option autoImplicit false

namespace Jos

theorem separated_nil : Separated [] := rfl

/-- A conversion without flags. -/
def bareDirective (c : Conv) : Directive := ⟨[], separated_nil, c⟩

theorem bareDirective_short (c : Conv) : (bareDirective c).items.count .ell ≤ 2 := Nat.zero_le 2

theorem bareDirective_str (s : CStr) : (bareDirective .str).Fits [.str s] :=
  ⟨[], [.str s], rfl, rfl, some s, rfl⟩

theorem bareDirective_dec (v : Word) : (bareDirective .dec).Fits [.word v] :=
  ⟨[], [.word v], rfl, rfl, v, rfl⟩

/-- `%s` of a string. -/
def strField (s : CStr) : Filled :=
  ⟨bareDirective .str, [.str s], bareDirective_short .str, bareDirective_str s⟩

/-- `%d` of a word. -/
def decField (v : Word) : Filled :=
  ⟨bareDirective .dec, [.word v], bareDirective_short .dec, bareDirective_dec v⟩

theorem eight_pos : 0 < 8 := by decide

/-- `%08x`. -/
def hexDirective : Directive := fieldDirective .zero 8 eight_pos .none .hex

theorem hexDirective_short : hexDirective.items.count .ell ≤ 2 := Nat.zero_le 2

theorem hexDirective_fits (v : Word) : hexDirective.Fits [.word v] :=
  ⟨[], [.word v], rfl, rfl, v, rfl⟩

/-- `%08x` of a word. -/
def hexField (v : Word) : Filled :=
  ⟨hexDirective, [.word v], hexDirective_short, hexDirective_fits v⟩

/-- Eight hexadecimal digits. -/
def hexDigits (n : Nat) : List Int := (Numeral.lastDigits 16 8 n).map digit

def hexWord (v : Word) : List Int := hexDigits v.toNat

theorem strField_text (s : CStr) : (strField s).text = stringText s.bytes := by
  have hformat : (bareDirective .str).format = CStr.ofString "%s" := by decide +kernel
  have houtput : output (strField s).directive.format (strField s).own =
      .ok (stringText s.bytes) := by
    show output (bareDirective .str).format [.str s] = _
    rw [hformat, output_string]
    rfl
  rw [Filled.text, houtput]
  rfl

theorem decField_text (v : Word) : (decField v).text = decText v := by
  have hformat : (bareDirective .dec).format = CStr.ofString "%d" := by decide +kernel
  have houtput : output (decField v).directive.format (decField v).own = .ok (decText v) := by
    show output (bareDirective .dec).format [.word v] = _
    rw [hformat, output_dec]
  rw [Filled.text, houtput]
  rfl

/-- **`%08x` prints the eight digits of a word.** -/
theorem hexField_text (v : Word) : (hexField v).text = hexWord v := by
  have hpos : 0 ≤ @Conv.value .hex Length.none.bits v := Int.natCast_nonneg v.toNat
  have hcount := @digitCount_le 16 (by decide) .none .hex v
  have hroom : (int32 (int32 8 - digitCount 16 v.toNat)).toNat =
      8 - (sign v.toNat ++ digits 16 (v.toNat : Int).natAbs).length := by
    rw [List.length_append, sign_length, digits_length]
    exact (@padding_eq_iff 8 _ hcount _).2 (Or.inr ⟨decide_eq_false (not_lt.mpr hpos), by omega⟩)
  have hlaw : output (hexField v).directive.format (hexField v).own =
      .ok (fieldText .zero 8 16 (v.toNat : Int)) :=
    (@output_field .hex rfl .zero 8 eight_pos .none v).trans
      (congrArg _ (@numberText_eq_fieldText .zero 8 16 v.toNat _ hroom (Or.inr ⟨hpos, by decide⟩)))
  obtain ⟨-, hdigits⟩ := Numeral.lastDigits_eq hex_base 7 v.toNat v.isLt
  have hsign : sign (v.toNat : Int) = [] := if_neg (by omega)
  rw [Filled.text, hlaw, hexWord, hexDigits, hdigits]
  show fieldText .zero 8 16 (v.toNat : Int) = _
  rw [fieldText, hsign, List.nil_append, List.nil_append, Int.natAbs_natCast, List.map_append,
    List.map_replicate, digits, List.length_map]
  rfl

/-- **A format that is written in parts** prints the texts of the parts. -/
theorem output_parts (parts : List Part)
    (hoct : ∀ c, Part.conv c ∈ parts → c.directive.conv ≠ .oct) {fmt : CStr}
    (hfmt : fmt.bytes = parts.flatMap Part.bytes) :
    output fmt (parts.flatMap Part.args) = .ok (parts.flatMap Part.printed) := by
  have heq : fmt = partsFormat parts := by
    cases fmt
    cases hfmt
    rfl
  have hrun := run_parts collect [] parts ((partsFormat parts).bytes.length + 12) [] [] hoct
    (by omega)
  rw [emit_collect, List.nil_append, List.append_nil] at hrun
  rw [heq, ← outputAp_snd]
  show (vprintfmtLoopAp collect _ ⟨[], _⟩ _ []).map Prod.snd = _
  rw [hrun]
  rfl

/-- A message goes to the console, and the caller goes on behind it. -/
theorem vcprintf_bind {δ β : Type} (d : Device δ) {fmt : CStr} {ap : List Arg} {t : List Int}
    (h : output fmt ap = .ok t) (m : Console δ) (f : Console δ × Int → Except Fault β) :
    (vcprintf d fmt ap m >>= f) = f (emit (cputchar d) t m, int32 t.length) := by
  rw [vcprintf_of_output d h]
  rfl

end Jos
