import JosKernel.Foundation.Numeral
import JosKernel.Format.Text

/-!
# Numbers as text

`printnum` calls itself on the higher digits first, so it prints the numeral of its argument;
the digits use up the field width, and what is left of it is padding in front.

Principal results: `printnum_eq` — the characters of a number; `output_dec`, `output_uns`,
`output_hex`, `output_ptr` — the whole output of `%d`, `%u`, `%x` and `%p`.
-/

set_option autoImplicit false

namespace Jos

open Numeral

/-- The characters of a number. -/
def digits (base num : Nat) : List Int := (numeral base num).map digit

theorem pad_replicate {σ : Type} (putch : Int → σ → σ) (c : Int) (k : Nat) (t : List Int) (s : σ) :
    emit putch t (pad putch c k s) = emit putch (List.replicate k c ++ t) s := by
  rw [pad_eq_emit, emit_append]

/-- **`printnum` prints the padding and the numeral.** -/
theorem printnum_eq {σ : Type} (putch : Int → σ → σ) {base : Nat} (hbase : 2 ≤ base) (padc : Int)
    (s : σ) (num : Nat) (width : Int) :
    printnum putch num base hbase width padc s =
      emit putch (List.replicate (int32 (width - (numeral base num).length)).toNat padc ++
        digits base num) s := by
  induction num using Nat.strongRecOn generalizing width with
  | _ num ih =>
    by_cases hlt : num < base
    · rw [printnum_of_lt putch hlt, digits, numeral_of_lt hlt, ← pad_replicate]
      rfl
    · have hle : base ≤ num := by omega
      rw [printnum_of_le putch hle, ih (num / base) (Nat.div_lt_self (by omega) (by omega)),
        digits, digits, numeral_of_le hbase hle, List.map_append, ← List.append_assoc,
        emit_append putch _ (List.map digit [num % base])]
      have hwidth : int32 (int32 (width - 1) - (numeral base (num / base)).length) =
          int32 (width - (numeral base (num / base) ++ [num % base]).length) := by
        rw [Int.sub_eq_add_neg, int32_add_left, List.length_append, List.length_singleton]
        congr 1
        omega
      rw [hwidth]
      rfl

/-- A number of `k` bits has at most `k` digits. -/
theorem numeral_length_le {base : Nat} (hbase : 2 ≤ base) :
    ∀ k num : Nat, num < 2 ^ (k + 1) → (numeral base num).length ≤ k + 1 := by
  intro k
  induction k with
  | zero =>
    intro num h
    rw [numeral_of_lt (by omega)]
    exact Nat.le_refl 1
  | succ k ih =>
    intro num h
    by_cases hlt : num < base
    · rw [numeral_of_lt hlt]
      exact Nat.le_add_left 1 _
    · rw [numeral_of_le hbase (by omega), List.length_append, List.length_singleton]
      have hdiv : num / base ≤ num / 2 := Nat.div_le_div_left hbase (by omega)
      have := ih (num / base) (by omega)
      omega

/-- Without a field width there is no padding. -/
theorem printnum_init {σ : Type} (putch : Int → σ → σ) {base : Nat} (hbase : 2 ≤ base)
    {num : Nat} (hnum : num < 18446744073709551616) (s : σ) :
    printnum putch num base hbase Spec.init.width Spec.init.padc s =
      emit putch (digits base num) s := by
  have hlen := numeral_length_le hbase 63 num hnum
  have hzero : (int32 (Spec.init.width - (numeral base num).length)).toNat = 0 :=
    (padding_eq_zero_iff _).2 (by omega)
  rw [printnum_eq, hzero]
  rfl

/-! ## The number conversions -/

/-- The output of a format that is one conversion without flags. -/
theorem output_conversion (ch : Byte) (hch : (label ch).again = false) (hconv : label ch ≠ .other)
    (herr : label ch ≠ .err) {fmt : CStr} (hfmt : fmt.bytes = [char '%', ch]) {ap : List Arg}
    {t : List Int} (h : convert collect (label ch) Spec.init ap [] = .ok ([], t)) :
    output fmt ap = .ok t := by
  have hstart : fmt.start = ⟨[], char '%' :: ch :: [0]⟩ := by rw [CStr.start, hfmt]; rfl
  rw [output, vprintfmt, hstart, vprintfmtLoop_conversion collect _ hch hconv herr, h]
  rfl

theorem toNat_lt_quad (v : Word) : v.toNat < 18446744073709551616 := by
  have := v.isLt
  omega

/-- The text of `%d`: a sign and the magnitude. -/
def decText (v : Word) : List Int :=
  (if v.toInt < 0 then [(char '-').toInt] else []) ++ digits 10 v.toInt.natAbs

/-- The text of `%p`. -/
def ptrText (v : Word) : List Int := (char '0').toInt :: (char 'x').toInt :: digits 16 v.toNat

/-- The sign and the magnitude of an `int`. -/
theorem printInt_init {σ : Type} (putch : Int → σ → σ) (v : Word) (s : σ) :
    printInt putch v Spec.init s = emit putch (decText v) s := by
  have hlt := v.toInt_lt
  have hge := v.le_toInt
  rw [printInt, decText]
  split
  · rw [show uint64 (-v.toInt) = v.toInt.natAbs by unfold uint64; omega,
      printnum_init putch _ (by omega)]
    rfl
  · rw [show v.toInt.toNat = v.toInt.natAbs by omega, printnum_init putch _ (by omega)]
    rfl

theorem output_dec (v : Word) : output (CStr.ofString "%d") [.word v] = .ok (decText v) := by
  refine output_conversion (char 'd') (by decide) (by decide) (by decide) rfl ?_
  show convert collect .dec Spec.init [.word v] [] = _
  rw [convert_dec collect v (by decide), printInt_init, emit_collect]
  rfl

/-- `%d` between two texts. -/
theorem output_dec_between {a b : List Byte} (ha : IsText a) (hb : IsText b) {fmt : CStr}
    (hfmt : fmt.bytes = a ++ char '%' :: char 'd' :: b) (v : Word) :
    output fmt [.word v] = .ok (plain a ++ decText v ++ plain b) := by
  refine output_between ha hb (by decide) (by decide) (by decide) hfmt fun s => ?_
  show convert collect .dec Spec.init [.word v] s = _
  rw [convert_dec collect v (by decide), printInt_init, emit_collect]

theorem output_uns (v : Word) :
    output (CStr.ofString "%u") [.word v] = .ok (digits 10 v.toNat) := by
  refine output_conversion (char 'u') (by decide) (by decide) (by decide) rfl ?_
  show Except.ok ([], printnum collect v.toNat 10 _ Spec.init.width Spec.init.padc []) = _
  rw [printnum_init collect _ (toNat_lt_quad v), emit_collect]
  rfl

theorem output_hex (v : Word) :
    output (CStr.ofString "%x") [.word v] = .ok (digits 16 v.toNat) := by
  refine output_conversion (char 'x') (by decide) (by decide) (by decide) rfl ?_
  show Except.ok ([], printnum collect v.toNat 16 _ Spec.init.width Spec.init.padc []) = _
  rw [printnum_init collect _ (toNat_lt_quad v), emit_collect]
  rfl

theorem output_ptr (v : Word) : output (CStr.ofString "%p") [.word v] = .ok (ptrText v) := by
  refine output_conversion (char 'p') (by decide) (by decide) (by decide) rfl ?_
  show Except.ok ([], printnum collect v.toNat 16 _ Spec.init.width Spec.init.padc
    (collect (char 'x').toInt (collect (char '0').toInt []))) = _
  rw [printnum_init collect _ (toNat_lt_quad v), emit_collect]
  rfl

end Jos
