import JosKernel.Format.Number

/-!
# `%e`

The texts of the error codes.  `case 'e'` takes the absolute value of the code in an `int`,
so it indexes `error_string` with a number below `MAXERROR` that is negative for one code: the
smallest `int` is its own negation.

Principal results: `printError_emit` — what `%e` prints for any code; `errorLaw_iff` — it is
what the comment of `printfmt.c` says for every code but the smallest.
-/

set_option autoImplicit false

namespace Jos

open Numeral

/-- `if (err < 0) err = -err`. -/
def errorAbs (err : Int) : Int := if err < 0 then int32 (-err) else err

/-- The index at which `case 'e'` reads `error_string`, if it does. -/
def errorIndex (err : Int) : Option Int :=
  if errorAbs err ≥ MAXERROR then none else some (errorAbs err)

/-- `"error %d"`. -/
def errorNumber (err : Int) : List Int :=
  plain (CStr.ofString "error ").bytes ++ decText (BitVec.ofInt 32 (errorAbs err))

/-- What `%e` prints. -/
def errorText (err : Int) : List Int :=
  match (errorIndex err).bind errorString with
  | none => errorNumber err
  | some p => stringText p.bytes

section Output

variable {σ : Type} (putch : Int → σ → σ)

/-- `case 'e'` reads its table at the index and nowhere else. -/
theorem printError_index (printfmt : CStr → List Arg → σ → Except Fault σ) (err : Int) (s : σ) :
    printError printfmt err s =
      match (errorIndex err).bind errorString with
      | none => printfmt (CStr.ofString "error %d") [.word (BitVec.ofInt 32 (errorAbs err))] s
      | some p => printfmt (CStr.ofString "%s") [.str p] s := by
  have hindex : (errorIndex err).bind errorString =
      if errorAbs err ≥ MAXERROR then none else errorString (errorAbs err) := by
    unfold errorIndex
    split <;> rfl
  rw [hindex]
  rfl

/-- **An error code is printed as its text or its number.** -/
theorem printError_emit {fuel : Nat} (hfuel : 8 ≤ fuel) (err : Int) (s : σ) :
    printError (fun fmt ap s => vprintfmtLoop putch fuel fmt.start ap s) err s =
      .ok (emit putch (errorText err) s) := by
  obtain ⟨k, rfl⟩ := Nat.exists_eq_add_of_le' hfuel
  rw [printError_index, errorText]
  cases (errorIndex err).bind errorString with
  | none =>
    show vprintfmtLoop putch (k + 8) _ _ s = _
    rw [printfmt_number, printInt_init, ← emit_append]
    rfl
  | some p =>
    show vprintfmtLoop putch (k + 6 + 2) _ _ s = _
    rw [printfmt_text, printString_init]

end Output

theorem output_err (v : Word) :
    output (CStr.ofString "%e") [.word v] = .ok (errorText v.toInt) := by
  have hstart : (CStr.ofString "%e").start = ⟨[], char '%' :: [char 'e', 0]⟩ := by decide
  have hflags : reswitch ([char 'e', 0].length + 1) ⟨[char '%'], [char 'e', 0]⟩ Spec.init
      [.word v] = .ok (char 'e', ⟨[char 'e', char '%'], [0]⟩, Spec.init, [.word v]) := rfl
  have hprint := printError_emit collect (show 8 ≤ 13 by decide) v.toInt []
  rw [output, vprintfmt, hstart, vprintfmtLoop_escape, escape, hflags]
  show (printError (fun fmt ap s => vprintfmtLoop collect 13 fmt.start ap s) v.toInt [] >>=
    fun s => Except.ok (_, [], s)) >>= _ = _
  rw [hprint, emit_collect]
  rfl

/-! ## The law -/

/-- What the table and the comment on `%e` promise for one code. -/
structure ErrorLaw (v : Word) : Prop where
  inRange : ∀ i, errorIndex v.toInt = some i → 0 ≤ i ∧ i < MAXERROR
  known : 1 ≤ v.toInt.natAbs → v.toInt.natAbs < MAXERROR →
    ∃ p, errorTable[v.toInt.natAbs]? = some (some p) ∧
      output (CStr.ofString "%e") [.word v] = .ok (signed p.bytes)
  unknown : ¬(1 ≤ v.toInt.natAbs ∧ v.toInt.natAbs < MAXERROR) →
    output (CStr.ofString "%e") [.word v] =
      .ok (plain (CStr.ofString "error ").bytes ++ digits 10 v.toInt.natAbs)
  signBlind : v.toInt ≠ -2147483648 →
    output (CStr.ofString "%e") [.word (-v)] = output (CStr.ofString "%e") [.word v]

theorem errorAbs_natAbs {v : Word} (hv : v.toInt ≠ -2147483648) :
    errorAbs v.toInt = v.toInt.natAbs := by
  have hlt := v.toInt_lt
  have hge := v.le_toInt
  unfold errorAbs int32
  split <;> omega

theorem errorText_congr {err err' : Int} (h : errorAbs err = errorAbs err') :
    errorText err = errorText err' := by
  unfold errorText errorIndex errorNumber
  rw [h]

/-- The entries of the table, behind the hole at index 0. -/
theorem errorString_known : ∀ n : Nat, 1 ≤ n → n < 7 →
    ∃ p, errorTable[n]? = some (some p) ∧ errorString n = some p ∧ padding p.bytes.length = 0
  | 0, h, _ => absurd h (by decide)
  | 1, _, _ => ⟨_, rfl, rfl, by decide⟩
  | 2, _, _ => ⟨_, rfl, rfl, by decide⟩
  | 3, _, _ => ⟨_, rfl, rfl, by decide⟩
  | 4, _, _ => ⟨_, rfl, rfl, by decide⟩
  | 5, _, _ => ⟨_, rfl, rfl, by decide⟩
  | 6, _, _ => ⟨_, rfl, rfl, by decide⟩
  | _ + 7, _, h => absurd h (by omega)

/-- The number of a code without a text is its absolute value. -/
theorem errorNumber_eq {v : Word} (hv : v.toInt ≠ -2147483648) :
    errorNumber v.toInt =
      plain (CStr.ofString "error ").bytes ++ digits 10 v.toInt.natAbs := by
  have hlt := v.toInt_lt
  have hge := v.le_toInt
  have habs : (BitVec.ofInt 32 v.toInt.natAbs).toInt = v.toInt.natAbs := by
    rw [BitVec.toInt_ofInt, Int.bmod_def]
    omega
  rw [errorNumber, errorAbs_natAbs hv, decText, habs, if_neg (by omega), List.nil_append,
    Int.natAbs_natCast]

theorem errorIndex_natAbs {v : Word} (hv : v.toInt ≠ -2147483648) :
    errorIndex v.toInt =
      if (v.toInt.natAbs : Int) ≥ MAXERROR then none else some (v.toInt.natAbs : Int) := by
  rw [errorIndex, errorAbs_natAbs hv]

theorem errorAbs_neg {v : Word} (hv : v.toInt ≠ -2147483648) :
    errorAbs (-v).toInt = errorAbs v.toInt := by
  have hlt := v.toInt_lt
  have hge := v.le_toInt
  have hneg : (-v).toInt = -v.toInt := by
    rw [BitVec.toInt_neg, Int.bmod_def]
    omega
  have hv' : (-v).toInt ≠ -2147483648 := by omega
  rw [errorAbs_natAbs hv, errorAbs_natAbs hv', hneg, Int.natAbs_neg]

/-- **`%e` is total and blind to the sign for every code except the smallest `int`.** -/
theorem errorLaw_iff (v : Word) : ErrorLaw v ↔ v.toInt ≠ -2147483648 := by
  constructor
  · intro h hv
    have hindex : errorIndex v.toInt = some (-2147483648) := by rw [hv]; rfl
    exact absurd (h.inRange _ hindex).1 (by decide)
  · intro hv
    have hindex := errorIndex_natAbs hv
    have hmax : MAXERROR = 7 := rfl
    refine ⟨?_, ?_, ?_, ?_⟩
    · intro i hi
      rw [hindex] at hi
      split at hi
      · cases hi
      · cases hi
        omega
    · intro h1 hlt
      obtain ⟨p, htable, hstring, hpad⟩ := errorString_known v.toInt.natAbs h1 (by omega)
      refine ⟨p, htable, ?_⟩
      rw [output_err, errorText, hindex, if_neg (by omega), Option.bind_some, hstring]
      show Except.ok (stringText p.bytes) = _
      rw [stringText, hpad, List.replicate_zero, List.append_nil]
    · intro hunknown
      have hnone : (errorIndex v.toInt).bind errorString = none := by
        rw [hindex]
        split
        · rfl
        · rw [show v.toInt.natAbs = 0 by omega]
          rfl
      rw [output_err, errorText, hnone, ← errorNumber_eq hv]
    · intro _
      rw [output_err, output_err, errorText_congr (errorAbs_neg hv)]

/-- The smallest `int` is its own negation, and not an index of the table. -/
theorem smallest_not_errorLaw : ¬ErrorLaw 0x80000000 := by
  intro h
  have hindex : errorIndex (0x80000000 : Word).toInt = some (-2147483648) := by decide
  exact absurd (h.inRange _ hindex).1 (by decide)

end Jos
