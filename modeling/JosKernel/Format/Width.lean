import JosKernel.Format.Numeric

/-!
# The field width of a number

The law of a field: as many characters as the width asks for, or as the number needs; spaces on
the left, zeros behind the sign for `0`, spaces on the right for `-`.  `printnum` knows nothing
of the sign, which is already out, and takes the flag `-` for one more padding character.

Principal result: `fieldLaw_iff` — when a number comes out as the law says.
-/

set_option autoImplicit false

namespace Jos

/-- At most one of the flags `-` and `0`. -/
inductive PadFlag where
  | none | minus | zero
  deriving DecidableEq, Repr

def PadFlag.items : PadFlag → List Item
  | .none => []
  | .minus => [.minus]
  | .zero => [.zero]

def PadFlag.padc : PadFlag → Int
  | .none => (char ' ').toInt
  | .minus => (char '-').toInt
  | .zero => (char '0').toInt

/-- A flag, a width, a length modifier and a conversion. -/
def fieldDirective (f : PadFlag) (W : Nat) (pos : 0 < W) (l : Length) (c : Conv) : Directive :=
  ⟨f.items ++ .number W pos :: l.items, by cases f <;> cases l <;> rfl, c⟩

theorem applyItems_field (f : PadFlag) (W : Nat) (pos : 0 < W) (l : Length) (ap : List Arg) :
    applyItems (f.items ++ .number W pos :: l.items) Spec.init ap =
      .ok (⟨f.padc, int32 W, -1, l.flag, false⟩, ap) := by
  cases f <;> cases l <;> rfl

/-- What the law wants for a number. -/
def fieldText (f : PadFlag) (W base : Nat) (v : Int) : List Int :=
  let room := W - (sign v ++ digits base v.natAbs).length
  match f with
  | .none => List.replicate room (char ' ').toInt ++ (sign v ++ digits base v.natAbs)
  | .zero => sign v ++ (List.replicate room (char '0').toInt ++ digits base v.natAbs)
  | .minus => sign v ++ digits base v.natAbs ++ List.replicate room (char ' ').toInt

/-- The law holds for this width and this argument. -/
def FieldLaw (f : PadFlag) (W : Nat) (pos : 0 < W) (l : Length) (c : Conv)
    (v : BitVec l.bits) : Prop :=
  output (fieldDirective f W pos l c).format (l.args v) = .ok (fieldText f W c.base (c.value v))

/-- The field of the law is as wide as the width or the number. -/
theorem fieldText_length (f : PadFlag) (W base : Nat) (v : Int) :
    (fieldText f W base v).length = max W (sign v ++ digits base v.natAbs).length := by
  cases f <;> simp only [fieldText, List.length_append, List.length_replicate] <;> omega

/-- The characters of digits are no blanks, signs or capital letters. -/
theorem digit_low : ∀ d < 16, (char '0').toInt ≤ digit d ∧ digit d ≠ (char 'X').toInt := by decide

theorem digits_head {base : Nat} (h2 : 2 ≤ base) (h16 : base ≤ 16) (n : Nat) :
    ∃ c t, digits base n = c :: t ∧ (char '0').toInt ≤ c ∧ c ≠ (char 'X').toInt := by
  unfold digits
  cases hn : Numeral.numeral base n with
  | nil => exact absurd hn (Numeral.numeral_ne_nil base n)
  | cons d ds =>
    have hd : d < base :=
      Numeral.lt_of_mem_numeral h2 (n := n) (by rw [hn]; exact List.mem_cons_self)
    exact ⟨_, _, rfl, digit_low d (by omega)⟩

/-! ## The law -/

theorem output_field {c : Conv} (hc : c.isInteger) (f : PadFlag) (W : Nat) (pos : 0 < W)
    (l : Length) (v : BitVec l.bits) :
    output (fieldDirective f W pos l c).format (l.args v) =
      .ok (numberText c.base (c.value v) (int32 W) f.padc) := by
  have htext := integer_text hc l v
    (show (Spec.mk f.padc (int32 W) (-1) l.flag false).lflag = l.flag from rfl) []
  rw [List.append_nil] at htext
  rw [output_directive, Directive.text, fieldDirective, applyItems_field]
  show (c.text _ (l.args v)).map Prod.snd = _
  rw [htext, map_ok]

/-- The padding that is printed, and the one that the law wants: the sign is not counted. -/
theorem padding_eq_iff {W k : Nat} (hk : k ≤ 64) (neg : Bool) :
    (int32 (int32 W - k)).toNat = W - (neg.toNat + k) ↔
      W ≤ k ∨ (neg = false ∧ W < 2147483648 + k) := by
  have hwrap : int32 (int32 W - k) = int32 (W - k) := int32_congr (by
    have := int32_emod W
    omega)
  rw [hwrap]
  unfold int32
  cases neg <;> simp <;> omega

theorem sign_length (v : Int) : (sign v).length = (decide (v < 0)).toNat := by
  unfold sign
  split <;> simp [*]

theorem digits_length (base : Nat) (v : Int) :
    (digits base v.natAbs).length = digitCount base v := by
  rw [digits, List.length_map]
  rfl

/-- With the flag, the first character is a padding character and should be a digit. -/
theorem numberText_minus_ne {base : Nat} (h2 : 2 ≤ base) (h16 : base ≤ 16) {v width : Int}
    (hv : 0 ≤ v) (hpad : 0 < int32 (width - digitCount base v)) (W : Nat) :
    numberText base v width PadFlag.minus.padc ≠ fieldText .minus W base v := by
  intro h
  obtain ⟨x, t, hdigits, hx, -⟩ := digits_head h2 h16 v.natAbs
  obtain ⟨k, hk⟩ : ∃ k, (int32 (width - digitCount base v)).toNat = k + 1 :=
    ⟨(int32 (width - digitCount base v)).toNat - 1, by omega⟩
  have hsign : sign v = [] := if_neg (by omega)
  rw [numberText, hk, fieldText, hsign, hdigits, List.replicate_succ] at h
  have hhead : (char '-').toInt = x := (List.cons.inj h).1
  rw [← hhead] at hx
  exact absurd hx (by decide)

/-- The padding of the law, where it goes to the left of a number without a sign. -/
theorem numberText_eq_fieldText {f : PadFlag} {W base : Nat} {v width : Int}
    (hroom : (int32 (width - digitCount base v)).toNat =
      W - (sign v ++ digits base v.natAbs).length)
    (h : W ≤ digitCount base v ∨ (0 ≤ v ∧ f ≠ .minus)) :
    numberText base v width f.padc = fieldText f W base v := by
  rw [numberText, hroom]
  rcases h with hle | ⟨hv, hf⟩
  · -- nothing is padded
    have hzero : W - (sign v ++ digits base v.natAbs).length = 0 := by
      rw [List.length_append, digits_length]
      omega
    cases f <;> simp only [fieldText, hzero, List.replicate_zero, List.nil_append, List.append_nil]
  · have hsign : sign v = [] := if_neg (by omega)
    cases f with
    | minus => exact absurd rfl hf
    | _ => simp [fieldText, hsign, PadFlag.padc]

/-- **A number comes out as the law says** if the width is not larger than its digits, and
otherwise if it has no sign and the padding does not go to the right. -/
theorem fieldLaw_iff {c : Conv} (hc : c.isInteger) (f : PadFlag) (W : Nat) (pos : 0 < W)
    (l : Length) (v : BitVec l.bits) :
    FieldLaw f W pos l c v ↔ W ≤ digitCount c.base (c.value v) ∨
      (0 ≤ c.value v ∧ f ≠ .minus ∧ W < 2147483648 + digitCount c.base (c.value v)) := by
  have hbase : 2 ≤ c.base ∧ c.base ≤ 16 := by cases c <;> decide
  have hcount := digitCount_le hbase.1 c v
  have hpad := @padding_eq_iff W _ hcount (decide (c.value v < 0))
  unfold FieldLaw
  rw [output_field hc, Except.ok.injEq]
  constructor
  · intro h
    have hlength := congrArg List.length h
    rw [fieldText_length, numberText] at hlength
    simp only [List.length_append, List.length_replicate, digits_length, sign_length] at hlength
    rcases hpad.1 (by omega) with hle | ⟨hneg, hlt⟩
    · exact Or.inl hle
    · have hpos : 0 ≤ c.value v := by simpa using hneg
      refine (Nat.lt_or_ge (digitCount c.base (c.value v)) W).elim (fun hW => Or.inr ?_) Or.inl
      refine ⟨hpos, fun hf => ?_, hlt⟩
      have hroom := hpad.2 (Or.inr ⟨hneg, hlt⟩)
      rw [hneg, Bool.toNat_false] at hroom
      rw [hf] at h
      exact numberText_minus_ne hbase.1 hbase.2 hpos (by omega) W h
  · intro h
    have hroom : (int32 (int32 W - digitCount c.base (c.value v))).toNat =
        W - (sign (c.value v) ++ digits c.base (c.value v).natAbs).length := by
      rw [List.length_append, sign_length, digits_length]
      apply hpad.2
      rcases h with hle | ⟨hpos, -, hlt⟩
      · exact Or.inl hle
      · exact Or.inr ⟨by simpa using hpos, hlt⟩
    exact numberText_eq_fieldText hroom (h.imp_right fun h' => ⟨h'.1, h'.2.1⟩)

/-- `%5u` of 42. -/
theorem fieldLaw_iff_spaces : FieldLaw .none 5 (by decide) .none .uns (42 : Word) :=
  (@fieldLaw_iff .uns rfl .none 5 (by decide) .none (42 : Word)).2
    (Or.inr ⟨by decide, by decide, by omega⟩)

theorem numeral_fortyTwo : Numeral.numeral 10 42 = [4, 2] := by
  rw [Numeral.numeral_of_le decimal_base (by decide), Numeral.numeral_of_lt (by decide)]
  rfl

/-- `%5d` of -42 is six characters long with the sign in front, and `%-5d` of 42 starts with
three minus signs. -/
theorem negative_and_left_not_law :
    ¬FieldLaw .none 5 (by decide) .none .dec (-42 : Word) ∧
      ¬FieldLaw .minus 5 (by decide) .none .dec (42 : Word) := by
  have hdigits : digits 10 42 = [52, 50] := congrArg _ numeral_fortyTwo
  have hcount : (Numeral.numeral 10 42).length = 2 := congrArg _ numeral_fortyTwo
  constructor
  · intro h
    have heq := (@output_field .dec rfl .none 5 (by decide) .none (-42 : Word)).symm.trans h
    have htext : numberText 10 (-42) 5 32 = fieldText .none 5 10 (-42) := Except.ok.inj heq
    simp [numberText, fieldText, sign, digitCount, hdigits, hcount] at htext
    exact absurd htext (by decide)
  · intro h
    have heq := (@output_field .dec rfl .minus 5 (by decide) .none (42 : Word)).symm.trans h
    have htext : numberText 10 42 5 45 = fieldText .minus 5 10 42 := Except.ok.inj heq
    simp [numberText, fieldText, sign, digitCount, hdigits, hcount] at htext
    exact absurd htext (by decide)

end Jos
