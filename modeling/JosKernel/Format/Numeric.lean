import JosKernel.Format.Fields

/-!
# The number conversions

`%d`, `%u` and `%x` with their length modifiers, and `%p`.  An integer argument has as many bits
as its modifier says; a `long long` takes two slots.  `numberText` is what all of them print: the
sign goes out before `printnum` is called, so the field width counts only the digits.

Principal result: `numeric_conversions` — `printnum` prints padding and the canonical numeral,
and without fields the conversions print the numeral of every value.
-/

set_option autoImplicit false

namespace Jos

open Numeral

/-! ## Arguments -/

/-- A length modifier. -/
inductive Length where
  | none | long | longLong
  deriving DecidableEq, Repr

def Length.items : Length → List Item
  | .none => []
  | .long => [.ell]
  | .longLong => [.ell, .ell]

def Length.bits : Length → Nat
  | .none | .long => 32
  | .longLong => 64

/-- The slots of an integer argument. -/
def Length.args : (l : Length) → BitVec l.bits → List Arg
  | .none, v | .long, v => [.word v]
  | .longLong, v => [.word (BitVec.extractLsb' 0 32 v), .word (BitVec.extractLsb' 32 32 v)]

theorem Length.bits_le (l : Length) : l.bits = 32 ∨ l.bits = 64 := by
  cases l with
  | longLong => exact Or.inr rfl
  | _ => exact Or.inl rfl

/-- The value of `lflag` behind the modifier. -/
def Length.flag : Length → Int
  | .none => 0
  | .long => 1
  | .longLong => 2

theorem vaArgQuad_args (v : BitVec 64) (ap : List Arg) :
    vaArgQuad (Length.args .longLong v ++ ap) = .ok (v, ap) := by
  have hsplit : BitVec.extractLsb' 32 32 v ++ BitVec.extractLsb' 0 32 v = v := by
    apply BitVec.eq_of_getLsbD_eq
    intro i hi
    rw [BitVec.getLsbD_append, BitVec.getLsbD_extractLsb', BitVec.getLsbD_extractLsb']
    by_cases h : i < 32
    · simp [h]
    · simp [h, show i - 32 < 32 by omega, show 32 + (i - 32) = i by omega]
  show Except.ok (BitVec.extractLsb' 32 32 v ++ BitVec.extractLsb' 0 32 v, ap) = _
  rw [hsplit]

theorem getint_args (l : Length) (v : BitVec l.bits) (ap : List Arg) :
    getint (l.args v ++ ap) l.flag = .ok (v.toInt, ap) := by
  cases l with
  | longLong =>
    rw [getint, if_pos (by decide)]
    exact congrArg (Except.map fun r => (r.1.toInt, r.2)) (vaArgQuad_args v ap)
  | _ => rfl

theorem getuint_args (l : Length) (v : BitVec l.bits) (ap : List Arg) :
    getuint (l.args v ++ ap) l.flag = .ok (v.toNat, ap) := by
  cases l with
  | longLong =>
    rw [getuint, if_pos (by decide)]
    exact congrArg (Except.map fun r => (r.1.toNat, r.2)) (vaArgQuad_args v ap)
  | _ => rfl

/-! ## Texts -/

/-- The integer conversions. -/
def Conv.isInteger : Conv → Bool
  | .dec | .uns | .hex => true
  | _ => false

def Conv.base : Conv → Nat
  | .hex | .ptr => 16
  | .oct => 8
  | _ => 10

/-- The number that the argument stands for. -/
def Conv.value (c : Conv) {w : Nat} (v : BitVec w) : Int :=
  if c = .dec then v.toInt else v.toNat

/-- The sign of a number. -/
def sign (v : Int) : List Int := if v < 0 then [(char '-').toInt] else []

/-- The number of digits. -/
def digitCount (base : Nat) (v : Int) : Nat := (numeral base v.natAbs).length

/-- What is printed for a number in a field. -/
def numberText (base : Nat) (v : Int) (width padc : Int) : List Int :=
  sign v ++ (List.replicate (int32 (width - digitCount base v)).toNat padc ++
    digits base v.natAbs)

theorem natAbs_lt_of_length {l : Length} (c : Conv) (v : BitVec l.bits) :
    (c.value v).natAbs < 18446744073709551616 := by
  have hlt := v.isLt
  have hpow : 2 ^ l.bits ≤ 18446744073709551616 := by
    rcases l.bits_le with h | h <;> rw [h] <;> omega
  unfold Conv.value
  split
  · have := v.toInt_lt
    have := v.le_toInt
    have hhalf : 2 * 2 ^ (l.bits - 1) = 2 ^ l.bits := by
      rcases l.bits_le with h | h <;> rw [h] <;> rfl
    have : ((2 ^ (l.bits - 1) : Nat) : Int) = 2 ^ (l.bits - 1) := by norm_cast
    omega
  · omega

theorem digitCount_le {base : Nat} (hbase : 2 ≤ base) {l : Length} (c : Conv)
    (v : BitVec l.bits) : digitCount base (c.value v) ≤ 64 :=
  numeral_length_le hbase 63 _ (natAbs_lt_of_length c v)

/-- `%d`, `%u` and `%x` print their argument in the field, and leave the other arguments. -/
theorem integer_text {c : Conv} (hc : c.isInteger) (l : Length) (v : BitVec l.bits)
    {e : Spec} (he : e.lflag = l.flag) (ap : List Arg) :
    c.text e (l.args v ++ ap) =
      .ok (ap, numberText c.base (c.value v) e.width e.padc) := by
  have hnat : ∀ (base : Nat) (hbase : 2 ≤ base) (n : Nat) (s : List Int),
      printnum collect n base hbase e.width e.padc s =
        s ++ (List.replicate (int32 (e.width - (numeral base n).length)).toNat e.padc ++
          digits base n) := by
    intro base hbase n s
    rw [printnum_eq, emit_collect]
  cases c with
  | uns =>
    show (getuint (l.args v ++ ap) e.lflag >>= fun r => _) = _
    rw [he, getuint_args]
    show Except.ok (ap, printnum collect v.toNat 10 _ e.width e.padc []) = _
    rw [hnat]
    simp [numberText, sign, digitCount, Conv.value, Conv.base]
  | hex =>
    show (getuint (l.args v ++ ap) e.lflag >>= fun r => _) = _
    rw [he, getuint_args]
    show Except.ok (ap, printnum collect v.toNat 16 _ e.width e.padc []) = _
    rw [hnat]
    simp [numberText, sign, digitCount, Conv.value, Conv.base]
  | dec =>
    show (getint (l.args v ++ ap) e.lflag >>= fun r => _) = _
    have habs := natAbs_lt_of_length .dec v
    rw [he, getint_args]
    show (if v.toInt < 0 then _ else _) = _
    simp only [Conv.value, if_true] at habs
    unfold numberText sign digitCount
    simp only [Conv.value, Conv.base, if_true]
    split
    · rw [show uint64 (-v.toInt) = v.toInt.natAbs by unfold uint64; omega, hnat]
      rfl
    · rw [show v.toInt.toNat = v.toInt.natAbs by omega, hnat]
  | _ => cases hc

/-- `%p` prints its prefix outside of the field. -/
theorem pointer_text (v : Word) (e : Spec) (ap : List Arg) :
    Conv.text .ptr e (.word v :: ap) =
      .ok (ap, plain (CStr.ofString "0x").bytes ++ numberText 16 v.toNat e.width e.padc) := by
  show Except.ok (ap, printnum collect v.toNat 16 _ e.width e.padc
    (collect (char 'x').toInt (collect (char '0').toInt []))) = _
  rw [printnum_eq, emit_collect]
  simp [numberText, sign, digitCount]
  rfl

/-! ## Conversions without fields -/

/-- The characters are the canonical numeral of the number. -/
def Writes (base num : Nat) (t : List Int) : Prop :=
  ∃ ds, IsNumeral base num ds ∧ t = ds.map digit

theorem writes_digits {base : Nat} (hbase : 2 ≤ base) (num : Nat) :
    Writes base num (digits base num) :=
  ⟨numeral base num, isNumeral_numeral hbase num, rfl⟩

/-- A conversion with nothing but a length modifier. -/
def Length.directive (l : Length) (c : Conv) : Directive :=
  ⟨l.items, by cases l <;> rfl, c⟩

theorem applyItems_length (l : Length) (ap : List Arg) :
    applyItems l.items Spec.init ap = .ok ({ Spec.init with lflag := l.flag }, ap) := by
  cases l <;> rfl

/-- Without a width nothing is padded. -/
theorem numberText_init {base : Nat} {v : Int} (h : digitCount base v ≤ 64) :
    numberText base v Spec.init.width Spec.init.padc = sign v ++ digits base v.natAbs := by
  have hzero : (int32 (Spec.init.width - digitCount base v)).toNat = 0 :=
    (padding_eq_zero_iff _).2 (by omega)
  rw [numberText, hzero]
  rfl

theorem output_integer {c : Conv} (hc : c.isInteger) (hbase : 2 ≤ c.base) (l : Length)
    (v : BitVec l.bits) :
    output (l.directive c).format (l.args v) =
      .ok (sign (c.value v) ++ digits c.base (c.value v).natAbs) := by
  have htext := integer_text hc l v (show ({ Spec.init with lflag := l.flag } : Spec).lflag =
    l.flag from rfl) []
  rw [List.append_nil] at htext
  rw [output_directive, Directive.text, Length.directive, applyItems_length]
  show (c.text { Spec.init with lflag := l.flag } (l.args v)).map Prod.snd = _
  rw [htext, map_ok]
  exact congrArg Except.ok (numberText_init (digitCount_le hbase c v))

theorem output_pointer (l : Length) (v : Word) :
    output (l.directive .ptr).format [.word v] =
      .ok (plain (CStr.ofString "0x").bytes ++ digits 16 v.toNat) := by
  have hcount : digitCount 16 (v.toNat : Int) ≤ 64 :=
    numeral_length_le (by decide) 63 _ (toNat_lt_quad v)
  rw [output_directive, Directive.text, Length.directive, applyItems_length]
  show (Conv.text .ptr { Spec.init with lflag := l.flag } [.word v]).map Prod.snd = _
  rw [pointer_text, map_ok]
  show Except.ok (_ ++ numberText 16 v.toNat Spec.init.width Spec.init.padc) = _
  rw [numberText_init hcount]
  rfl

/-- **Numbers are printed as canonical numerals**: by `printnum` behind the padding that the
width asks for, and by the conversions for every value of each size. -/
theorem numeric_conversions :
    (∀ {σ : Type} (putch : Int → σ → σ) (num base : Nat) (hbase : 2 ≤ base) (width padc : Int)
      (s : σ), num < 18446744073709551616 → base ≤ 16 → IsInt32 width → -2147483584 ≤ width →
      ∃ ds, IsNumeral base num ds ∧ printnum putch num base hbase width padc s =
        emit putch (List.replicate (width - ds.length).toNat padc ++ ds.map digit) s) ∧
    (∀ (l : Length) (v : BitVec l.bits),
      (∃ t, Writes 10 v.toInt.natAbs t ∧
        output (l.directive .dec).format (l.args v) = .ok (sign v.toInt ++ t)) ∧
      (∃ t, Writes 10 v.toNat t ∧ output (l.directive .uns).format (l.args v) = .ok t) ∧
      ∃ t, Writes 16 v.toNat t ∧ output (l.directive .hex).format (l.args v) = .ok t) ∧
    ∀ (l : Length) (v : Word), ∃ t, Writes 16 v.toNat t ∧
      output (l.directive .ptr).format [.word v] =
        .ok (plain (CStr.ofString "0x").bytes ++ t) := by
  refine ⟨?_, ?_, ?_⟩
  · intro σ putch num base hbase width padc s hnum _ hwidth hlow
    have hlen := numeral_length_le hbase 63 num hnum
    have hroom : int32 (width - (numeral base num).length) =
        width - (numeral base num).length := by
      unfold IsInt32 at hwidth
      unfold int32
      omega
    refine ⟨numeral base num, isNumeral_numeral hbase num, ?_⟩
    rw [printnum_eq, hroom]
    rfl
  · intro l v
    refine ⟨⟨_, writes_digits (by decide) _, ?_⟩, ⟨_, writes_digits (by decide) _, ?_⟩,
      ⟨_, writes_digits (by decide) _, ?_⟩⟩
    · exact @output_integer .dec rfl (by decide) l v
    · exact (@output_integer .uns rfl (by decide) l v).trans (by simp [sign, Conv.value, Conv.base])
    · exact (@output_integer .hex rfl (by decide) l v).trans (by simp [sign, Conv.value, Conv.base])
  · intro l v
    exact ⟨_, writes_digits (by decide) _, output_pointer l v⟩

/-- Seven in a field of three, and the smallest `long long`. -/
theorem numeric_conversions_smallest :
    (∃ ds, IsNumeral 10 7 ds ∧ printnum collect 7 10 decimal_base 3 32 [] =
      emit collect (List.replicate (3 - ds.length : Int).toNat 32 ++ ds.map digit) []) ∧
    ∃ t, Writes 10 9223372036854775808 t ∧
      output (Length.directive .longLong .dec).format (Length.args .longLong (BitVec.intMin 64)) =
        .ok ((char '-').toInt :: t) := by
  refine ⟨?_, ?_⟩
  · exact numeric_conversions.1 collect 7 10 decimal_base 3 32 [] (by decide) (by decide)
      (by unfold IsInt32; decide) (by decide)
  · exact (numeric_conversions.2.1 .longLong (BitVec.intMin 64)).1

/-- `%lld`. -/
example : (Length.directive .longLong .dec).format.bytes = (CStr.ofString "%lld").bytes := by
  decide +kernel

end Jos
