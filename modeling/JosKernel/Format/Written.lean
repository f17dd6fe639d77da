import JosKernel.Format.Strings

/-!
# Fields in the format and fields as arguments

A width or a precision can be written in the format or given by an argument for `*`.  The two
agree, because a decimal number of the format is handed to the same label.  But a field that
starts with `0` is not a number: `.0` is a `.` and the flag `0`, and leaves the precision unset.

Principal result: `sameFields_iff` — when a format with written fields prints the same.
-/

set_option autoImplicit false

namespace Jos

open Numeral

/-- `%W.Ps`, `%-W.Ps` and `%.Ps`. -/
inductive Layout where
  | right | left | bare
  deriving DecidableEq, Repr

def Layout.flags : Layout → List Flag
  | .left => [.minus]
  | _ => []

def Layout.starred : Layout → Starred
  | .bare => .precision
  | _ => .both

/-- The width of the field. -/
def Layout.width (W : Nat) : Layout → Nat
  | .bare => 0
  | _ => W

/-- A number behind a `.`: a zero is the flag. -/
def precisionItems (P : Nat) : List Item := if h : 0 < P then [.number P h] else [.zero]

theorem itemBytes_precision (P : Nat) : itemBytes (precisionItems P) = numeralBytes 10 P := by
  unfold precisionItems
  split
  · simp [itemBytes, Item.bytes]
  · rw [show P = 0 by omega, numeralBytes, numeral_of_lt (by decide)]
    rfl

/-- The items of a format with written fields. -/
def Layout.items (W : Nat) (pos : 0 < W) (P : Nat) : Layout → List Item
  | .right => .number W pos :: .dot :: precisionItems P
  | .left => .minus :: .number W pos :: .dot :: precisionItems P
  | .bare => .dot :: precisionItems P

/-- `%s` with the fields written in the format. -/
def Layout.written (W : Nat) (pos : 0 < W) (P : Nat) (form : Layout) : Directive where
  items := form.items W pos P
  separated := by
    cases form <;> simp only [Layout.items, precisionItems] <;> split <;> rfl
  conv := .str

/-- The fields are numerals in the format. -/
theorem Layout.written_bytes (W : Nat) (pos : 0 < W) (P : Nat) :
    (Layout.right.written W pos P).format.bytes =
        char '%' :: (numeralBytes 10 W ++ char '.' :: (numeralBytes 10 P ++ [char 's'])) ∧
      (Layout.left.written W pos P).format.bytes =
        char '%' :: char '-' ::
          (numeralBytes 10 W ++ char '.' :: (numeralBytes 10 P ++ [char 's'])) ∧
      (Layout.bare.written W pos P).format.bytes =
        char '%' :: char '.' :: (numeralBytes 10 P ++ [char 's']) := by
  have hprecision : (precisionItems P).flatMap Item.bytes = numeralBytes 10 P :=
    itemBytes_precision P
  refine ⟨?_, ?_, ?_⟩ <;>
    simp [Directive.format, Directive.bytes, Layout.written, Layout.items, itemBytes, hprecision,
      Item.bytes, Conv.byte]

/-- `%*d`. -/
def starredNumber : Directive := ⟨[.star], rfl, .dec⟩

/-- The argument for a `*`. -/
def field (n : Nat) : Word := BitVec.ofNat 32 n

/-- Written and starred fields print the same. -/
structure SameFields (form : Layout) (W : Nat) (pos : 0 < W) (P : Nat) (s : CStr) (v : Word) :
    Prop where
  string : output (form.written W pos P).format [.str s] =
    output (starredDirective form.flags form.starred).format
      (form.starred.args (field W) (field P) ++ [.str s])
  number : output (fieldDirective .none W pos .none .dec).format [.word v] =
    output starredNumber.format [.word (field W), .word v]

theorem field_toInt {n : Nat} (h : n < 2147483648) : (field n).toInt = n := by
  unfold field
  rw [BitVec.toInt_eq_toNat_cond, BitVec.toNat_ofNat]
  omega

theorem int32_natCast {n : Nat} (h : n < 2147483648) : int32 n = n :=
  int32_of_range (by unfold IsInt32; omega)

theorem applyItems_precision {P : Nat} (hP : P < 2147483648) {e : Spec} (he : 0 ≤ e.width)
    (ap : List Arg) :
    applyItems (precisionItems P) e ap =
      .ok (if P = 0 then { e with padc := PadFlag.zero.padc } else { e with precision := P },
        ap) := by
  unfold precisionItems
  by_cases h : 0 < P
  · rw [dif_pos h, if_neg (by omega)]
    show Except.ok (e.processPrecision (int32 P), ap) = _
    rw [int32_natCast hP, Spec.processPrecision, if_neg (by omega)]
  · rw [dif_neg h, if_pos (by omega)]
    rfl

/-- What the written fields come to. -/
def Layout.spec (form : Layout) (W P : Nat) : Spec :=
  if P = 0 then ⟨PadFlag.zero.padc, form.width W, -1, 0, false⟩
  else ⟨(padFlag .none form.flags).padc, form.width W, P, 0, false⟩

/-- The first number of a field is its width. -/
theorem applyItems_width {n : Nat} (hn : n < 2147483648) (pos : 0 < n) (items : List Item)
    (padc lflag : Int) (altflag : Bool) (ap : List Arg) :
    applyItems (.number n pos :: items) ⟨padc, -1, -1, lflag, altflag⟩ ap =
      applyItems items ⟨padc, n, -1, lflag, altflag⟩ ap := by
  have hfirst : applyItems (.number n pos :: items) ⟨padc, -1, -1, lflag, altflag⟩ ap =
      applyItems items ⟨padc, int32 n, -1, lflag, altflag⟩ ap := by
    rw [applyItems]
    rfl
  rw [hfirst, int32_natCast hn]

theorem applyItems_dot {e : Spec} (he : 0 ≤ e.width) (items : List Item) (ap : List Arg) :
    applyItems (.dot :: items) e ap = applyItems items e ap := by
  have hdot : applyItems (.dot :: items) e ap =
      applyItems items { e with width := if e.width < 0 then 0 else e.width } ap := by
    rw [applyItems]
    rfl
  rw [hdot, if_neg (by omega)]

theorem applyItems_minus (e : Spec) (items : List Item) (ap : List Arg) :
    applyItems (.minus :: items) e ap =
      applyItems items { e with padc := PadFlag.minus.padc } ap := by
  rw [applyItems]
  rfl

theorem applyItems_written (form : Layout) {W P : Nat} (pos : 0 < W) (hW : W < 2147483648)
    (hP : P < 2147483648) (ap : List Arg) :
    applyItems (form.items W pos P) Spec.init ap = .ok (form.spec W P, ap) := by
  have hwidth : ∀ padc : Int, 0 ≤ (Spec.mk padc W (-1) 0 false).width := fun _ =>
    Int.natCast_nonneg W
  unfold Layout.spec
  cases form with
  | right =>
    rw [Layout.items, Spec.init, applyItems_width hW, applyItems_dot (hwidth _),
      applyItems_precision hP (hwidth _)]
    rfl
  | left =>
    rw [Layout.items, applyItems_minus, Spec.init, applyItems_width hW,
      applyItems_dot (hwidth _), applyItems_precision hP (hwidth _)]
    rfl
  | bare =>
    show applyItems (precisionItems P) ⟨PadFlag.none.padc, 0, -1, 0, false⟩ ap = _
    rw [applyItems_precision hP (Int.le_refl 0)]
    rfl

theorem Layout.width_lt (form : Layout) {W : Nat} (hW : W < 2147483648) :
    form.width W < 2147483648 := by
  cases form with
  | bare => exact Nat.two_pow_pos 31
  | _ => exact hW

/-- The output of a format with written fields. -/
theorem output_written (form : Layout) {W P : Nat} (pos : 0 < W) (hW : W < 2147483648)
    (hP : P < 2147483648) (s : CStr) :
    output (form.written W pos P).format [.str s] = .ok (fieldOf (form.spec W P) s.bytes) := by
  have hrange : IsInt32 (form.spec W P).width := by
    have hlt := form.width_lt hW
    have hwidth : (form.spec W P).width = form.width W := by
      unfold Layout.spec
      split <;> rfl
    unfold IsInt32
    omega
  rw [output_directive, Directive.text]
  show (applyItems (form.items W pos P) Spec.init [.str s] >>=
    fun r => Conv.text .str r.1 r.2).map Prod.snd = _
  rw [applyItems_written form pos hW hP]
  show (Conv.text .str (form.spec W P) [stringArg (some s)]).map Prod.snd = _
  rw [string_text hrange, map_ok]
  rfl

/-- The same with starred fields. -/
theorem output_starred_fields (form : Layout) {W P : Nat} (hW : W < 2147483648)
    (hP : P < 2147483648) (s : CStr) :
    output (starredDirective form.flags form.starred).format
        (form.starred.args (field W) (field P) ++ [.str s]) =
      .ok (fieldOf ⟨(padFlag .none form.flags).padc, form.width W, P, 0, false⟩ s.bytes) := by
  have hpos : 0 ≤ (field W).toInt := by
    rw [field_toInt hW]
    omega
  have h := output_starred form.flags form.starred hpos (field P) (some s)
  have hwidth : form.starred.fieldWidth (field W) = form.width W := by
    cases form
    · exact field_toInt hW
    · exact field_toInt hW
    · rfl
  have hprecision : form.starred.fieldPrecision (field P) = P := by
    cases form <;> exact field_toInt hP
  have halt : form.flags.contains .hash = false := by cases form <;> rfl
  rw [hwidth, hprecision, halt] at h
  exact h

/-! ## Where they agree -/

/-- A precision of 0 leaves only the field. -/
theorem fieldOf_empty (form : Layout) {W : Nat} (hW : W < 2147483648) (p : List Byte) :
    fieldOf ⟨(padFlag .none form.flags).padc, form.width W, 0, 0, false⟩ p =
      List.replicate (form.width W) (char ' ').toInt := by
  have hcut : cut 0 p = [] := by simp [cut]
  have hcounted : counted 0 p = 0 := by simp [counted, uint32]
  have hlt := form.width_lt hW
  have hpads := (pads_iff (padFlag .none form.flags) (Int.natCast_nonneg (form.width W))
    (by unfold IsInt32; omega) (show IsInt32 0 by unfold IsInt32; omega) 0 false p).1 (by
      rw [hcut, hcounted]
      exact fieldFits_of_short _ (Nat.zero_le _))
  rw [fieldOf, hpads.1, hpads.2, hcut]
  cases form <;> simp [Layout.flags, padFlag, PadFlag.padc]

theorem shown_eq_space (c : Byte) : shown false c = (char ' ').toInt ↔ c = char ' ' := by
  rw [shown, if_neg (by simp)]
  exact BitVec.toInt_inj

theorem map_shown_eq_replicate {p : List Byte} {n : Nat} :
    p.map (shown false) = List.replicate n (char ' ').toInt ↔ p = List.replicate n (char ' ') := by
  simp only [List.eq_replicate_iff, List.length_map, List.forall_mem_map, shown_eq_space]

/-- With the flag `0` and without a precision, only a string of spaces looks like a field of
spaces. -/
theorem fieldOf_zero_iff {W : Nat} (hW : W < 2147483648) (p : List Byte) :
    fieldOf ⟨PadFlag.zero.padc, W, -1, 0, false⟩ p = List.replicate W (char ' ').toInt ↔
      p = List.replicate W (char ' ') := by
  have hcut : cut (-1) p = p := if_pos (by decide)
  have hpads := pads_iff .zero (Int.natCast_nonneg W) (show IsInt32 W by unfold IsInt32; omega)
    (show IsInt32 (-1) by unfold IsInt32; omega) 0 false p
  have hcount := counted_cases (show IsInt32 (-1) by unfold IsInt32; omega) p
  rw [hcut] at hpads hcount
  simp only [Int.toNat_natCast, reduceCtorEq, if_false] at hpads
  unfold fieldOf
  rw [hcut]
  constructor
  · intro h
    have hlength := congrArg List.length h
    simp only [List.length_append, List.length_replicate, List.length_map] at hlength
    by_cases hlt : p.length < W
    · -- the first character is a `0`
      obtain ⟨k, hk⟩ : ∃ k, W - p.length = k + 1 := ⟨W - p.length - 1, by omega⟩
      obtain ⟨n, hn⟩ : ∃ n, W = n + 1 := ⟨W - 1, by omega⟩
      rw [(hpads.1 (Or.inl hlt)).1, hk, hn, List.replicate_succ, List.replicate_succ] at h
      exact absurd (List.cons.inj h).1 (show PadFlag.zero.padc ≠ (char ' ').toInt by decide)
    · rw [show (leftPad ⟨PadFlag.zero.padc, W, -1, 0, false⟩ p).toNat = 0 by omega,
        show (rightPad ⟨PadFlag.zero.padc, W, -1, 0, false⟩ p).toNat = 0 by omega,
        List.replicate_zero, List.replicate_zero, List.nil_append, List.append_nil] at h
      exact map_shown_eq_replicate.1 h
  · intro h
    have hlen : p.length = W := by rw [h, List.length_replicate]
    have hfits : FieldFits .zero W p.length (counted (-1) p) := by
      have hcounted : counted (-1) p = W := by omega
      rw [hcounted, hlen]
      unfold FieldFits StaysDown
      split <;> omega
    obtain ⟨hleft, hright⟩ := hpads.1 hfits
    rw [hleft, hright, hlen, Nat.sub_self, List.replicate_zero, List.replicate_zero,
      List.nil_append, List.append_nil]
    exact map_shown_eq_replicate.2 h

/-- `%Wd` and `%*d` go through the same fields. -/
theorem output_starred_number {W : Nat} (pos : 0 < W) (hW : W < 2147483648) (v : Word) :
    output (fieldDirective .none W pos .none .dec).format [.word v] =
      output starredNumber.format [.word (field W), .word v] := by
  have hstar : applyItems [.star] Spec.init [.word (field W), .word v] =
      .ok (⟨PadFlag.none.padc, W, -1, 0, false⟩, [.word v]) := by
    rw [← field_toInt hW]
    rfl
  have hwritten : applyItems (fieldDirective .none W pos .none .dec).items Spec.init [.word v] =
      .ok (⟨PadFlag.none.padc, W, -1, 0, false⟩, [.word v]) :=
    applyItems_width hW pos [] PadFlag.none.padc 0 false [.word v]
  rw [output_directive, output_directive, Directive.text, Directive.text, hwritten]
  show _ = (applyItems [.star] Spec.init _ >>= _).map Prod.snd
  rw [hstar]
  rfl

/-- **Written and starred fields print the same** unless the precision is written as 0; then they
do so for a string of as many spaces as the field is wide. -/
theorem sameFields_iff (form : Layout) {W P : Nat} (pos : 0 < W) (hW : W < 2147483648)
    (hP : P < 2147483648) (s : CStr) (v : Word) :
    SameFields form W pos P s v ↔
      P ≠ 0 ∨ s.bytes = List.replicate (form.width W) (char ' ') := by
  have hstring : output (form.written W pos P).format [.str s] =
      output (starredDirective form.flags form.starred).format
        (form.starred.args (field W) (field P) ++ [.str s]) ↔
      P ≠ 0 ∨ s.bytes = List.replicate (form.width W) (char ' ') := by
    rw [output_written form pos hW hP, output_starred_fields form hW hP, Except.ok.injEq,
      Layout.spec]
    by_cases hzero : P = 0
    · have hempty := fieldOf_empty form hW s.bytes
      rw [if_pos hzero, hzero]
      rw [show ((0 : Nat) : Int) = 0 from rfl, hempty, fieldOf_zero_iff (form.width_lt hW)]
      simp
    · rw [if_neg hzero]
      exact iff_of_true rfl (Or.inl hzero)
  constructor
  · intro h
    exact hstring.1 h.string
  · intro h
    exact ⟨hstring.2 h, output_starred_number pos hW v⟩

/-- `%-8.3s` of a string, and `%8d` of -5. -/
theorem sameFields_iff_left : SameFields .left 8 (by decide) 3 (.ofString "kernel") (-5) :=
  (sameFields_iff .left (by decide) (by decide) (by decide) _ _).2 (Or.inl (by decide))

/-- `%5.0s` prints `00abc`, and `%*.*s` with 5 and 0 prints five spaces. -/
theorem zero_precision_differs : ¬SameFields .right 5 (by decide) 0 (.ofString "abc") 0 := by
  intro h
  have heq := h.string
  rw [output_written .right (by decide) (by decide) (by decide),
    output_starred_fields .right (by decide) (by decide)] at heq
  exact absurd (Except.ok.inj heq) (by decide +kernel)

end Jos
