import JosKernel.Format.Width

/-!
# `%s` in a field

The field width of a string is an `int` that the code lowers by what `strnlen` counts, once more
by one for each character it prints, and pads from twice.  `stringText`'s general case: the
padding on the left, the bytes up to the precision, the padding on the right.

`strnlenRead` and `putStringRead` are the two loops over the bytes that may be read, so that a
read outside of them is a fault.

Principal results: `string_text` — what `%s` prints, for all fields; `stringLaw_iff` — it is the
string in its field unless the width wraps around.
-/

set_option autoImplicit false

namespace Jos

/-! ## The bytes that are read -/

/-- The loop of `strnlen` over readable bytes. -/
def strnlenRead : Nat → List Byte → Int → Except Fault Int
  | 0, _, n => .ok n
  | _ + 1, [], _ => .error .outside
  | size + 1, c :: s, n => if c = 0 then .ok n else strnlenRead size s (int32 (n + 1))

/-- `strnlen(s, size)` reads the first `size` bytes at most, and none behind the terminator. -/
theorem strnlenRead_take : ∀ (s : List Byte) (size : Nat) (n : Int), (0 : Byte) ∉ s →
    strnlenRead size ((s ++ [0]).take size) n = .ok (strnlenLoop s size n)
  | _, 0, _, _ => by cases ‹List Byte› <;> rfl
  | [], size + 1, n, _ => by
    rw [List.nil_append, List.take_succ_cons, strnlenRead, if_pos rfl]
    rfl
  | c :: s, size + 1, n, h => by
    obtain ⟨hc, hs⟩ := not_or.mp (mt List.mem_cons.mpr h)
    rw [List.cons_append, List.take_succ_cons, strnlenRead, if_neg (Ne.symm hc),
      strnlenRead_take s size _ hs]
    rfl

section Copy

variable {σ : Type} (putch : Int → σ → σ)

/-- The copy loop of `case 's'` over readable bytes. -/
def putStringRead (altflag : Bool) : List Byte → Int → Int → σ → Except Fault (Int × σ)
  | [], _, _, _ => .error .outside
  | c :: p, precision, width, s =>
      let ch := c.toInt
      if c = 0 then .ok (width, s)
      else if precision < 0 ∨ precision - 1 ≥ 0 then
        let precision := if precision < 0 then precision else precision - 1
        let s :=
          if altflag ∧ (ch < (char ' ').toInt ∨ ch > (char '~').toInt) then
            putch (char '?').toInt s
          else putch ch s
        putStringRead altflag p precision (int32 (width - 1)) s
      else .ok (width, s)

/-- The copy loop reads nothing behind the terminator. -/
theorem putStringRead_terminated (altflag : Bool) :
    ∀ (p : List Byte) (precision width : Int) (s : σ), (0 : Byte) ∉ p →
      putStringRead putch altflag (p ++ [0]) precision width s =
        .ok (putString putch altflag p precision width s)
  | [], _, _, _, _ => rfl
  | c :: p, precision, width, s, h => by
    obtain ⟨hc, hp⟩ := not_or.mp (mt List.mem_cons.mpr h)
    rw [List.cons_append, putStringRead, putString]
    simp only [if_neg (Ne.symm hc)]
    split
    · exact putStringRead_terminated altflag p _ _ _ hp
    · rfl

/-! ## The bytes that are printed -/

/-- The bytes up to the precision. -/
def cut (precision : Int) (p : List Byte) : List Byte :=
  if precision < 0 then p else p.take precision.toNat

/-- The character that is sent for a byte. -/
def shown (altflag : Bool) (c : Byte) : Int :=
  if altflag ∧ (c.toInt < (char ' ').toInt ∨ c.toInt > (char '~').toInt) then (char '?').toInt
  else c.toInt

theorem cut_cons {precision : Int} (h : precision < 0 ∨ precision - 1 ≥ 0) (c : Byte)
    (p : List Byte) :
    cut precision (c :: p) =
      c :: cut (if precision < 0 then precision else precision - 1) p := by
  unfold cut
  by_cases hneg : precision < 0
  · simp [hneg]
  · have hpos : precision.toNat = (precision - 1).toNat + 1 := by omega
    rw [if_neg hneg, if_neg hneg, if_neg (show ¬precision - 1 < 0 by omega), hpos,
      List.take_succ_cons]

/-- The copy loop prints the bytes up to the precision and lowers the width by their number. -/
theorem putString_cut (altflag : Bool) :
    ∀ (p : List Byte) (precision width : Int) (s : σ), IsInt32 width →
      putString putch altflag p precision width s =
        (int32 (width - (cut precision p).length),
          emit putch ((cut precision p).map (shown altflag)) s)
  | [], precision, width, s, hw => by
    have hnil : cut precision [] = [] := by simp [cut]
    rw [hnil]
    simp [putString, int32_of_range hw]
  | c :: p, precision, width, s, hw => by
    rw [putString]
    by_cases h : precision < 0 ∨ precision - 1 ≥ 0
    · have hsend : (if altflag ∧ (c.toInt < (char ' ').toInt ∨ c.toInt > (char '~').toInt) then
          putch (char '?').toInt s else putch c.toInt s) = putch (shown altflag c) s := by
        unfold shown
        split <;> rfl
      simp only [if_pos h, hsend]
      rw [putString_cut altflag p _ _ _ (int32_isInt32 _), cut_cons h, List.length_cons,
        List.map_cons, emit_cons, Int.sub_eq_add_neg, int32_add_left]
      congr 2
      omega
    · have hnil : cut precision (c :: p) = [] := by
        rw [cut, if_neg (by omega), show precision.toNat = 0 by omega, List.take_zero]
      simp only [if_neg h, hnil]
      simp [int32_of_range hw]

end Copy

/-! ## The field -/

/-- The bytes that `strnlen` counts. -/
def counted (precision : Int) (p : List Byte) : Nat := min p.length (uint32 precision)

/-- What the first padding loop starts from. -/
def leftPad (e : Spec) (p : List Byte) : Int :=
  if e.width > 0 ∧ e.padc ≠ (char '-').toInt then int32 (e.width - counted e.precision p) else 0

/-- What the last padding loop starts from. -/
def rightPad (e : Spec) (p : List Byte) : Int :=
  if e.width > 0 ∧ e.padc ≠ (char '-').toInt then
    int32 (min (leftPad e p) 0 - (cut e.precision p).length)
  else int32 (e.width - (cut e.precision p).length)

/-- What `%s` prints. -/
def fieldOf (e : Spec) (p : List Byte) : List Int :=
  List.replicate (leftPad e p).toNat e.padc ++ ((cut e.precision p).map (shown e.altflag) ++
    List.replicate (rightPad e p).toNat (char ' ').toInt)

theorem printString_eq {σ : Type} (putch : Int → σ → σ) {e : Spec} (he : IsInt32 e.width)
    (p : CStr) (s : σ) : printString putch e p s = emit putch (fieldOf e p.bytes) s := by
  have hcount : int32 (e.width - strnlen p (uint32 e.precision)) =
      int32 (e.width - counted e.precision p.bytes) := by
    rw [strnlen, strnlenLoop_eq _ _ _ (by unfold IsInt32; omega), Int.zero_add]
    apply int32_congr
    have := int32_emod (min p.bytes.length (uint32 e.precision) : Nat)
    unfold counted
    omega
  unfold printString padString fieldOf rightPad leftPad
  rw [hcount, emit_append, emit_append, ← pad_eq_emit putch e.padc, ← pad_eq_emit putch]
  by_cases h : e.width > 0 ∧ e.padc ≠ (char '-').toInt
  · have hmin : IsInt32 (min (int32 (e.width - counted e.precision p.bytes)) 0) := by
      have := int32_isInt32 (e.width - counted e.precision p.bytes)
      unfold IsInt32 at *
      omega
    simp only [if_pos h]
    rw [putString_cut putch _ _ _ _ _ hmin]
  · simp only [if_neg h]
    rw [putString_cut putch _ _ _ _ _ he]
    rfl

/-- The argument of a `%s`: `none` is `NULL`. -/
def stringArg : Option CStr → Arg
  | some p => .str p
  | none => .word 0

def content (s : Option CStr) : CStr := s.getD (.ofString "(null)")

/-- **What `%s` prints**, and the arguments that it leaves. -/
theorem string_text {e : Spec} (he : IsInt32 e.width) (s : Option CStr) (ap : List Arg) :
    Conv.text .str e (stringArg s :: ap) = .ok (ap, fieldOf e (content s).bytes) := by
  have hprint : Conv.text .str e (stringArg s :: ap) =
      .ok (ap, printString collect e (content s) []) := by
    cases s <;> rfl
  rw [hprint, printString_eq collect he, emit_collect]
  rfl

/-! ## Flags and starred fields -/

inductive Flag where
  | minus | zero | hash
  deriving DecidableEq, Repr

def Flag.item : Flag → Item
  | .minus => .minus
  | .zero => .zero
  | .hash => .hash

/-- The last of the flags `-` and `0` counts. -/
def padFlag (f : PadFlag) : List Flag → PadFlag
  | [] => f
  | .minus :: flags => padFlag .minus flags
  | .zero :: flags => padFlag .zero flags
  | .hash :: flags => padFlag f flags

theorem applyItems_flags (items : List Item) (width precision lflag : Int) (ap : List Arg) :
    ∀ (flags : List Flag) (f : PadFlag) (altflag : Bool),
      applyItems (flags.map Flag.item ++ items) ⟨f.padc, width, precision, lflag, altflag⟩ ap =
        applyItems items ⟨(padFlag f flags).padc, width, precision, lflag,
          altflag || flags.contains .hash⟩ ap
  | [], f, altflag => by
    rw [Bool.or_comm]
    rfl
  | .minus :: flags, _, altflag =>
    applyItems_flags items width precision lflag ap flags .minus altflag
  | .zero :: flags, _, altflag =>
    applyItems_flags items width precision lflag ap flags .zero altflag
  | .hash :: flags, f, altflag => by
    have h := applyItems_flags items width precision lflag ap flags f true
    rw [Bool.true_or] at h
    have hmem : (altflag || (Flag.hash :: flags).contains .hash) = true := by simp
    rw [hmem]
    exact h

theorem separated_of_no_number : ∀ {items : List Item}, (∀ i ∈ items, i.isNumber = false) →
    Separated items
  | [], _ => rfl
  | [_], _ => rfl
  | i :: j :: items, h => by
    rw [Separated, h i List.mem_cons_self]
    exact separated_of_no_number fun k hk => h k (List.mem_cons_of_mem i hk)

/-- The fields that are given by arguments. -/
inductive Starred where
  | width | precision | both
  deriving DecidableEq, Repr

def Starred.items : Starred → List Item
  | .width => [.star]
  | .precision => [.dot, .star]
  | .both => [.star, .dot, .star]

def Starred.args (W P : Word) : Starred → List Arg
  | .width => [.word W]
  | .precision => [.word P]
  | .both => [.word W, .word P]

/-- The width that is asked for: none is a width of 0. -/
def Starred.fieldWidth (W : Word) : Starred → Int
  | .precision => 0
  | _ => W.toInt

/-- The precision that is asked for: none is a negative one. -/
def Starred.fieldPrecision (P : Word) : Starred → Int
  | .width => -1
  | _ => P.toInt

theorem Starred.items_plain (form : Starred) : ∀ i ∈ form.items, i.isNumber = false := by
  cases form <;> decide

/-- `%s` with flags and starred fields. -/
def starredDirective (flags : List Flag) (form : Starred) : Directive where
  items := flags.map Flag.item ++ form.items
  separated := separated_of_no_number (by
    intro i hi
    rcases List.mem_append.mp hi with hi | hi
    · obtain ⟨f, -, rfl⟩ := List.mem_map.mp hi
      cases f <;> rfl
    · exact form.items_plain i hi)
  conv := .str

theorem applyItems_starred (form : Starred) (padc lflag : Int) (altflag : Bool) {W : Word}
    (hW : 0 ≤ W.toInt) (P : Word) (ap : List Arg) :
    applyItems form.items ⟨padc, -1, -1, lflag, altflag⟩ (form.args W P ++ ap) =
      .ok (⟨padc, form.fieldWidth W, form.fieldPrecision P, lflag, altflag⟩, ap) := by
  have hneg : ¬W.toInt < 0 := by omega
  cases form with
  | width => rfl
  | precision => rfl
  | both =>
    simp [Starred.items, Starred.args, applyItems, Item.apply, vaArgInt, vaArgWord,
      Spec.processPrecision, Starred.fieldWidth, Starred.fieldPrecision, Except.map, Bind.bind,
      Except.bind, hneg]

/-! ## The law -/

/-- The byte that is wanted for a byte of the string. -/
def wantedByte (altflag : Bool) (c : Byte) : Byte :=
  if altflag ∧ ¬(char ' ' ≤ c ∧ c ≤ char '~') then char '?' else c

/-- The bytes that are wanted for a string in its field. -/
def wantedBytes (flags : List Flag) (W : Nat) (P : Int) (p : List Byte) : List Byte :=
  let t := (cut P p).map (wantedByte (flags.contains .hash))
  let room := W - t.length
  match padFlag .none flags with
  | .none => List.replicate room (char ' ') ++ t
  | .zero => List.replicate room (char '0') ++ t
  | .minus => t ++ List.replicate room (char ' ')

/-- The string comes out in its field, and nothing outside of it is read. -/
structure StringLaw (flags : List Flag) (form : Starred) (W P : Word) (s : Option CStr) :
    Prop where
  printed : ∃ t,
    output (starredDirective flags form).format (form.args W P ++ [stringArg s]) = .ok t ∧
      t.map store = wantedBytes flags (form.fieldWidth W).toNat (form.fieldPrecision P)
        (content s).bytes
  counts : strnlenRead (uint32 (form.fieldPrecision P))
      (((content s).bytes ++ [0]).take (uint32 (form.fieldPrecision P))) 0 =
    .ok (strnlen (content s) (uint32 (form.fieldPrecision P)))
  copies : ∀ width t, putStringRead collect (flags.contains .hash) ((content s).bytes ++ [0])
      (form.fieldPrecision P) width t =
    .ok (putString collect (flags.contains .hash) (content s).bytes (form.fieldPrecision P)
      width t)

/-- An `int` that is lowered from 0 by `x` is not positive. -/
def StaysDown (x : Nat) : Prop := x % 4294967296 ≤ 2147483648

/-- The width does not wrap around to a positive number, for `T` bytes printed and `M` bytes
counted. -/
def FieldFits (f : PadFlag) (W T M : Nat) : Prop :=
  T < W ∨ if f = .minus ∨ W = 0 then StaysDown (T - W)
    else StaysDown (M - W) ∧ StaysDown (M + T - W)

set_option maxRecDepth 4000 in
theorem store_shown : ∀ (altflag : Bool) (c : Byte),
    store (shown altflag c) = wantedByte altflag c := by decide +kernel

theorem store_replicate (k : Nat) (c : Byte) :
    (List.replicate k c.toInt).map store = List.replicate k c := by
  rw [List.map_replicate, store, BitVec.ofInt_toInt]

/-- `strnlen` counts the bytes that are printed, unless there are `2^31` of them. -/
theorem counted_cases {P : Int} (hP : IsInt32 P) (p : List Byte) :
    counted P p = (cut P p).length ∨
      (2147483648 ≤ counted P p ∧ counted P p ≤ (cut P p).length) := by
  unfold IsInt32 at hP
  unfold counted cut uint32
  split
  · omega
  · left
    rw [List.length_take]
    omega

/-- The paddings that are printed are the ones that are wanted. -/
theorem pads_iff (f : PadFlag) {W P : Int} (h0 : 0 ≤ W) (hW : IsInt32 W) (hP : IsInt32 P)
    (lflag : Int) (altflag : Bool) (p : List Byte) :
    FieldFits f W.toNat (cut P p).length (counted P p) ↔
      (leftPad ⟨f.padc, W, P, lflag, altflag⟩ p).toNat =
        (if f = .minus then 0 else W.toNat - (cut P p).length) ∧
      (rightPad ⟨f.padc, W, P, lflag, altflag⟩ p).toNat =
        (if f = .minus then W.toNat - (cut P p).length else 0) := by
  have hpadc : f.padc ≠ (char '-').toInt ↔ f ≠ .minus := by cases f <;> decide
  have hcount := counted_cases hP p
  have hrange := hW
  unfold IsInt32 at hrange
  unfold FieldFits rightPad leftPad StaysDown
  simp only [hpadc]
  generalize (cut P p).length = T at *
  generalize counted P p = M at *
  by_cases hf : f = .minus
  · simp only [hf, ne_eq, not_true_eq_false, and_false, if_false, true_or, if_true]
    unfold int32
    omega
  · by_cases hpos : W > 0
    · simp only [hf, ne_eq, not_false_eq_true, and_true, if_false, hpos, if_true, false_or,
        show ¬W.toNat = 0 by omega]
      unfold int32
      omega
    · simp only [hf, ne_eq, not_false_eq_true, and_true, if_false, hpos, false_or,
        show W.toNat = 0 by omega, if_true]
      unfold int32
      omega

theorem map_store_fieldOf (f : PadFlag) (W P lflag : Int) (altflag : Bool) (p : List Byte) :
    ∃ c, (f = .none → c = char ' ') ∧ (f = .zero → c = char '0') ∧
      (fieldOf ⟨f.padc, W, P, lflag, altflag⟩ p).map store =
        List.replicate (leftPad ⟨f.padc, W, P, lflag, altflag⟩ p).toNat c ++
          ((cut P p).map (wantedByte altflag) ++
            List.replicate (rightPad ⟨f.padc, W, P, lflag, altflag⟩ p).toNat (char ' ')) := by
  have hmap : (cut P p).map (store ∘ shown altflag) = (cut P p).map (wantedByte altflag) :=
    List.map_congr_left fun c _ => store_shown altflag c
  refine ⟨store f.padc, ?_, ?_, ?_⟩
  · rintro rfl
    rfl
  · rintro rfl
    rfl
  · rw [fieldOf, List.map_append, List.map_append, List.map_map, hmap, store_replicate,
      List.map_replicate]

theorem output_starred (flags : List Flag) (form : Starred) {W : Word} (hW : 0 ≤ W.toInt)
    (P : Word) (s : Option CStr) :
    output (starredDirective flags form).format (form.args W P ++ [stringArg s]) =
      .ok (fieldOf ⟨(padFlag .none flags).padc, form.fieldWidth W, form.fieldPrecision P, 0,
        flags.contains .hash⟩ (content s).bytes) := by
  have hwidth : IsInt32 (form.fieldWidth W) := by
    have hlt := W.toInt_lt
    unfold IsInt32 Starred.fieldWidth
    cases form <;> simp only <;> omega
  have hflags := applyItems_flags form.items (-1) (-1) 0 (form.args W P ++ [stringArg s]) flags
    .none false
  rw [applyItems_starred form _ _ _ hW, Bool.false_or] at hflags
  rw [output_directive, Directive.text]
  show (applyItems (flags.map Flag.item ++ form.items) ⟨PadFlag.none.padc, -1, -1, 0, false⟩ _ >>=
    fun r => Conv.text .str r.1 r.2).map Prod.snd = _
  rw [hflags]
  show (Conv.text .str _ [stringArg s]).map Prod.snd = _
  rw [string_text hwidth, map_ok]

/-- A width that the printed part fills adds nothing. -/
theorem wantedBytes_length {flags : List Flag} {W : Nat} {P : Int} {p : List Byte}
    (h : W ≤ (cut P p).length) : (wantedBytes flags W P p).length = (cut P p).length := by
  unfold wantedBytes
  cases padFlag .none flags <;>
    simp only [List.length_append, List.length_replicate, List.length_map] <;> omega

/-- **A string comes out in its field** exactly when the width does not wrap around, and in every
case nothing outside of it is read. -/
theorem stringLaw_iff (flags : List Flag) (form : Starred) {W : Word} (hW : 0 ≤ W.toInt)
    (P : Word) (s : Option CStr) :
    StringLaw flags form W P s ↔
      FieldFits (padFlag .none flags) (form.fieldWidth W).toNat
        (cut (form.fieldPrecision P) (content s).bytes).length
        (counted (form.fieldPrecision P) (content s).bytes) := by
  have hwidth : 0 ≤ form.fieldWidth W ∧ IsInt32 (form.fieldWidth W) := by
    have hlt := W.toInt_lt
    unfold IsInt32 Starred.fieldWidth
    cases form <;> simp only <;> omega
  have hprecision : IsInt32 (form.fieldPrecision P) := by
    have hlt := P.toInt_lt
    have hge := P.le_toInt
    unfold IsInt32 Starred.fieldPrecision
    cases form <;> simp only <;> omega
  have hpads := pads_iff (padFlag .none flags) hwidth.1 hwidth.2 hprecision 0
    (flags.contains .hash) (content s).bytes
  obtain ⟨c, hspace, hzero, htext⟩ := map_store_fieldOf (padFlag .none flags) (form.fieldWidth W)
    (form.fieldPrecision P) 0 (flags.contains .hash) (content s).bytes
  constructor
  · intro h
    obtain ⟨t, hout, hstore⟩ := h.printed
    rw [output_starred flags form hW] at hout
    cases hout
    rw [htext] at hstore
    refine (Nat.lt_or_ge (cut (form.fieldPrecision P) (content s).bytes).length
      (form.fieldWidth W).toNat).elim Or.inl fun hge => ?_
    -- nothing may be padded, and the lengths say that nothing is
    have hlength := congrArg List.length hstore
    rw [wantedBytes_length hge] at hlength
    simp only [List.length_append, List.length_replicate, List.length_map] at hlength
    apply hpads.2
    constructor <;> split <;> omega
  · intro h
    obtain ⟨hleft, hright⟩ := hpads.1 h
    refine ⟨⟨_, output_starred flags form hW P s, ?_⟩, ?_, ?_⟩
    · rw [htext, hleft, hright]
      unfold wantedBytes
      cases hf : padFlag .none flags with
      | none => simp [hspace hf]
      | zero => simp [hzero hf]
      | minus => simp
    · exact strnlenRead_take _ _ _ (content s).nul_free
    · intro width t
      exact putStringRead_terminated collect _ _ _ _ _ (content s).nul_free

/-- Strings of up to `2^30` bytes never wrap the width. -/
theorem fieldFits_of_short (f : PadFlag) {W T : Nat} (hT : T ≤ 1073741824) : FieldFits f W T T := by
  unfold FieldFits StaysDown
  split <;> omega

/-- `%-*.*s` with a width of 6 and a precision of 2. -/
theorem stringLaw_iff_left :
    StringLaw [.minus] .both 6 2 (some (.ofString "abc")) :=
  (stringLaw_iff [.minus] .both (by decide) 2 _).2 (fieldFits_of_short _ (by decide))

/-- With `2^30 + 1` bytes the width 1 is lowered to `1 - 2 * (2^30 + 1)`, below the smallest
`int`. -/
theorem rightPad_long {p : List Byte} (hlen : p.length = 1073741825) :
    (rightPad ⟨PadFlag.none.padc, 1, -1, 0, false⟩ p).toNat = 2147483647 := by
  have hcut : cut (-1) p = p := if_pos (by decide)
  have hcounted : counted (-1) p = 1073741825 := by
    rw [counted, hlen]
    rfl
  unfold rightPad leftPad
  simp only [hcut, hcounted, hlen]
  decide

theorem not_stringLaw_long {s : CStr} (hlen : s.bytes.length = 1073741825) :
    ¬StringLaw [] .width 1 0 (some s) := by
  intro h
  obtain ⟨t, hout, hstore⟩ := h.printed
  rw [output_starred [] .width (by decide)] at hout
  have ht : fieldOf ⟨PadFlag.none.padc, 1, -1, 0, false⟩ s.bytes = t := Except.ok.inj hout
  have hcut : cut (-1) s.bytes = s.bytes := if_pos (by decide)
  have hwanted : t.map store = wantedBytes [] 1 (-1) s.bytes := hstore
  have hlength := congrArg List.length hwanted
  rw [← ht] at hlength
  simp only [wantedBytes, padFlag, fieldOf, hcut, List.length_append, List.length_replicate,
    List.length_map, rightPad_long hlen] at hlength
  omega

/-- A string of `n` bytes. -/
def longString (n : Nat) : CStr where
  bytes := List.replicate n (char 'a')
  nul_free := fun h => absurd (List.eq_of_mem_replicate h) (by decide)

/-- `%*s` with a width of 1: `2^31 - 1` spaces follow a string of `2^30 + 1` bytes. -/
theorem longString_not_law : ¬StringLaw [] .width 1 0 (some (longString 1073741825)) :=
  not_stringLaw_long List.length_replicate

end Jos
