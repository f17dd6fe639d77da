import JosKernel.Format.Strings

/-!
# Arguments and conversions

A format is a sequence of parts: text, `%%`, and conversions, each with the arguments that are
meant for it.  The outer loop is looked at with the `ap` that it leaves.  A conversion
that takes its own arguments and no more leaves those of the later ones in place, so its text
does not depend on them.

Principal results: `run_parts` — a format takes its arguments and prints the texts of its parts;
`aligned_iff` — for which formats the texts of the number conversions are their arguments.
-/

set_option autoImplicit false

namespace Jos

/-! ## The loop with its arguments -/

section Loop

variable {σ : Type} (putch : Int → σ → σ)

theorem vprintfmtLoopAp_text {rest : List Byte} (ap : List Arg) :
    ∀ (text : List Byte) (fuel : Nat) (before : List Byte) (s : σ), IsText text →
      vprintfmtLoopAp putch (fuel + text.length) ⟨before, text ++ rest⟩ ap s =
        vprintfmtLoopAp putch fuel ⟨text.reverse ++ before, rest⟩ ap (emit putch (plain text) s)
  | [], _, _, _, _ => rfl
  | c :: text, fuel, before, s, h => by
    obtain ⟨⟨hp, h0⟩, htext⟩ := List.forall_mem_cons.mp h
    have hstep : vprintfmtLoopAp putch (fuel + text.length + 1) ⟨before, c :: (text ++ rest)⟩ ap s =
        vprintfmtLoopAp putch (fuel + text.length) ⟨c :: before, text ++ rest⟩ ap
          (putch c.toNat s) := by
      rw [vprintfmtLoopAp]
      exact (if_pos hp).trans (if_neg h0)
    rw [List.cons_append, List.length_cons, ← Nat.add_assoc, hstep,
      vprintfmtLoopAp_text ap text fuel _ _ htext, List.reverse_cons, List.append_assoc]
    rfl

theorem vprintfmtLoopAp_percent (fuel : Nat) (before rest : List Byte) (ap : List Arg) (s : σ) :
    vprintfmtLoopAp putch (fuel + 1) ⟨before, char '%' :: char '%' :: rest⟩ ap s =
      vprintfmtLoopAp putch fuel ⟨char '%' :: char '%' :: before, rest⟩ ap
        (putch (char '%').toInt s) := rfl

theorem vprintfmtLoopAp_directive {fuel : Nat} (hfuel : 8 ≤ fuel) (d : Directive)
    (before rest : List Byte) (ap : List Arg) (s : σ) :
    vprintfmtLoopAp putch (fuel + 1) ⟨before, d.bytes ++ rest⟩ ap s =
      d.text ap >>= fun r =>
        vprintfmtLoopAp putch fuel ⟨d.bytes.reverse ++ before, rest⟩ r.1 (emit putch r.2 s) := by
  have hafter : d.bytes ++ rest = char '%' :: (itemBytes d.items ++ d.conv.byte :: rest) := by
    simp [Directive.bytes]
  have hstep : vprintfmtLoopAp putch (fuel + 1) ⟨before, d.bytes ++ rest⟩ ap s =
      escape putch (fun fmt ap s => vprintfmtLoop putch fuel fmt.start ap s)
        ⟨char '%' :: before, itemBytes d.items ++ d.conv.byte :: rest⟩ ap s >>=
      fun r => vprintfmtLoopAp putch fuel r.1 r.2.1 r.2.2 := by
    rw [hafter, vprintfmtLoopAp]
    rfl
  rw [hstep, escape_directive putch hfuel d, bind_map]

end Loop

/-- The arguments that are left and the output. -/
def outputAp (fmt : CStr) (ap : List Arg) : Except Fault (List Arg × List Int) :=
  vprintfmtLoopAp collect (fmt.bytes.length + 12) fmt.start ap []

theorem outputAp_snd (fmt : CStr) (ap : List Arg) :
    (outputAp fmt ap).map Prod.snd = output fmt ap := rfl

/-! ## Conversions with their arguments -/

/-- The length modifier of a conversion. -/
def Directive.length (d : Directive) : Length :=
  match d.items.count .ell with
  | 0 => .none
  | 1 => .long
  | _ => .longLong

/-- The conversions of numbers, `%o` among them. -/
def Conv.isNumber : Conv → Bool
  | .dec | .uns | .oct | .hex => true
  | _ => false

/-- One argument of the size that the conversion is documented to take. -/
def Conv.Takes (c : Conv) (l : Length) (arg : List Arg) : Prop :=
  match c with
  | .chr | .err | .ptr => ∃ v : Word, arg = [.word v]
  | .str => ∃ s, arg = [stringArg s]
  | .dec | .uns | .oct | .hex => ∃ v : BitVec l.bits, arg = l.args v

/-- The arguments of a conversion: an `int` for each `*`, and the one that it prints. -/
def Directive.Fits (d : Directive) (own : List Arg) : Prop :=
  ∃ (stars : List Word) (arg : List Arg), own = stars.map Arg.word ++ arg ∧
    stars.length = d.items.count .star ∧ d.conv.Takes d.length arg

/-- A conversion with its arguments. -/
structure Filled where
  directive : Directive
  own : List Arg
  short : directive.items.count .ell ≤ 2
  fits : directive.Fits own

/-- What the conversion prints when the format is nothing else. -/
def Filled.text (c : Filled) : List Int := ((output c.directive.format c.own).toOption).getD []

/-- The arguments are these for the `*` and a number that is to be printed. -/
def Filled.Gives (c : Filled) (stars : List Word) (v : Int) : Prop :=
  ∃ w : BitVec c.directive.length.bits,
    c.own = stars.map Arg.word ++ c.directive.length.args w ∧
      stars.length = c.directive.items.count .star ∧ v = c.directive.conv.value w

/-- A part of a format. -/
inductive Part where
  | text (bs : List Byte) (plain : IsText bs)
  | percent
  | conv (c : Filled)

def Part.bytes : Part → List Byte
  | .text bs _ => bs
  | .percent => [char '%', char '%']
  | .conv c => c.directive.bytes

def Part.args : Part → List Arg
  | .conv c => c.own
  | _ => []

def Part.printed : Part → List Int
  | .text bs _ => plain bs
  | .percent => [(char '%').toInt]
  | .conv c => c.text

/-- The format of a sequence of parts. -/
def partsFormat (parts : List Part) : CStr where
  bytes := parts.flatMap Part.bytes
  nul_free := by
    intro h
    obtain ⟨p, -, hp⟩ := List.mem_flatMap.mp h
    cases p with
    | text bs plain => exact (plain 0 hp).2 rfl
    | percent => exact absurd hp (by decide)
    | conv c => exact c.directive.format.nul_free hp

/-! ## The fields of a conversion -/

/-- The characters that numbers are padded with. -/
def PadChar (c : Int) : Prop :=
  c = (char ' ').toInt ∨ c = (char '-').toInt ∨ c = (char '0').toInt

/-- The padding character behind an item. -/
def Item.pad : Item → Int → Int
  | .minus, _ => (char '-').toInt
  | .zero, _ => (char '0').toInt
  | _, c => c

/-- The padding character of a conversion: the last of its flags `-` and `0`, or a blank. -/
def padOf (items : List Item) : Int := items.foldl (fun c i => i.pad c) (char ' ').toInt

/-- The values for the width: the numbers, the arguments of the `*`, and 0 for a point. -/
def fieldValues : List Item → List Word → List Int
  | .number n _ :: items, stars => int32 n :: fieldValues items stars
  | .dot :: items, stars => 0 :: fieldValues items stars
  | .star :: items, v :: stars => v.toInt :: fieldValues items stars
  | _ :: items, stars => fieldValues items stars
  | [], _ => []

/-- A negative width is replaced. -/
def keepWidth (width v : Int) : Int := if width < 0 then v else width

/-- The width of a conversion. -/
def widthOf (values : List Int) : Int := values.foldl keepWidth (-1)

theorem processPrecision_fields (v : Int) (e : Spec) :
    (e.processPrecision v).padc = e.padc ∧ (e.processPrecision v).width = keepWidth e.width v ∧
      (e.processPrecision v).lflag = e.lflag := by
  unfold Spec.processPrecision keepWidth
  split
  · exact ⟨rfl, rfl, rfl⟩
  · exact ⟨rfl, rfl, rfl⟩

/-- What an item without an argument does. -/
theorem Item.apply_plain {i : Item} (h : i ≠ .star) (e : Spec) :
    ∃ e', (∀ ap, i.apply e ap = .ok (e', ap)) ∧ e'.padc = i.pad e.padc ∧
      (∀ items stars, (fieldValues (i :: items) stars).foldl keepWidth e.width =
        (fieldValues items stars).foldl keepWidth e'.width) ∧
      e'.lflag = if i = .ell then int32 (e.lflag + 1) else e.lflag := by
  cases i with
  | star => exact absurd rfl h
  | number n pos =>
    obtain ⟨hpad, hwidth, hflag⟩ := processPrecision_fields (int32 n) e
    refine ⟨_, fun _ => rfl, hpad, fun items stars => ?_, hflag⟩
    rw [hwidth]
    rfl
  | _ => exact ⟨_, fun _ => rfl, rfl, fun _ _ => rfl, rfl⟩

/-- The items take one `int` for each `*`, whatever follows. -/
theorem applyItems_stars : ∀ (items : List Item) (e : Spec) (stars : List Word),
    stars.length = items.count .star →
    ∃ e', (∀ rest, applyItems items e (stars.map Arg.word ++ rest) = .ok (e', rest)) ∧
      e'.padc = items.foldl (fun c i => i.pad c) e.padc ∧
      e'.width = (fieldValues items stars).foldl keepWidth e.width ∧
      (0 ≤ e.lflag → e.lflag + items.count .ell ≤ 2 → e'.lflag = e.lflag + items.count .ell)
  | [], e, stars, h => by
    rw [List.count_nil] at h
    rw [List.length_eq_zero_iff.mp h]
    exact ⟨e, fun _ => rfl, rfl, rfl, fun _ _ => (Int.add_zero _).symm⟩
  | i :: items, e, stars, h => by
    by_cases hi : i = .star
    · rw [hi, List.count_cons_self] at h
      obtain ⟨v, stars, rfl⟩ := List.exists_cons_of_length_eq_add_one h
      obtain ⟨hkpad, hkwidth, hkflag⟩ := processPrecision_fields v.toInt e
      obtain ⟨e', hrun, hpad, hwidth, hflag⟩ :=
        applyItems_stars items (e.processPrecision v.toInt) stars (by simpa using h)
      rw [hkpad] at hpad
      rw [hkwidth] at hwidth
      rw [hkflag] at hflag
      refine ⟨e', fun rest => ?_, ?_, ?_, ?_⟩
      · rw [hi, applyItems]
        exact hrun rest
      · rw [hi]
        exact hpad
      · rw [hi]
        exact hwidth
      · rwa [hi, List.count_cons_of_ne (by decide)]
    · obtain ⟨e1, hstep, hpad1, hwidth1, hflag1⟩ := Item.apply_plain hi e
      rw [List.count_cons_of_ne hi] at h
      obtain ⟨e', hrun, hpad, hwidth, hflag⟩ := applyItems_stars items e1 stars h
      refine ⟨e', fun rest => ?_, ?_, ?_, fun h0 hle => ?_⟩
      · rw [applyItems, hstep]
        exact hrun rest
      · rw [hpad, hpad1]
        rfl
      · rw [hwidth, hwidth1]
      · by_cases hell : i = .ell
        · rw [hell, List.count_cons_self] at hle ⊢
          rw [if_pos hell, int32_of_range (by unfold IsInt32; omega)] at hflag1
          rw [hflag1] at hflag
          rw [hflag (by omega) (by omega)]
          omega
        · rw [List.count_cons_of_ne hell] at hle ⊢
          rw [if_neg hell] at hflag1
          rw [hflag1] at hflag
          exact hflag h0 hle

/-- Numbers are padded with a blank, a `-` or a `0`. -/
theorem padChar_padOf (items : List Item) : PadChar (padOf items) := by
  have hstep : ∀ (items : List Item) (c : Int), PadChar c →
      PadChar (items.foldl (fun c i => i.pad c) c) := by
    intro items
    induction items with
    | nil => exact fun _ h => h
    | cons i items ih =>
      intro c h
      apply ih
      cases i with
      | minus => exact Or.inr (Or.inl rfl)
      | zero => exact Or.inr (Or.inr rfl)
      | _ => exact h
  exact hstep items _ (Or.inl rfl)

/-- The fields of a conversion, for given arguments of its `*`. -/
theorem Directive.fields (d : Directive) (short : d.items.count .ell ≤ 2) {stars : List Word}
    (h : stars.length = d.items.count .star) :
    ∃ e, (∀ rest, applyItems d.items Spec.init (stars.map Arg.word ++ rest) = .ok (e, rest)) ∧
      e.padc = padOf d.items ∧ e.width = widthOf (fieldValues d.items stars) ∧
      e.lflag = d.length.flag := by
  obtain ⟨e, hrun, hpad, hwidth, hflag⟩ := applyItems_stars d.items Spec.init stars h
  have hzero : Spec.init.lflag = 0 := rfl
  refine ⟨e, hrun, hpad, hwidth, ?_⟩
  rw [hflag (by decide) (by omega), hzero]
  unfold Directive.length
  rcases (show d.items.count .ell = 0 ∨ d.items.count .ell = 1 ∨ d.items.count .ell = 2 by omega)
    with hc | hc | hc <;> rw [hc] <;> rfl

/-- A conversion other than `%o` takes its argument, whatever follows. -/
theorem Conv.text_takes {c : Conv} (hc : c ≠ .oct) {l : Length} {arg : List Arg}
    (h : c.Takes l arg) {e : Spec} (he : e.lflag = l.flag) :
    ∃ t, ∀ rest, c.text e (arg ++ rest) = .ok (rest, t) := by
  cases c with
  | oct => exact absurd rfl hc
  | str =>
    obtain ⟨s, rfl⟩ := h
    refine ⟨printString collect e (content s) [], fun rest => ?_⟩
    cases s <;> rfl
  | dec =>
    obtain ⟨v, rfl⟩ := h
    exact ⟨_, integer_text rfl l v he⟩
  | uns =>
    obtain ⟨v, rfl⟩ := h
    exact ⟨_, integer_text rfl l v he⟩
  | hex =>
    obtain ⟨v, rfl⟩ := h
    exact ⟨_, integer_text rfl l v he⟩
  | ptr =>
    obtain ⟨v, rfl⟩ := h
    exact ⟨_, pointer_text v e⟩
  | chr =>
    obtain ⟨v, rfl⟩ := h
    exact ⟨[v.toInt], fun _ => rfl⟩
  | err =>
    obtain ⟨v, rfl⟩ := h
    exact ⟨errorText v.toInt, fun _ => rfl⟩

/-- What a conversion prints alone is what it prints in front of any other arguments. -/
theorem Filled.text_append (c : Filled) (hc : c.directive.conv ≠ .oct) (rest : List Arg) :
    c.directive.text (c.own ++ rest) = .ok (rest, c.text) := by
  obtain ⟨stars, arg, hown, hstars, htakes⟩ := c.fits
  obtain ⟨e, hfields, -, -, hflag⟩ := c.directive.fields c.short hstars
  obtain ⟨t, htext⟩ := Conv.text_takes hc htakes hflag
  have hrun : ∀ rest, c.directive.text (c.own ++ rest) = .ok (rest, t) := by
    intro rest
    rw [Directive.text, hown, List.append_assoc, hfields]
    exact htext rest
  have halone : c.text = t := by
    have h := hrun []
    rw [List.append_nil] at h
    rw [Filled.text, output_directive, h]
    rfl
  rw [hrun rest, halone]

/-! ## A whole format -/

theorem partsFormat_cons (p : Part) (parts : List Part) :
    (partsFormat (p :: parts)).bytes = p.bytes ++ (partsFormat parts).bytes := List.flatMap_cons

/-- **A format takes its arguments and prints the texts of its parts.** -/
theorem run_parts {σ : Type} (putch : Int → σ → σ) (extra : List Arg) :
    ∀ (parts : List Part) (fuel : Nat) (before : List Byte) (s : σ),
      (∀ c, Part.conv c ∈ parts → c.directive.conv ≠ .oct) →
      (partsFormat parts).bytes.length + 9 ≤ fuel →
      vprintfmtLoopAp putch fuel ⟨before, (partsFormat parts).bytes ++ [0]⟩
          (parts.flatMap Part.args ++ extra) s =
        .ok (extra, emit putch (parts.flatMap Part.printed) s)
  | _, 0, _, _, _, hfuel => absurd hfuel (by omega)
  | [], fuel + 1, before, s, _, _ => rfl
  | p :: parts, fuel + 1, before, s, hoct, hfuel => by
    have hrest := fun c hmem => hoct c (List.mem_cons_of_mem p hmem)
    rw [partsFormat_cons, List.length_append] at hfuel
    rw [partsFormat_cons, List.append_assoc, List.flatMap_cons, List.flatMap_cons,
      List.append_assoc, emit_append]
    cases p with
    | text bs plain =>
      simp only [Part.bytes] at hfuel
      obtain ⟨k, hk⟩ : ∃ k, fuel + 1 = k + bs.length := ⟨fuel + 1 - bs.length, by omega⟩
      rw [hk]
      refine (vprintfmtLoopAp_text putch _ bs k before s plain).trans ?_
      exact run_parts putch extra parts k _ _ hrest (by omega)
    | percent =>
      have hlen : Part.percent.bytes.length = 2 := rfl
      refine (vprintfmtLoopAp_percent putch fuel before _ _ s).trans ?_
      exact run_parts putch extra parts fuel _ _ hrest (by omega)
    | conv c =>
      have hlen : 2 ≤ (Part.conv c).bytes.length := by simp [Part.bytes, Directive.bytes]
      refine (vprintfmtLoopAp_directive putch (by omega) c.directive before _ _ s).trans ?_
      have htext := c.text_append (hoct c List.mem_cons_self) (parts.flatMap Part.args ++ extra)
      simp only [Part.args, htext]
      exact run_parts putch extra parts fuel _ _ hrest (by omega)

/-! ## Texts of numbers -/

/-- The text is the number: its numeral with its sign, up to blanks around it and zeros in front
of the digits. -/
def Denotes (base : Nat) (v : Int) (t : List Int) : Prop :=
  ∃ a z b, t = List.replicate a (char ' ').toInt ++ (sign v ++
    (List.replicate z (char '0').toInt ++
      (digits base v.natAbs ++ List.replicate b (char ' ').toInt)))

/-- The padding leaves the number readable: there is none, or it consists of zeros, or of blanks
in front of a number without a sign. -/
def ReadablePad (base : Nat) (v width padc : Int) : Prop :=
  int32 (width - digitCount base v) ≤ 0 ∨ padc = (char '0').toInt ∨
    (padc = (char ' ').toInt ∧ 0 ≤ v)

theorem zeros_digits_head {base : Nat} (h2 : 2 ≤ base) (h16 : base ≤ 16) (z n : Nat)
    (w : List Int) :
    ∃ c t, List.replicate z (char '0').toInt ++ (digits base n ++ w) = c :: t ∧
      (char '0').toInt ≤ c ∧ c ≠ (char 'X').toInt := by
  cases z with
  | zero =>
    obtain ⟨c, t, heq, hc⟩ := digits_head h2 h16 n
    exact ⟨c, t ++ w, by rw [heq]; rfl, hc⟩
  | succ z => exact ⟨_, _, rfl, by decide, by decide⟩

/-- The first character of a text of a number. -/
theorem Denotes.head {base : Nat} (h2 : 2 ≤ base) (h16 : base ≤ 16) {v : Int} {c : Int}
    {t : List Int} (h : Denotes base v (c :: t)) :
    (c = (char ' ').toInt) ∨ (v < 0 ∧ c = (char '-').toInt ∧
        ∀ x u, t = x :: u → (char '0').toInt ≤ x) ∨
      (0 ≤ v ∧ (char '0').toInt ≤ c ∧ c ≠ (char 'X').toInt) := by
  obtain ⟨a, z, b, heq⟩ := h
  obtain ⟨x, u, hhead, hx, hX⟩ := zeros_digits_head h2 h16 z v.natAbs
    (List.replicate b (char ' ').toInt)
  rw [hhead] at heq
  cases a with
  | succ a => exact Or.inl (List.cons.inj heq).1
  | zero =>
    right
    unfold sign at heq
    by_cases hneg : v < 0
    · rw [if_pos hneg] at heq
      obtain ⟨hc, ht⟩ := List.cons.inj heq
      refine Or.inl ⟨hneg, hc, fun y w hy => ?_⟩
      rw [ht] at hy
      rw [← (List.cons.inj hy).1]
      exact hx
    · rw [if_neg hneg] at heq
      obtain ⟨hc, -⟩ := List.cons.inj heq
      exact Or.inr ⟨by omega, hc ▸ hx, hc ▸ hX⟩

/-- A number in a field is readable if its padding is. -/
theorem denotes_numberText_iff {base : Nat} (h2 : 2 ≤ base) (h16 : base ≤ 16) (v width : Int)
    {padc : Int} (hpad : PadChar padc) :
    Denotes base v (numberText base v width padc) ↔ ReadablePad base v width padc := by
  have hspace : (char ' ').toInt < (char '0').toInt := by decide
  have hminus : (char '-').toInt < (char '0').toInt := by decide
  have hne : (char '-').toInt ≠ (char ' ').toInt := by decide
  constructor
  · intro h
    by_cases hnone : int32 (width - digitCount base v) ≤ 0
    · exact Or.inl hnone
    obtain ⟨k, hk⟩ : ∃ k, (int32 (width - digitCount base v)).toNat = k + 1 :=
      ⟨(int32 (width - digitCount base v)).toNat - 1, by omega⟩
    rw [numberText, hk, List.replicate_succ, sign] at h
    refine Or.inr ?_
    by_cases hneg : v < 0
    · -- the padding stands behind the sign
      rw [if_pos hneg] at h
      rcases h.head h2 h16 with hc | ⟨-, -, hc⟩ | ⟨hv, -⟩
      · exact absurd hc hne
      · have hge := hc _ _ rfl
        rcases hpad with hp | hp | hp
        · omega
        · omega
        · exact Or.inl hp
      · omega
    · rw [if_neg hneg] at h
      rcases h.head h2 h16 with hc | ⟨hv, -⟩ | ⟨hv, hc, -⟩
      · exact Or.inr ⟨hc, by omega⟩
      · exact absurd hv hneg
      · rcases hpad with hp | hp | hp
        · omega
        · omega
        · exact Or.inl hp
  · rintro (h | h | ⟨h, hv⟩)
    · have hzero : (int32 (width - digitCount base v)).toNat = 0 := by omega
      exact ⟨0, 0, 0, by simp [numberText, hzero]⟩
    · exact ⟨0, (int32 (width - digitCount base v)).toNat, 0, by simp [numberText, h]⟩
    · have hsign : sign v = [] := if_neg (by omega)
      exact ⟨(int32 (width - digitCount base v)).toNat, 0, 0, by simp [numberText, h, hsign]⟩

/-- The text of a number conversion. -/
theorem Filled.text_number (c : Filled) (hc : c.directive.conv.isInteger) {stars : List Word}
    {v : Int} (hv : c.Gives stars v) :
    c.text = numberText c.directive.conv.base v (widthOf (fieldValues c.directive.items stars))
      (padOf c.directive.items) := by
  obtain ⟨w, hown, hstars, rfl⟩ := hv
  obtain ⟨e, hfields, hpad, hwidth, hflag⟩ := c.directive.fields c.short hstars
  have hrun := hfields (c.directive.length.args w)
  have htext := integer_text hc c.directive.length w hflag []
  rw [List.append_nil, hpad, hwidth] at htext
  rw [Filled.text, output_directive, Directive.text, hown, hrun]
  show (((c.directive.conv.text e (c.directive.length.args w)).map Prod.snd).toOption).getD [] = _
  rw [htext]
  rfl

/-- `%o` prints `XXX` for every argument. -/
theorem Filled.text_octal (c : Filled) (hc : c.directive.conv = .oct) :
    c.text = [(char 'X').toInt, (char 'X').toInt, (char 'X').toInt] := by
  obtain ⟨stars, arg, hown, hstars, -⟩ := c.fits
  obtain ⟨e, hfields, -, -, -⟩ := c.directive.fields c.short hstars
  rw [Filled.text, output_directive, Directive.text, hown, hfields, hc]
  rfl

theorem not_denotes_octal (v : Int) :
    ¬Denotes 8 v [(char 'X').toInt, (char 'X').toInt, (char 'X').toInt] := by
  intro h
  rcases h.head (by decide) (by decide) with hc | ⟨-, hc, -⟩ | ⟨-, -, hc⟩
  · exact absurd hc (by decide)
  · exact absurd hc (by decide)
  · exact hc rfl

/-! ## The law -/

/-- The arguments stay aligned: all of them are taken and no more, the text of each conversion is
what it prints with its own arguments alone, and the texts of numbers denote them. -/
structure Aligned (parts : List Part) : Prop where
  taken : ∀ extra, outputAp (partsFormat parts) (parts.flatMap Part.args ++ extra) =
    .ok (extra, parts.flatMap Part.printed)
  denotes : ∀ c, Part.conv c ∈ parts → c.directive.conv.isNumber → ∀ stars v, c.Gives stars v →
    Denotes c.directive.conv.base v c.text

/-- The conversion is not `%o`, and a number in it is padded readably. -/
def Filled.Sound (c : Filled) : Prop :=
  c.directive.conv ≠ .oct ∧ (c.directive.conv.isNumber → ∀ stars v, c.Gives stars v →
    ReadablePad c.directive.conv.base v (widthOf (fieldValues c.directive.items stars))
      (padOf c.directive.items))

theorem Conv.integer_of_number {c : Conv} (h : c.isNumber) (hc : c ≠ .oct) :
    c.isInteger ∧ 2 ≤ c.base ∧ c.base ≤ 16 := by
  cases c <;> simp_all [Conv.isNumber, Conv.isInteger, Conv.base]

/-- An argument of a number conversion has a value. -/
theorem Filled.exists_gives (c : Filled) (hc : c.directive.conv.isNumber) :
    ∃ stars v, c.Gives stars v := by
  obtain ⟨stars, arg, hown, hstars, htakes⟩ := c.fits
  have hvalue : ∃ w, arg = c.directive.length.args w := by
    cases hconv : c.directive.conv <;> rw [hconv] at hc htakes <;>
      first | exact htakes | cases hc
  obtain ⟨w, rfl⟩ := hvalue
  exact ⟨stars, _, w, hown, hstars, rfl⟩

/-- **The arguments of a format stay aligned** exactly when none of its conversions is `%o` and
its numbers are padded readably. -/
theorem aligned_iff (parts : List Part) :
    Aligned parts ↔ ∀ c, Part.conv c ∈ parts → c.Sound := by
  constructor
  · intro h c hc
    have hoct : c.directive.conv ≠ .oct := by
      intro hoct
      obtain ⟨stars, v, hv⟩ := c.exists_gives (by rw [hoct]; rfl)
      have hdenotes := h.denotes c hc (by rw [hoct]; rfl) stars v hv
      rw [c.text_octal hoct, hoct] at hdenotes
      exact not_denotes_octal v hdenotes
    refine ⟨hoct, fun hnumber stars v hv => ?_⟩
    obtain ⟨hinteger, h2, h16⟩ := Conv.integer_of_number hnumber hoct
    have hdenotes := h.denotes c hc hnumber stars v hv
    rw [c.text_number hinteger hv] at hdenotes
    exact (denotes_numberText_iff h2 h16 v _ (padChar_padOf _)).1 hdenotes
  · intro h
    refine ⟨fun extra => ?_, fun c hc hnumber stars v hv => ?_⟩
    · have hrun := run_parts collect extra parts ((partsFormat parts).bytes.length + 12) [] []
        (fun c hc => (h c hc).1) (by omega)
      rw [emit_collect, List.nil_append] at hrun
      exact hrun
    · obtain ⟨hoct, hreadable⟩ := h c hc
      obtain ⟨hinteger, h2, h16⟩ := Conv.integer_of_number hnumber hoct
      rw [c.text_number hinteger hv]
      exact (denotes_numberText_iff h2 h16 v _ (padChar_padOf _)).2 (hreadable hnumber stars v hv)

/-- The conversion of the boot message. -/
def octal6828 : Filled where
  directive := ⟨[], rfl, .oct⟩
  own := [.word 6828]
  short := Nat.zero_le 2
  fits := ⟨[], [.word 6828], rfl, rfl, 6828, rfl⟩

/-- 6828 under `%o` reads `XXX`. -/
theorem octal_not_aligned : ¬Aligned [.conv octal6828] := by
  intro h
  have hvalue : octal6828.Gives [] 6828 := ⟨6828, rfl, rfl, rfl⟩
  have hdenotes := h.denotes octal6828 List.mem_cons_self rfl [] 6828 hvalue
  rw [octal6828.text_octal rfl] at hdenotes
  exact not_denotes_octal 6828 hdenotes

end Jos
