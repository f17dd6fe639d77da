import JosKernel.Format.ErrorCode
import JosKernel.Format.Strtol

/-!
# Flags and fields

What stands between a `%` and its conversion, as a list of items.  `reswitch` handles one item
in each of its rounds; a decimal number is one item, because the scanner takes all its digits,
and so no digit may follow it.

Principal results: `reswitch_items` — the flag loop goes through the items;
`escape_directive` — a whole escape sequence; `output_directive` — the output of a format that is
one escape sequence.
-/

set_option autoImplicit false

namespace Jos

open Numeral

/-- A flag, a field or a length modifier. -/
inductive Item where
  | minus | zero | hash | ell | dot | star
  | number (n : Nat) (pos : 0 < n)
  deriving DecidableEq, Repr

def Item.bytes : Item → List Byte
  | .minus => [char '-']
  | .zero => [char '0']
  | .hash => [char '#']
  | .ell => [char 'l']
  | .dot => [char '.']
  | .star => [char '*']
  | .number n _ => numeralBytes 10 n

/-- What an item does to the fields and to the arguments. -/
def Item.apply : Item → Spec → List Arg → Except Fault (Spec × List Arg)
  | .minus, e, ap => .ok ({ e with padc := (char '-').toInt }, ap)
  | .zero, e, ap => .ok ({ e with padc := (char '0').toInt }, ap)
  | .hash, e, ap => .ok ({ e with altflag := true }, ap)
  | .ell, e, ap => .ok ({ e with lflag := int32 (e.lflag + 1) }, ap)
  | .dot, e, ap => .ok ({ e with width := if e.width < 0 then 0 else e.width }, ap)
  | .star, e, ap => (vaArgInt ap).map fun r => (e.processPrecision r.1, r.2)
  | .number n _, e, ap => .ok (e.processPrecision (int32 n), ap)

def applyItems : List Item → Spec → List Arg → Except Fault (Spec × List Arg)
  | [], e, ap => .ok (e, ap)
  | i :: items, e, ap => i.apply e ap >>= fun r => applyItems items r.1 r.2

def itemBytes (items : List Item) : List Byte := items.flatMap Item.bytes

/-- The item is written with digits. -/
def Item.isDigits : Item → Bool
  | .zero | .number _ _ => true
  | _ => false

/-- The item is a number, which would go on with any digit behind it. -/
def Item.isNumber : Item → Bool
  | .number _ _ => true
  | _ => false

/-- No number is followed by a digit. -/
def Separated : List Item → Bool
  | i :: j :: items => !(i.isNumber && j.isDigits) && Separated (j :: items)
  | _ => true

/-! ## Numbers -/

/-- A decimal digit goes on with a number, and starts one unless it is 0. -/
theorem digit_label : ∀ d < 10, ¬stopsNumber (store (digit d)) ∧
    (0 < d → label (store (digit d)) = .digit) ∧
    ((store (digit d)).toNat : Int) = (char '0').toNat + d := by decide

/-- The scanner reads a decimal numeral to its end. -/
theorem scanNumber_digits {c : Byte} (hc : stopsNumber c) (rest : List Byte) :
    ∀ (ds : List Nat) (d v : Nat) (before : List Byte), (∀ x ∈ d :: ds, x < 10) →
      scanNumber (store (digit d)) (int32 v) before
          ((ds.map fun d => store (digit d)) ++ c :: rest) =
        .ok (int32 (horner 10 v (d :: ds)),
          ⟨(ds.map fun d => store (digit d)).reverse ++ before, c :: rest⟩) := by
  have hstep : ∀ d < 10, ∀ v : Nat,
      int32 (int32 v * 10 + (store (digit d)).toNat - (char '0').toNat) =
        int32 (v * 10 + d : Nat) := by
    intro d hd v
    rw [(digit_label d hd).2.2, show ∀ a b c : Int, a + (b + c) - b = a + c by omega,
      int32_mul_add]
    rfl
  intro ds
  induction ds with
  | nil =>
    intro d v before h
    rw [List.map_nil, List.nil_append, scanNumber, hstep d (h d List.mem_cons_self)]
    exact if_pos hc
  | cons e ds ih =>
    intro d v before h
    obtain ⟨hd, hds⟩ := List.forall_mem_cons.mp h
    rw [List.map_cons, List.cons_append, scanNumber, hstep d hd]
    refine (if_neg (digit_label e (hds e List.mem_cons_self)).1).trans ?_
    rw [ih e _ _ hds, List.reverse_cons, List.append_assoc]
    rfl

/-- A positive number starts with a digit that is not 0. -/
theorem numeralBytes_cons {n : Nat} (pos : 0 < n) :
    ∃ d ds, numeral 10 n = d :: ds ∧ (∀ x ∈ d :: ds, x < 10) ∧ 0 < d ∧
      numeralBytes 10 n = store (digit d) :: ds.map fun d => store (digit d) := by
  obtain ⟨d, ds, heq, hd⟩ := numeral_head (show 2 ≤ 10 by decide) pos
  refine ⟨d, ds, heq, ?_, hd, by rw [numeralBytes, heq]; rfl⟩
  intro x hx
  rw [← heq] at hx
  exact lt_of_mem_numeral (by decide) hx

/-! ## The flag loop -/

theorem reswitch_item (i : Item) {c : Byte} (hc : i.isNumber → stopsNumber c) (fuel : Nat)
    (before rest : List Byte) (e : Spec) (ap : List Arg) :
    reswitch (fuel + 1) ⟨before, i.bytes ++ c :: rest⟩ e ap =
      i.apply e ap >>= fun r =>
        reswitch fuel ⟨i.bytes.reverse ++ before, c :: rest⟩ r.1 r.2 := by
  cases i with
  | number n pos =>
    obtain ⟨d, ds, heq, hlt, hd, hbytes⟩ := numeralBytes_cons pos
    have hscan := scanNumber_digits (hc rfl) rest ds d 0 (store (digit d) :: before) hlt
    rw [← heq, horner_numeral (by decide)] at hscan
    simp only [Item.bytes, hbytes, List.cons_append]
    rw [reswitch]
    simp only [Cursor.next, Bind.bind, Except.bind,
      (digit_label d (hlt d List.mem_cons_self)).2.1 hd]
    rw [show (0 : Int) = int32 (0 : Nat) from rfl, hscan]
    simp [Item.apply]
  | star =>
    rw [Item.apply, bind_map]
    rfl
  | _ => rfl

/-- The byte behind an item: the next item's first byte, or the conversion. -/
theorem itemBytes_cons_append {items : List Item} {ch : Byte} (hch : (label ch).again = false)
    (rest : List Byte) {i : Item} (h : Separated (i :: items)) :
    ∃ c after, itemBytes items ++ ch :: rest = c :: after ∧ (i.isNumber → stopsNumber c) := by
  cases items with
  | nil =>
    refine ⟨ch, rest, rfl, fun _ => Decidable.byContradiction fun hdigit => ?_⟩
    rw [(again_of_digit ch hdigit).1] at hch
    cases hch
  | cons j items =>
    have hsep : ¬(i.isNumber = true ∧ j.isDigits = true) := by
      simp only [Separated, Bool.and_eq_true, Bool.not_eq_true', Bool.and_eq_false_imp] at h
      intro hij
      exact absurd hij.2 (by simpa using h.1 hij.1)
    rw [itemBytes, List.flatMap_cons, List.append_assoc]
    cases j with
    | number n pos =>
      obtain ⟨d, ds, -, -, -, hbytes⟩ := numeralBytes_cons pos
      exact ⟨_, _, by rw [Item.bytes, hbytes]; rfl, fun hi => absurd ⟨hi, rfl⟩ hsep⟩
    | zero => exact ⟨_, _, rfl, fun hi => absurd ⟨hi, rfl⟩ hsep⟩
    | _ => exact ⟨_, _, rfl, fun _ => by decide⟩

/-- **The flag loop goes through the items**, one in each round. -/
theorem reswitch_items {ch : Byte} (hch : (label ch).again = false) (rest : List Byte) :
    ∀ (items : List Item) (fuel : Nat) (before : List Byte) (e : Spec) (ap : List Arg),
      Separated items → items.length < fuel →
      reswitch fuel ⟨before, itemBytes items ++ ch :: rest⟩ e ap =
        (applyItems items e ap).map fun r =>
          (ch, ⟨ch :: (itemBytes items).reverse ++ before, rest⟩, r.1, r.2)
  | _, 0, _, _, _, _, h => absurd h (Nat.not_lt_zero _)
  | [], fuel + 1, before, e, ap, _, _ => by
    show reswitch (fuel + 1) ⟨before, ch :: rest⟩ e ap = _
    rw [reswitch]
    simp only [Cursor.next, Bind.bind, Except.bind]
    cases hl : label ch <;> first | rfl | simp [Label.again, hl] at hch
  | i :: items, fuel + 1, before, e, ap, hsep, hlen => by
    obtain ⟨c, after, heq, hc⟩ := itemBytes_cons_append hch rest hsep
    have hsep' : Separated items := by
      cases items with
      | nil => rfl
      | cons j items => exact (Bool.and_eq_true _ _ ▸ hsep).2
    rw [itemBytes, List.flatMap_cons, List.append_assoc]
    rw [← itemBytes, heq, reswitch_item i hc, ← heq, applyItems, map_bind]
    congr 1
    funext r
    rw [reswitch_items hch rest items fuel _ _ _ hsep' (by simpa using hlen)]
    simp

/-! ## Escape sequences -/

/-- The conversions that take an argument, and `%o`, which is still to be written. -/
inductive Conv where
  | chr | err | str | dec | uns | oct | ptr | hex
  deriving DecidableEq, Repr

def Conv.byte : Conv → Byte
  | .chr => char 'c'
  | .err => char 'e'
  | .str => char 's'
  | .dec => char 'd'
  | .uns => char 'u'
  | .oct => char 'o'
  | .ptr => char 'p'
  | .hex => char 'x'

theorem Conv.plain (c : Conv) : (label c.byte).again = false ∧ label c.byte ≠ .other ∧
    (label c.byte = .err ↔ c = .err) := by
  cases c <;> decide

/-- What a conversion prints, and the arguments that it leaves. -/
def Conv.text (c : Conv) (e : Spec) (ap : List Arg) : Except Fault (List Arg × List Int) :=
  if c = .err then (vaArgInt ap).map fun r => (r.2, errorText r.1)
  else convert collect (label c.byte) e ap []

/-- An escape sequence: its items and its conversion. -/
structure Directive where
  items : List Item
  separated : Separated items
  conv : Conv

def Directive.bytes (d : Directive) : List Byte :=
  char '%' :: (itemBytes d.items ++ [d.conv.byte])

/-- What an escape sequence prints, and the arguments that it leaves. -/
def Directive.text (d : Directive) (ap : List Arg) : Except Fault (List Arg × List Int) :=
  applyItems d.items Spec.init ap >>= fun r => d.conv.text r.1 r.2

theorem itemBytes_length (items : List Item) : items.length ≤ (itemBytes items).length := by
  induction items with
  | nil => exact Nat.le_refl 0
  | cons i items ih =>
    have hpos : 0 < i.bytes.length := by
      cases i with
      | number n pos =>
        obtain ⟨d, ds, -, -, -, hbytes⟩ := numeralBytes_cons pos
        simp [Item.bytes, hbytes]
      | _ => decide
    rw [itemBytes, List.flatMap_cons, List.length_append, List.length_cons, ← itemBytes]
    omega

section Loop

variable {σ : Type} (putch : Int → σ → σ)

/-- The characters of a conversion do not depend on the sink. -/
theorem convert_emit (l : Label) (e : Spec) (ap : List Arg) (s : σ) :
    convert putch l e ap s =
      (convert collect l e ap []).map fun r => (r.1, emit putch r.2 s) := by
  have hh : ∀ (c : Int) (t : List Int), emit putch (collect c t) s = putch c (emit putch t s) :=
    fun c t => emit_append putch t [c] s
  exact (convert_hom hh l e ap []).symm

/-- **A whole escape sequence**: the cursor behind it, the arguments left and the text. -/
theorem escape_directive {fuel : Nat} (hfuel : 8 ≤ fuel) (d : Directive) (before rest : List Byte)
    (ap : List Arg) (s : σ) :
    escape putch (fun fmt ap s => vprintfmtLoop putch fuel fmt.start ap s)
        ⟨char '%' :: before, itemBytes d.items ++ d.conv.byte :: rest⟩ ap s =
      (d.text ap).map fun r =>
        (⟨d.bytes.reverse ++ before, rest⟩, r.1, emit putch r.2 s) := by
  obtain ⟨hagain, hother, herr⟩ := d.conv.plain
  have hlen := itemBytes_length d.items
  have hcursor : d.conv.byte :: (itemBytes d.items).reverse ++ char '%' :: before =
      d.bytes.reverse ++ before := by
    simp [Directive.bytes]
  rw [escape, reswitch_items hagain rest d.items _ (char '%' :: before) Spec.init ap d.separated
    (by rw [List.length_append]; omega), bind_map, Directive.text, map_bind, hcursor]
  congr 1
  funext r
  obtain ⟨e, ap⟩ := r
  simp only [Conv.text]
  by_cases hc : d.conv = .err
  · rw [if_pos hc, herr.2 hc]
    simp only [printError_emit putch hfuel]
    cases vaArgInt ap <;> rfl
  · rw [if_neg hc]
    have hlabel : label d.conv.byte ≠ .err := fun h => hc (herr.1 h)
    cases hl : label d.conv.byte with
    | err => exact absurd hl hlabel
    | other => exact absurd hl hother
    | _ =>
      simp only [convert_emit putch _ e ap s]
      cases convert collect _ e ap [] <;> rfl

/-- The outer loop takes an escape sequence in one round. -/
theorem vprintfmtLoop_directive {fuel : Nat} (hfuel : 8 ≤ fuel) (d : Directive)
    (before rest : List Byte) (ap : List Arg) (s : σ) :
    vprintfmtLoop putch (fuel + 1) ⟨before, d.bytes ++ rest⟩ ap s =
      d.text ap >>= fun r =>
        vprintfmtLoop putch fuel ⟨d.bytes.reverse ++ before, rest⟩ r.1 (emit putch r.2 s) := by
  have hafter : d.bytes ++ rest = char '%' :: (itemBytes d.items ++ d.conv.byte :: rest) := by
    simp [Directive.bytes]
  rw [hafter, vprintfmtLoop_escape, escape_directive putch hfuel d, bind_map]

end Loop

/-! ## Formats of one escape sequence -/

theorem Conv.byte_ne_zero (c : Conv) : c.byte ≠ 0 := by
  cases c <;> decide

theorem itemBytes_ne_zero {items : List Item} : (0 : Byte) ∉ itemBytes items := by
  intro h
  obtain ⟨i, -, hi⟩ := List.mem_flatMap.mp h
  cases i with
  | number n pos => exact numeralBytes_nul_free (by decide) (by decide) hi
  | _ => exact absurd hi (by decide)

/-- The format that consists of the escape sequence. -/
def Directive.format (d : Directive) : CStr where
  bytes := d.bytes
  nul_free := by
    simp only [Directive.bytes, List.mem_cons, List.mem_append, List.not_mem_nil, or_false,
      not_or]
    exact ⟨by decide, itemBytes_ne_zero, d.conv.byte_ne_zero.symm⟩

/-- **The output of a format that is one escape sequence.** -/
theorem output_directive (d : Directive) (ap : List Arg) :
    output d.format ap = (d.text ap).map Prod.snd := by
  have hstart : d.format.start = ⟨[], d.bytes ++ [0]⟩ := rfl
  have hend : ∀ (fuel : Nat) (before : List Byte) (ap : List Arg) (t : List Int),
      vprintfmtLoop collect (fuel + 1) ⟨before, [0]⟩ ap (emit collect t []) = .ok t := by
    intro fuel before ap t
    rw [vprintfmtLoop_end, emit_collect]
    rfl
  rw [output, vprintfmt, hstart, vprintfmtLoop_directive collect (by omega)]
  simp only [hend]
  cases d.text ap <;> rfl

/-- `%-5ld`. -/
example : (Directive.format ⟨[.minus, .number 5 (by decide), .ell], rfl, .dec⟩).bytes =
    (CStr.ofString "%-5ld").bytes := by decide +kernel

end Jos
