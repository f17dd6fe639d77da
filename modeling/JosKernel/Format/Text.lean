import JosKernel.Format.Cprintf
import JosKernel.Format.Scan

/-!
# Text in the format and text as an argument

The outer loop of `vprintfmt` reads the format as `unsigned char`; `case 's'` reads its
argument through a `char *`, and `char` is signed.  A byte from 128 on is therefore a positive
character in a format and a negative one as an argument, and the display takes the bits above
the low byte for an attribute.

Principal results: `output_text`, `output_string` — what each sends to the console;
`same_text_iff` — they agree exactly on 7-bit text whose length leaves no width to pad.
-/

set_option autoImplicit false

namespace Jos

/-- What `case 's'` sends for text: signed bytes. -/
def signed (text : List Byte) : List Int := text.map BitVec.toInt

theorem emit_collect : ∀ t u : List Int, emit collect t u = u ++ t
  | [], u => (List.append_nil u).symm
  | c :: t, u => by
    rw [emit_cons, emit_collect t, collect, List.append_assoc, List.singleton_append]

theorem pad_eq_emit {σ : Type} (putch : Int → σ → σ) (c : Int) :
    ∀ (k : Nat) (s : σ), pad putch c k s = emit putch (List.replicate k c) s
  | 0, _ => rfl
  | k + 1, s => by rw [pad, pad_eq_emit putch c k, List.replicate_succ, emit_cons]

/-- Without a precision and without `#`, every byte is sent and takes one column. -/
theorem putString_eq {σ : Type} (putch : Int → σ → σ) {precision : Int} (hp : precision < 0) :
    ∀ (p : List Byte) (width : Int) (s : σ), IsInt32 width →
      putString putch false p precision width s =
        (int32 (width - p.length), emit putch (signed p) s)
  | [], width, s, hw => by simp [putString, signed, int32_of_range hw]
  | c :: p, width, s, _ => by
    rw [putString]
    simp only [if_pos (Or.inl hp : precision < 0 ∨ precision - 1 ≥ 0), if_pos hp,
      Bool.false_eq_true, false_and, if_false]
    rw [putString_eq putch hp p _ _ (int32_isInt32 _)]
    congr 1
    rw [Int.sub_eq_add_neg, int32_add_left, List.length_cons]
    congr 1
    omega

/-- The width that is left behind a string without flags. -/
def padding (n : Nat) : Nat := (int32 (-1 - n)).toNat

theorem padding_eq_zero_iff (n : Nat) :
    padding n = 0 ↔ n % 4294967296 < 2147483648 ∨ n % 4294967296 = 4294967295 := by
  unfold padding int32
  omega

/-- Text in the format is sent as it is. -/
theorem output_text {fmt : CStr} (h : IsText fmt.bytes) (ap : List Arg) :
    output fmt ap = .ok (plain fmt.bytes) := by
  have htext : vprintfmtFrom collect fmt.start ap [] =
      vprintfmtFrom collect ⟨fmt.bytes.reverse ++ [], [0]⟩ ap (emit collect (plain fmt.bytes) []) :=
    vprintfmtFrom_text collect (by simp) ap fmt.bytes [] [] h
  rw [output, vprintfmt_eq_from, htext, emit_collect]
  rfl

/-- What `%s` sends for a string: signed bytes, and padding if the width wrapped. -/
def stringText (p : List Byte) : List Int :=
  signed p ++ List.replicate (padding p.length) (char ' ').toInt

theorem printString_init {σ : Type} (putch : Int → σ → σ) (p : CStr) (s : σ) :
    printString putch Spec.init p s = emit putch (stringText p.bytes) s := by
  unfold printString
  have hpad : padString putch Spec.init p s = (-1, s) := if_neg (by decide)
  rw [hpad]
  show pad putch _ (putString putch false p.bytes (-1) (-1) s).1.toNat
    (putString putch false p.bytes (-1) (-1) s).2 = _
  rw [putString_eq putch (by decide) _ _ _ (by unfold IsInt32; omega), pad_eq_emit,
    stringText, emit_append]
  rfl

/-- Text as the argument of `%s` is sent signed, and padded if its width wrapped. -/
theorem output_string (p : CStr) :
    output (CStr.ofString "%s") [.str p] =
      .ok (signed p.bytes ++ List.replicate (padding p.bytes.length) (char ' ').toInt) := by
  rw [output, vprintfmt, show (CStr.ofString "%s").bytes.length + 12 = 12 + 2 from rfl,
    printfmt_text, printString_init, emit_collect]
  rfl

/-- A conversion without flags between two texts. -/
theorem output_between {a b : List Byte} (ha : IsText a) (hb : IsText b) {ch : Byte}
    (hch : (label ch).again = false) (hconv : label ch ≠ .other) (herr : label ch ≠ .err)
    {fmt : CStr} (hfmt : fmt.bytes = a ++ char '%' :: ch :: b) {ap : List Arg} {t : List Int}
    (h : ∀ s, convert collect (label ch) Spec.init ap s = .ok ([], s ++ t)) :
    output fmt ap = .ok (plain a ++ t ++ plain b) := by
  have hstart : fmt.start = ⟨[], a ++ char '%' :: ch :: (b ++ [0])⟩ := by
    rw [CStr.start, hfmt, List.append_assoc]
    rfl
  have hstep : ∀ (before : List Byte) (s : List Int),
      vprintfmtFrom collect ⟨before, char '%' :: ch :: (b ++ [0])⟩ ap s =
        vprintfmtFrom collect ⟨ch :: char '%' :: before, b ++ [0]⟩ [] (s ++ t) := fun before s => by
    rw [vprintfmtFrom, List.length_cons, Nat.add_right_comm,
      vprintfmtLoop_conversion collect _ hch hconv herr, h]
    exact vprintfmtLoop_eq_from collect (by simp) (by simp) [] _
  have hend : ∀ (before : List Byte) (s : List Int),
      vprintfmtFrom collect ⟨before, [0]⟩ [] s = .ok s := fun _ _ => rfl
  rw [output, vprintfmt_eq_from, hstart, vprintfmtFrom_text collect (by simp) _ a [] [] ha, hstep,
    vprintfmtFrom_text collect (by simp) [] b _ _ hb, hend, emit_collect, emit_collect]
  rfl

/-- `%s` between two texts. -/
theorem output_string_between {a b : List Byte} (ha : IsText a) (hb : IsText b) {fmt : CStr}
    (hfmt : fmt.bytes = a ++ char '%' :: char 's' :: b) (p : CStr) :
    output fmt [.str p] = .ok (plain a ++ stringText p.bytes ++ plain b) := by
  refine output_between ha hb (by decide) (by decide) (by decide) hfmt fun s => ?_
  show Except.ok ([], printString collect Spec.init p s) = _
  rw [printString_init, emit_collect]

set_option maxRecDepth 4000 in
theorem toNat_eq_toInt_iff : ∀ b : Byte, (b.toNat : Int) = b.toInt ↔ b.toNat < 128 := by decide

theorem plain_eq_signed_iff : ∀ text : List Byte,
    plain text = signed text ↔ ∀ b ∈ text, b.toNat < 128
  | [] => by simp [plain, signed]
  | b :: text => by
    have ih := plain_eq_signed_iff text
    simp only [plain, signed, List.map_cons, List.cons.injEq, toNat_eq_toInt_iff,
      List.forall_mem_cons] at ih ⊢
    rw [ih]

/-- `cprintf(s)` and `cprintf("%s", s)` pass the same characters to `cputchar`, and leave the
same screen, cursor and count, whatever the console. -/
def SameText (s : CStr) : Prop :=
  output s [] = output (CStr.ofString "%s") [.str s] ∧
  ∀ (δ : Type) (d : Device δ) (m : Console δ), ∃ m1 m2 n,
    vcprintf d s [] m = .ok (m1, n) ∧ vcprintf d (CStr.ofString "%s") [.str s] m = .ok (m2, n) ∧
    m1.crt.buf = m2.crt.buf ∧ m1.crt.pos = m2.crt.pos

/-- **Text prints the same in the format and as an argument exactly when it is 7-bit text**,
up to the lengths at which the width wraps. -/
theorem same_text_iff (s : CStr) (hs : char '%' ∉ s.bytes) :
    SameText s ↔ (∀ b ∈ s.bytes, b.toNat < 128) ∧
      (s.bytes.length % 4294967296 < 2147483648 ∨ s.bytes.length % 4294967296 = 4294967295) := by
  have htext : IsText s.bytes := fun c hc =>
    ⟨fun h => hs (h ▸ hc), fun h => s.nul_free (h ▸ hc)⟩
  have hformat := output_text htext []
  have hstring := output_string s
  rw [← padding_eq_zero_iff, ← plain_eq_signed_iff]
  constructor
  · intro h
    have heq := h.1
    rw [hformat, hstring] at heq
    have hints := Except.ok.inj heq
    have hlen := congrArg List.length hints
    have hzero : padding s.bytes.length = 0 := by
      simp only [plain, signed, List.length_append, List.length_map, List.length_replicate] at hlen
      omega
    rw [hzero, List.replicate_zero, List.append_nil] at hints
    exact ⟨hints, hzero⟩
  · rintro ⟨hints, hzero⟩
    rw [hzero, List.replicate_zero, List.append_nil, ← hints] at hstring
    refine ⟨hformat.trans hstring.symm, fun δ d m => ?_⟩
    exact ⟨_, _, _, vcprintf_of_output d hformat m, vcprintf_of_output d hstring m, rfl, rfl⟩

theorem same_text_iff_hi : SameText (CStr.ofString "hi") :=
  (same_text_iff (CStr.ofString "hi") (by decide)).2 (by decide)

/-- The code that the keyboard driver stores for the Home key. -/
def homeKey : CStr := ⟨[0xE0], by decide⟩

/-- The Home key in a line reaches `cputchar` as 224 in a format and as -32 as an argument. -/
theorem homeKey_differs : ¬ SameText homeKey := by
  intro h
  have heq := h.1
  rw [output_text (by decide), output_string] at heq
  exact absurd (Except.ok.inj heq) (by decide)

end Jos
