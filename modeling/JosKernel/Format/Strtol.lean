import JosKernel.Format.Number

/-!
# `strtol`

`lib/string.c`: reading a number back.  A `const char *` into the string is the list of bytes
from it on, without the terminator; behind the last byte it points to the terminator.  `long`
and `int` have 32 bits, and the accumulator wraps.

Principal results: `strtolDigits_numeral` — the digit loop computes Horner's rule modulo
`2^32`; `print_then_parse` — reading what the formatter printed gives the number back.
-/

set_option autoImplicit false

namespace Jos

open Numeral

/-- `*s`. -/
def deref (s : List Byte) : Byte := s.headD 0

/-- `while (*s == ' ' || *s == '\\t') s++`. -/
def gobble : List Byte → List Byte
  | [] => []
  | c :: s => if c = char ' ' ∨ c = char '\t' then gobble s else c :: s

/-- The optional sign: `neg` and the pointer behind it. -/
def strtolSign (s : List Byte) : Bool × List Byte :=
  if deref s = char '+' then (false, s.tail)
  else if deref s = char '-' then (true, s.tail)
  else (false, s)

/-- The base prefix: the base and the pointer behind the prefix. -/
def strtolPrefix (base : Int) (s : List Byte) : Int × List Byte :=
  if (base = 0 ∨ base = 16) ∧ deref s = char '0' ∧ deref s.tail = char 'x' then (16, s.tail.tail)
  else if base = 0 ∧ deref s = char '0' then (8, s.tail)
  else if base = 0 then (10, s)
  else (base, s)

/-- The `dig` of a character, unless the loop breaks. -/
def digitValue (c : Byte) : Option Int :=
  let c := c.toInt
  if c ≥ (char '0').toInt ∧ c ≤ (char '9').toInt then some (c - (char '0').toInt)
  else if c ≥ (char 'a').toInt ∧ c ≤ (char 'z').toInt then some (c - (char 'a').toInt + 10)
  else if c ≥ (char 'A').toInt ∧ c ≤ (char 'Z').toInt then some (c - (char 'A').toInt + 10)
  else none

/-- The digit loop. -/
def strtolDigits (base : Int) : List Byte → Int → Int × List Byte
  | [], val => (val, [])
  | c :: s, val =>
      match digitValue c with
      | none => (val, c :: s)
      | some dig =>
          if dig ≥ base then (val, c :: s) else strtolDigits base s (int32 (val * base + dig))

/-- `strtol`: the value and `*endptr`. -/
def strtol (s : CStr) (base : Int) : Int × List Byte :=
  let s := gobble s.bytes
  let (neg, s) := strtolSign s
  let (base, s) := strtolPrefix base s
  let (val, s) := strtolDigits base s 0
  (if neg then int32 (-val) else val, s)

/-! ## Digits -/

/-- The digits of base 36. -/
def alphabet : List Byte := "0123456789abcdefghijklmnopqrstuvwxyz".toList.map char

/-- The value of a digit, small or capital; 36 for every other character. -/
def digitOf (c : Byte) : Nat :=
  alphabet.idxOf (if (char 'A').toNat ≤ c.toNat ∧ c.toNat ≤ (char 'Z').toNat then c + 32 else c)

/-- A stored character of the formatter. -/
def store (c : Int) : Byte := BitVec.ofInt 8 c

theorem digit_spec : ∀ d < 16, ((store (digit d)).toNat : Int) = digit d ∧ store (digit d) ≠ 0 := by
  decide

theorem digit_plain : ∀ d < 16, store (digit d) ≠ char ' ' ∧ store (digit d) ≠ char '\t' ∧
    store (digit d) ≠ char '+' ∧ store (digit d) ≠ char '-' ∧ store (digit d) ≠ char 'x' := by
  decide

theorem digitOf_spec : ∀ c : Byte,
    digitValue c = if digitOf c < 36 then some (digitOf c : Int) else none := by decide +kernel

theorem digitOf_nul : digitOf 0 = 36 := by decide

theorem digitOf_digit : ∀ d < 16, digitOf (store (digit d)) = d := by decide +kernel

/-- A wrap of the accumulator can be dropped. -/
theorem int32_mul_add (v b d : Int) : int32 (int32 v * b + d) = int32 (v * b + d) := by
  apply int32_congr
  have hv : int32 v * b % 4294967296 = v * b % 4294967296 := by
    rw [Int.mul_emod, int32_emod, ← Int.mul_emod]
  omega

/-- **The digit loop is Horner's rule modulo `2^32`** on a run of digits, and stops behind it. -/
theorem strtolDigits_run {base : Nat} (hbase : base ≤ 36) {rest : List Byte}
    (hmax : ¬digitOf (deref rest) < base) :
    ∀ (run : List Byte) (v : Nat), (∀ c ∈ run, digitOf c < base) →
      strtolDigits base (run ++ rest) (int32 v) = (int32 (horner base v (run.map digitOf)), rest)
  | [], v, _ => by
    cases rest with
    | nil => rfl
    | cons c rest =>
      have hmax : ¬digitOf c < base := hmax
      rw [List.nil_append, strtolDigits, digitOf_spec]
      by_cases h36 : digitOf c < 36
      · rw [if_pos h36]
        exact if_pos (by omega)
      · rw [if_neg h36]
        rfl
  | c :: run, v, h => by
    obtain ⟨hc, hrun⟩ := List.forall_mem_cons.mp h
    rw [List.cons_append, strtolDigits, digitOf_spec, if_pos (by omega)]
    simp only [if_neg (show ¬(digitOf c : Int) ≥ base by omega)]
    rw [int32_mul_add]
    exact_mod_cast strtolDigits_run hbase hmax run (v * base + digitOf c) hrun

/-- The digits of a numeral are a run. -/
theorem strtolDigits_numeral {base : Nat} (hbase : base ≤ 16) (ds : List Nat) (v : Nat)
    (h : ∀ d ∈ ds, d < base) :
    strtolDigits base (ds.map fun d => store (digit d)) (int32 v) =
      (int32 (horner base v ds), []) := by
  have hdigit : ∀ d ∈ ds, digitOf (store (digit d)) = d := fun d hd =>
    digitOf_digit d (Nat.lt_of_lt_of_le (h d hd) hbase)
  have hmax : ¬digitOf (deref []) < base := by
    rw [show deref [] = 0 from rfl, digitOf_nul]
    omega
  have hvalues : (ds.map fun d => store (digit d)).map digitOf = ds := by
    rw [List.map_map]
    exact (List.map_congr_left hdigit).trans (List.map_id ds)
  have hrun := strtolDigits_run (show base ≤ 36 by omega) hmax
    (ds.map fun d => store (digit d)) v fun c hc => by
      obtain ⟨d, hd, rfl⟩ := List.mem_map.mp hc
      rw [hdigit d hd]
      exact h d hd
  rwa [List.append_nil, hvalues] at hrun

/-! ## The texts of the formatter -/

/-- The bytes of a numeral. -/
def numeralBytes (base num : Nat) : List Byte := (numeral base num).map fun d => store (digit d)

/-- The first byte of a numeral is a digit, and the second is not an `x`. -/
theorem numeralBytes_head {base num : Nat} (h2 : 2 ≤ base) (h16 : base ≤ 16) :
    ∃ d ds, numeralBytes base num = store (digit d) :: ds ∧ d < 16 ∧ deref ds ≠ char 'x' := by
  have hlt : ∀ d ∈ numeral base num, d < 16 := fun d hd =>
    Nat.lt_of_lt_of_le (lt_of_mem_numeral h2 hd) h16
  unfold numeralBytes
  cases hn : numeral base num with
  | nil => exact absurd hn (numeral_ne_nil base num)
  | cons d ds =>
    rw [hn] at hlt
    obtain ⟨hd, hds⟩ := List.forall_mem_cons.mp hlt
    refine ⟨d, ds.map fun d => store (digit d), rfl, hd, ?_⟩
    cases ds with
    | nil => decide
    | cons e ds => exact (digit_plain e (hds e List.mem_cons_self)).2.2.2.2

theorem plain_numeralBytes {base num : Nat} (h2 : 2 ≤ base) (h16 : base ≤ 16) :
    plain (numeralBytes base num) = digits base num := by
  unfold plain numeralBytes digits
  rw [List.map_map]
  apply List.map_congr_left
  intro d hd
  exact (digit_spec d (Nat.lt_of_lt_of_le (lt_of_mem_numeral h2 hd) h16)).1

theorem numeralBytes_nul_free {base num : Nat} (h2 : 2 ≤ base) (h16 : base ≤ 16) :
    (0 : Byte) ∉ numeralBytes base num := by
  intro h
  obtain ⟨d, hd, h0⟩ := List.mem_map.mp h
  exact (digit_spec d (Nat.lt_of_lt_of_le (lt_of_mem_numeral h2 hd) h16)).2 h0

theorem strtolDigits_numeralBytes {base : Nat} (h2 : 2 ≤ base) (h16 : base ≤ 16) (num : Nat) :
    strtolDigits base (numeralBytes base num) 0 = (int32 num, []) := by
  have h := strtolDigits_numeral h16 (numeral base num) 0 fun d hd => lt_of_mem_numeral h2 hd
  rw [horner_numeral h2] at h
  exact h

/-- A numeral starts with neither a blank nor a sign. -/
theorem strtol_start {base num : Nat} (h2 : 2 ≤ base) (h16 : base ≤ 16) :
    gobble (numeralBytes base num) = numeralBytes base num ∧
      strtolSign (numeralBytes base num) = (false, numeralBytes base num) := by
  obtain ⟨d, ds, heq, hd, _⟩ := @numeralBytes_head base num h2 h16
  obtain ⟨hblank, htab, hplus, hminus, _⟩ := digit_plain d hd
  rw [heq]
  constructor
  · exact if_neg (not_or.mpr ⟨hblank, htab⟩)
  · exact (if_neg hplus).trans (if_neg hminus)

/-- A numeral has no prefix. -/
theorem strtolPrefix_numeralBytes {base num : Nat} (h2 : 2 ≤ base) (h16 : base ≤ 16) :
    strtolPrefix base (numeralBytes base num) = ((base : Int), numeralBytes base num) := by
  obtain ⟨d, ds, heq, _, hx⟩ := @numeralBytes_head base num h2 h16
  have h0 : (base : Int) ≠ 0 := by omega
  rw [heq]
  unfold strtolPrefix
  rw [if_neg fun h => hx h.2.2, if_neg fun h => h0 h.1, if_neg h0]

/-- Reading an unsigned numeral. -/
theorem strtol_numeral {base num : Nat} (h2 : 2 ≤ base) (h16 : base ≤ 16) {s : CStr}
    (hs : s.bytes = numeralBytes base num) : strtol s base = (int32 num, []) := by
  unfold strtol
  simp only [hs, (strtol_start h2 h16).1, (strtol_start h2 h16).2,
    strtolPrefix_numeralBytes h2 h16, strtolDigits_numeralBytes h2 h16]
  rw [if_neg Bool.false_ne_true]

/-- Reading a numeral behind a minus sign. -/
theorem strtol_minus {base num : Nat} (h2 : 2 ≤ base) (h16 : base ≤ 16) {s : CStr}
    (hs : s.bytes = char '-' :: numeralBytes base num) :
    strtol s base = (int32 (-int32 num), []) := by
  have hgobble : gobble (char '-' :: numeralBytes base num) = char '-' :: numeralBytes base num :=
    if_neg (by decide)
  have hsign : strtolSign (char '-' :: numeralBytes base num) = (true, numeralBytes base num) :=
    (if_neg (show char '-' ≠ char '+' by decide)).trans (if_pos rfl)
  unfold strtol
  simp only [hs, hgobble, hsign, strtolPrefix_numeralBytes h2 h16,
    strtolDigits_numeralBytes h2 h16]
  rw [if_pos trivial]

/-- Reading a hexadecimal numeral with its prefix, in base 16 or in base 0. -/
theorem strtol_prefixed {num : Nat} {base : Int} (hbase : base = 0 ∨ base = 16) {s : CStr}
    (hs : s.bytes = char '0' :: char 'x' :: numeralBytes 16 num) :
    strtol s base = (int32 num, []) := by
  have hgobble : gobble (char '0' :: char 'x' :: numeralBytes 16 num) =
      char '0' :: char 'x' :: numeralBytes 16 num := if_neg (by decide)
  have hsign : strtolSign (char '0' :: char 'x' :: numeralBytes 16 num) =
      (false, char '0' :: char 'x' :: numeralBytes 16 num) :=
    (if_neg (show char '0' ≠ char '+' by decide)).trans
      (if_neg (show char '0' ≠ char '-' by decide))
  have hprefix : strtolPrefix base (char '0' :: char 'x' :: numeralBytes 16 num) =
      (((16 : Nat) : Int), numeralBytes 16 num) := if_pos ⟨hbase, rfl, rfl⟩
  have hdigits : strtolDigits ((16 : Nat) : Int) (numeralBytes 16 num) 0 = (int32 num, []) :=
    strtolDigits_numeralBytes (by decide) (by decide) num
  unfold strtol
  simp only [hs, hgobble, hsign, hprefix, hdigits]
  rw [if_neg Bool.false_ne_true]

/-! ## Printing and reading -/

/-- In this base, the text reads as a number congruent to `u`, up to its terminator. -/
def ReadsAs (text : CStr) (base : Int) (u : Word) : Prop :=
  ∃ r, strtol text base = (r, []) ∧ r % 4294967296 = u.toNat

theorem readsAs_int32 {text : CStr} {base : Int} {u : Word}
    (h : strtol text base = (int32 u.toNat, [])) : ReadsAs text base u := by
  refine ⟨_, h, ?_⟩
  have := u.isLt
  rw [int32_emod]
  omega

theorem print_dec (v : Word) :
    ∃ text : CStr, output (CStr.ofString "%d") [.word v] = .ok (plain text.bytes) ∧
      strtol text 10 = (v.toInt, []) := by
  have hnul := @numeralBytes_nul_free 10 v.toInt.natAbs (by decide) (by decide)
  have hplain := @plain_numeralBytes 10 v.toInt.natAbs (by decide) (by decide)
  have hlt := v.toInt_lt
  have hge := v.le_toInt
  rw [output_dec, decText]
  by_cases hneg : v.toInt < 0
  · refine ⟨⟨char '-' :: numeralBytes 10 v.toInt.natAbs, ?_⟩, ?_, ?_⟩
    · exact fun h => hnul (List.mem_of_ne_of_mem (by decide) h)
    · rw [if_pos hneg, ← hplain]
      rfl
    · have hval : int32 (-int32 v.toInt.natAbs) = v.toInt := by
        unfold int32
        omega
      exact (strtol_minus (by decide) (by decide) rfl).trans (by rw [hval])
  · refine ⟨⟨numeralBytes 10 v.toInt.natAbs, hnul⟩, ?_, ?_⟩
    · rw [if_neg hneg, ← hplain]
      rfl
    · have hval : int32 v.toInt.natAbs = v.toInt := by
        unfold int32
        omega
      exact (strtol_numeral (by decide) (by decide) rfl).trans (by rw [hval])

theorem print_ptr (v : Word) :
    ∃ text : CStr, output (CStr.ofString "%p") [.word v] = .ok (plain text.bytes) ∧
      ReadsAs text 16 v ∧ ReadsAs text 0 v := by
  have hnul := @numeralBytes_nul_free 16 v.toNat (by decide) (by decide)
  refine ⟨⟨char '0' :: char 'x' :: numeralBytes 16 v.toNat, ?_⟩, ?_, ?_, ?_⟩
  · exact fun h => hnul (List.mem_of_ne_of_mem (by decide) (List.mem_of_ne_of_mem (by decide) h))
  · rw [output_ptr, ptrText, ← plain_numeralBytes (by decide) (by decide)]
    rfl
  · exact readsAs_int32 (strtol_prefixed (Or.inr rfl) rfl)
  · exact readsAs_int32 (strtol_prefixed (Or.inl rfl) rfl)

/-- **Printing a number and reading it back is the identity.** -/
theorem print_then_parse (v : Word) :
    (∃ text : CStr, output (CStr.ofString "%d") [.word v] = .ok (plain text.bytes) ∧
      strtol text 10 = (v.toInt, [])) ∧
    (∃ text : CStr, output (CStr.ofString "%u") [.word v] = .ok (plain text.bytes) ∧
      ReadsAs text 10 v) ∧
    (∃ text : CStr, output (CStr.ofString "%x") [.word v] = .ok (plain text.bytes) ∧
      ReadsAs text 16 v) ∧
    (∃ text : CStr, output (CStr.ofString "%p") [.word v] = .ok (plain text.bytes) ∧
      ReadsAs text 16 v ∧ ReadsAs text 0 v) := by
  have hnumeral : ∀ {base : Nat} (h2 : 2 ≤ base) (h16 : base ≤ 16),
      ∃ text : CStr, digits base v.toNat = plain text.bytes ∧ ReadsAs text base v := by
    intro base h2 h16
    exact ⟨⟨numeralBytes base v.toNat, numeralBytes_nul_free h2 h16⟩,
      (plain_numeralBytes h2 h16).symm, readsAs_int32 (strtol_numeral h2 h16 rfl)⟩
  refine ⟨print_dec v, ?_, ?_, print_ptr v⟩
  · rw [output_uns]
    obtain ⟨text, htext, hread⟩ := @hnumeral 10 (by decide) (by decide)
    exact ⟨text, congrArg _ htext, hread⟩
  · rw [output_hex]
    obtain ⟨text, htext, hread⟩ := @hnumeral 16 (by decide) (by decide)
    exact ⟨text, congrArg _ htext, hread⟩

end Jos
