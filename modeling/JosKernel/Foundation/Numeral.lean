import Mathlib.Data.Nat.Digits.Defs

/-!
# Numerals

Positional notation as it is written, the most significant digit first, and Horner's rule,
which reads it.  Unlike `Nat.digits`, the numeral of zero has one digit.

Principal results: `numeral_of_lt`, `numeral_of_le` — the recursion of a digit printer;
`numeral_head` — no leading zero; `horner_numeral` — Horner's rule reads back the number;
`lastDigits_eq` — a numeral with zeros in front.
-/

set_option autoImplicit false

namespace Numeral

/-- The digits of a number, most significant first. -/
def numeral (base n : Nat) : List Nat := if n = 0 then [0] else (Nat.digits base n).reverse

/-- Horner's rule, with `v` read so far. -/
def horner (base : Nat) : Nat → List Nat → Nat
  | v, [] => v
  | v, d :: ds => horner base (v * base + d) ds

variable {base : Nat}

theorem numeral_of_lt {n : Nat} (h : n < base) : numeral base n = [n] := by
  unfold numeral
  split
  · rename_i h0
    rw [h0]
  · rename_i h0
    rw [Nat.digits_of_lt base n h0 h, List.reverse_singleton]

theorem numeral_of_le (hbase : 2 ≤ base) {n : Nat} (h : base ≤ n) :
    numeral base n = numeral base (n / base) ++ [n % base] := by
  have hn : n ≠ 0 := by omega
  have hq : n / base ≠ 0 := Nat.ne_of_gt (Nat.div_pos h (by omega))
  rw [numeral, numeral, if_neg hn, if_neg hq, Nat.digits_eq_cons_digits_div (by omega) hn,
    List.reverse_cons]

theorem numeral_ne_nil (base n : Nat) : numeral base n ≠ [] := by
  unfold numeral
  split
  · exact List.cons_ne_nil 0 []
  · rename_i h
    exact mt List.reverse_eq_nil_iff.mp (Nat.digits_ne_nil_iff_ne_zero.mpr h)

theorem lt_of_mem_numeral (hbase : 2 ≤ base) {n d : Nat} (h : d ∈ numeral base n) : d < base := by
  unfold numeral at h
  split at h
  · rw [List.mem_singleton.mp h]
    omega
  · exact Nat.digits_lt_base (by omega) (List.mem_reverse.mp h)

/-- A numeral of a positive number has no leading zero. -/
theorem numeral_head (hbase : 2 ≤ base) {n : Nat} (hn : 0 < n) :
    ∃ d ds, numeral base n = d :: ds ∧ 0 < d := by
  induction n using Nat.strongRecOn with
  | _ n ih =>
    by_cases h : n < base
    · exact ⟨n, [], numeral_of_lt h, hn⟩
    · obtain ⟨d, ds, heq, hd⟩ := ih (n / base) (Nat.div_lt_self hn hbase)
        (Nat.div_pos (by omega) (by omega))
      exact ⟨d, ds ++ [n % base], by rw [numeral_of_le hbase (by omega), heq]; rfl, hd⟩

theorem horner_append (ds es : List Nat) (v : Nat) :
    horner base v (ds ++ es) = horner base (horner base v ds) es := by
  induction ds generalizing v with
  | nil => rfl
  | cons d ds ih => exact ih _

/-- The digits are the canonical numeral of the number. -/
structure IsNumeral (base n : Nat) (ds : List Nat) : Prop where
  lt : ∀ d ∈ ds, d < base
  value : horner base 0 ds = n
  head : (n = 0 ∧ ds = [0]) ∨ ∃ d rest, ds = d :: rest ∧ 0 < d

/-- **Horner's rule reads a numeral back.** -/
theorem horner_numeral (hbase : 2 ≤ base) (n : Nat) : horner base 0 (numeral base n) = n := by
  induction n using Nat.strongRecOn with
  | _ n ih =>
    by_cases h : n < base
    · rw [numeral_of_lt h, horner, horner]
      omega
    · rw [numeral_of_le hbase (by omega), horner_append,
        ih (n / base) (Nat.div_lt_self (by omega) (by omega)), horner, horner]
      exact Nat.div_add_mod' n base

theorem isNumeral_numeral (hbase : 2 ≤ base) (n : Nat) : IsNumeral base n (numeral base n) where
  lt := fun _ hd => lt_of_mem_numeral hbase hd
  value := horner_numeral hbase n
  head := by
    by_cases h0 : n = 0
    · exact Or.inl ⟨h0, by rw [h0, numeral_of_lt (by omega)]⟩
    · exact Or.inr (numeral_head hbase (Nat.pos_of_ne_zero h0))

/-! ## A fixed number of digits -/

/-- The last `k` digits of a number, most significant first. -/
def lastDigits (base : Nat) : Nat → Nat → List Nat
  | 0, _ => []
  | k + 1, n => lastDigits base k (n / base) ++ [n % base]

/-- Zeros in front of the numeral make up the digits, and there is room for it. -/
theorem lastDigits_eq (hbase : 2 ≤ base) : ∀ (k n : Nat), n < base ^ (k + 1) →
    (numeral base n).length ≤ k + 1 ∧ lastDigits base (k + 1) n =
      List.replicate (k + 1 - (numeral base n).length) 0 ++ numeral base n
  | 0, n, hn => by
    have hlt : n < base := by rwa [Nat.zero_add, Nat.pow_one] at hn
    rw [numeral_of_lt hlt, lastDigits, Nat.mod_eq_of_lt hlt]
    exact ⟨Nat.le_refl 1, rfl⟩
  | k + 1, n, hn => by
    have hdiv : n / base < base ^ (k + 1) :=
      Nat.div_lt_of_lt_mul (by rwa [← Nat.pow_succ'])
    obtain ⟨hlen, hdigits⟩ := lastDigits_eq hbase k _ hdiv
    rw [lastDigits, hdigits]
    by_cases hlt : n < base
    · have hzero : numeral base (n / base) = [0] := by
        rw [Nat.div_eq_of_lt hlt, numeral_of_lt (by omega)]
      rw [hzero, numeral_of_lt hlt, Nat.mod_eq_of_lt hlt]
      refine ⟨Nat.le_add_left 1 _, ?_⟩
      show List.replicate k 0 ++ [0] ++ [n] = List.replicate (k + 1) 0 ++ [n]
      rw [List.replicate_succ']
    · rw [numeral_of_le hbase (by omega), List.length_append, List.length_singleton,
        Nat.add_sub_add_right, List.append_assoc]
      exact ⟨Nat.succ_le_succ hlen, rfl⟩

end Numeral
