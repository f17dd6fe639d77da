import JosKernel.Format.CStr

/-!
# Searching and comparing strings

`strchr` and `strcmp` of `lib/string.c`, and the strings inside a block of bytes.

* `strchr_isSome` — `strchr` tells whether the character is in the string.
* `strcmp_eq_zero` — `strcmp` returns 0 exactly for equal strings.
* `cstrAt_of_token` — a terminated run is the string at its position.
-/

set_option autoImplicit false

namespace Jos

/-- The loop of `strchr`, `i` bytes into the string. -/
def strchrLoop : List Byte → Byte → Nat → Option Nat
  | [], _, _ => none
  | b :: s, c, i => if b = c then some i else strchrLoop s c (i + 1)

/-- `strchr`: the offset of the first `c`, `none` for the null pointer. -/
def strchr (s : CStr) (c : Byte) : Option Nat := strchrLoop s.bytes c 0

/-- `strcmp` on the bytes from each pointer on; they are compared as `unsigned char`. -/
def strcmp : List Byte → List Byte → Except Fault Int
  | p :: ps, q :: qs =>
      if p ≠ 0 ∧ p = q then strcmp ps qs else .ok ((p.toNat : Int) - q.toNat)
  | _, _ => .error .outside

/-- The bytes of a string with its terminator. -/
def CStr.cells (s : CStr) : List Byte := s.bytes ++ [0]

/-- The first `n` bytes as a string. -/
def CStr.cut (s : CStr) (n : Nat) : CStr :=
  ⟨s.bytes.take n, fun h => s.nul_free (List.mem_of_mem_take h)⟩

theorem ne_zero_of_nul_free {b : Byte} {s : List Byte} (h : (0 : Byte) ∉ b :: s) : b ≠ 0 :=
  fun hb => h (hb ▸ List.mem_cons_self)

theorem nul_free_tail {b : Byte} {s : List Byte} (h : (0 : Byte) ∉ b :: s) : (0 : Byte) ∉ s :=
  fun hs => h (List.mem_cons_of_mem b hs)

theorem nul_free_takeWhile (s : List Byte) : (0 : Byte) ∉ s.takeWhile (· != 0) := fun h => by
  simpa using List.all_eq_true.mp List.all_takeWhile 0 h

/-- The string at a position of a block; without a terminator it would run out of the block. -/
def cstrAt (block : List Byte) (p : Nat) : Except Fault CStr :=
  if (block.drop p).contains 0 then
    .ok ⟨(block.drop p).takeWhile (· != 0), nul_free_takeWhile (block.drop p)⟩
  else .error .outside

theorem strchrLoop_isSome : ∀ (s : List Byte) (c : Byte) (i : Nat),
    (strchrLoop s c i).isSome = true ↔ c ∈ s
  | [], _, _ => by simp [strchrLoop]
  | b :: s, c, i => by
    rw [strchrLoop, List.mem_cons]
    by_cases hb : b = c
    · rw [if_pos hb]
      exact ⟨fun _ => Or.inl hb.symm, fun _ => rfl⟩
    · rw [if_neg hb, strchrLoop_isSome s c (i + 1)]
      exact ⟨Or.inr, fun h => h.resolve_left (Ne.symm hb)⟩

theorem strchr_isSome (s : CStr) (c : Byte) : (strchr s c).isSome = true ↔ c ∈ s.bytes :=
  strchrLoop_isSome s.bytes c 0

/-- Where the loop of `strcmp` stops, it returns the difference of the two bytes. -/
theorem strcmp_stop {p q : Byte} (h : ¬(p ≠ 0 ∧ p = q)) (ps qs : List Byte) :
    ∃ v, strcmp (p :: ps) (q :: qs) = .ok v ∧ (v = 0 ↔ p = q) := by
  refine ⟨_, if_neg h, ?_⟩
  constructor
  · intro hv
    exact BitVec.eq_of_toNat_eq (by omega)
  · intro heq
    rw [heq, Int.sub_self]

/-- Both strings are read up to the terminator at the furthest. -/
theorem strcmp_eq_zero : ∀ {s t : List Byte} (r : List Byte), (0 : Byte) ∉ s → (0 : Byte) ∉ t →
    ∃ v, strcmp (s ++ 0 :: r) (t ++ [0]) = .ok v ∧ (v = 0 ↔ s = t)
  | [], [], r, _, _ => ⟨0, rfl, by simp⟩
  | [], c :: t, r, _, ht => by
    have hc := ne_zero_of_nul_free ht
    obtain ⟨v, hv, hiff⟩ := strcmp_stop (fun h => h.1 rfl : ¬((0 : Byte) ≠ 0 ∧ 0 = c)) r (t ++ [0])
    exact ⟨v, hv, iff_of_false (fun h => hc (hiff.1 h).symm) (List.cons_ne_nil c t).symm⟩
  | b :: s, [], r, hs, _ => by
    have hb := ne_zero_of_nul_free hs
    obtain ⟨v, hv, hiff⟩ := strcmp_stop (fun h => hb h.2 : ¬(b ≠ 0 ∧ b = 0)) (s ++ 0 :: r) []
    exact ⟨v, hv, iff_of_false (fun h => hb (hiff.1 h)) (List.cons_ne_nil b s)⟩
  | b :: s, c :: t, r, hs, ht => by
    have hb := ne_zero_of_nul_free hs
    by_cases heq : b = c
    · obtain ⟨v, hv, hiff⟩ := strcmp_eq_zero r (nul_free_tail hs) (nul_free_tail ht)
      refine ⟨v, ?_, ?_⟩
      · rw [List.cons_append, List.cons_append, strcmp, if_pos ⟨hb, heq⟩]
        exact hv
      · rw [hiff, heq, List.cons.injEq, and_iff_right rfl]
    · obtain ⟨v, hv, hiff⟩ := strcmp_stop (fun h => heq h.2 : ¬(b ≠ 0 ∧ b = c)) (s ++ 0 :: r)
        (t ++ [0])
      exact ⟨v, hv, iff_of_false (fun h => heq (hiff.1 h)) fun h => heq (List.cons.inj h).1⟩

/-- A run of nonzero bytes with a terminator behind it. -/
theorem cstrAt_of_token {block w : List Byte} {p : Nat} (h : w ++ [0] <+: block.drop p)
    (hw : (0 : Byte) ∉ w) : cstrAt block p = .ok ⟨w, hw⟩ := by
  obtain ⟨r, hr⟩ := h
  have hmem : (block.drop p).contains 0 = true := by
    rw [← hr]
    simp
  have htake : (block.drop p).takeWhile (· != 0) = w := by
    have hall : ∀ c ∈ w, (c != 0) = true := fun c hc => by
      rw [bne_iff_ne]
      exact fun h0 => hw (h0 ▸ hc)
    rw [← hr, List.append_assoc, List.takeWhile_append_of_pos hall]
    simp
  rw [cstrAt, if_pos hmem]
  simp only [htake]

end Jos
