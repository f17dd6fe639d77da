import JosKernel.Lib.CString

/-!
# The order of the comparisons

`strcmp`, `strncmp` and `memcmp` of `lib/string.c` stop for different reasons: at a terminator,
after a count, at the first difference.  All three return the difference of two bytes as
`unsigned char`; whether two bytes are equal does not depend on their sign.

* `strncmp_cells` — `strncmp` is `strcmp` on the strings cut to the count.
* `memcmp_eq_strncmp` — `memcmp` is `strncmp` as long as no terminator comes before the last byte.
* `strcmp_cells`, `difference_neg_iff` — `strcmp` returns the first difference of two strings,
  whose sign is the lexicographic order of the unsigned bytes.
* `comparisons_agree` — the three routines and their order.
-/

set_option autoImplicit false

namespace Jos

/-- `strncmp` on the bytes from each pointer on. -/
def strncmp : Nat → List Byte → List Byte → Except Fault Int
  | 0, _, _ => .ok 0
  | n + 1, p :: ps, q :: qs =>
      if p ≠ 0 ∧ p = q then strncmp n ps qs else .ok ((p.toNat : Int) - q.toNat)
  | _ + 1, _, _ => .error .outside

/-- `memcmp` on the bytes from each pointer on. -/
def memcmp : Nat → List Byte → List Byte → Except Fault Int
  | 0, _, _ => .ok 0
  | n + 1, p :: ps, q :: qs =>
      if p ≠ q then .ok ((p.toNat : Int) - q.toNat) else memcmp n ps qs
  | _ + 1, _, _ => .error .outside

/-! ## What the routines have in common -/

/-- **The count cuts both strings.** -/
theorem strncmp_cells : ∀ (n : Nat) (s t : List Byte),
    strncmp n (s ++ [0]) (t ++ [0]) = strcmp (s.take n ++ [0]) (t.take n ++ [0])
  | 0, _, _ => rfl
  | n + 1, [], [] => rfl
  | n + 1, [], q :: t => by
    have hstop : ¬((0 : Byte) ≠ 0 ∧ 0 = q) := fun h => h.1 rfl
    exact (if_neg hstop).trans (if_neg hstop).symm
  | n + 1, p :: s, [] => by
    have hstop : ¬(p ≠ 0 ∧ p = 0) := fun h => h.1 h.2
    exact (if_neg hstop).trans (if_neg hstop).symm
  | n + 1, p :: s, q :: t => by
    -- both loops stop at this byte, or both go on
    rw [List.take_succ_cons, List.take_succ_cons, List.cons_append, List.cons_append,
      List.cons_append, List.cons_append, strncmp, strcmp, strncmp_cells n s t]

/-- **`memcmp` and `strncmp`** differ behind a terminator only. -/
theorem memcmp_eq_strncmp : ∀ (n : Nat) (ps qs : List Byte), (0 : Byte) ∉ ps.take (n - 1) →
    memcmp n ps qs = strncmp n ps qs
  | 0, _, _, _ => rfl
  | _ + 1, [], _, _ => rfl
  | _ + 1, _ :: _, [], _ => rfl
  | n + 1, p :: ps, q :: qs, h => by
    rw [memcmp, strncmp]
    by_cases heq : p = q
    · rw [if_neg (fun hne => hne heq)]
      cases n with
      | zero =>
        -- nothing is left behind the last byte
        rw [heq, Int.sub_self]
        exact (ite_self _).symm
      | succ n =>
        rw [Nat.add_sub_cancel, List.take_succ_cons] at h
        rw [if_pos ⟨ne_zero_of_nul_free h, heq⟩]
        exact memcmp_eq_strncmp (n + 1) ps qs (nul_free_tail h)
    · rw [if_pos heq, if_neg (fun hand => heq hand.2)]

/-! ## The first difference -/

/-- The first difference of two strings, where the shorter one goes on with its terminator. -/
def difference : List Byte → List Byte → Int
  | [], [] => 0
  | [], q :: _ => -q.toNat
  | p :: _, [] => p.toNat
  | p :: ps, q :: qs => if p = q then difference ps qs else (p.toNat : Int) - q.toNat

theorem strcmp_cells : ∀ {s t : List Byte}, (0 : Byte) ∉ s → (0 : Byte) ∉ t →
    strcmp (s ++ [0]) (t ++ [0]) = .ok (difference s t)
  | [], [], _, _ => rfl
  | [], q :: t, _, _ => by
    have hvalue : ((0 : Byte).toNat : Int) - q.toNat = -q.toNat := Int.zero_sub _
    rw [List.nil_append, List.cons_append, strcmp, if_neg (fun h => h.1 rfl), difference, hvalue]
  | p :: s, [], hs, _ => by
    have hvalue : (p.toNat : Int) - (0 : Byte).toNat = p.toNat := Int.sub_zero _
    rw [List.nil_append, List.cons_append, strcmp, if_neg (fun h => h.1 h.2), difference, hvalue]
  | p :: s, q :: t, hs, ht => by
    rw [List.cons_append, List.cons_append, strcmp, difference]
    by_cases heq : p = q
    · rw [if_pos ⟨ne_zero_of_nul_free hs, heq⟩, if_pos heq]
      exact strcmp_cells (nul_free_tail hs) (nul_free_tail ht)
    · rw [if_neg (fun h => heq h.2), if_neg heq]

theorem difference_swap : ∀ s t : List Byte, difference t s = -difference s t
  | [], [] => rfl
  | [], q :: t => (Int.neg_neg _).symm
  | p :: s, [] => rfl
  | p :: s, q :: t => by
    rw [difference, difference]
    by_cases heq : p = q
    · rw [if_pos heq, if_pos heq.symm]
      exact difference_swap s t
    · rw [if_neg heq, if_neg (Ne.symm heq), Int.neg_sub]

theorem difference_eq_zero : ∀ {s t : List Byte}, (0 : Byte) ∉ s → (0 : Byte) ∉ t →
    (difference s t = 0 ↔ s = t)
  | [], [], _, _ => ⟨fun _ => rfl, fun _ => rfl⟩
  | [], q :: t, _, ht => by
    have hq := ne_zero_of_nul_free ht
    rw [difference]
    exact iff_of_false (by bv_omega) (List.cons_ne_nil q t).symm
  | p :: s, [], hs, _ => by
    have hp := ne_zero_of_nul_free hs
    rw [difference]
    exact iff_of_false (by bv_omega) (List.cons_ne_nil p s)
  | p :: s, q :: t, hs, ht => by
    rw [difference, List.cons.injEq]
    by_cases heq : p = q
    · rw [if_pos heq, difference_eq_zero (nul_free_tail hs) (nul_free_tail ht),
        and_iff_right heq]
    · rw [if_neg heq]
      exact iff_of_false (by bv_omega) fun h => heq h.1

/-! ## The order -/

/-- The bytes as `unsigned char`s. -/
def CStr.unsigned (s : CStr) : List Nat := s.bytes.map BitVec.toNat

/-- The lexicographic order of the strings as sequences of unsigned bytes. -/
def CStr.Below (s t : CStr) : Prop := List.Lex (· < ·) s.unsigned t.unsigned

theorem difference_neg_iff : ∀ (s : List Byte) {t : List Byte}, (0 : Byte) ∉ t →
    (difference s t < 0 ↔ List.Lex (· < ·) (s.map BitVec.toNat) (t.map BitVec.toNat))
  | [], [], _ => iff_of_false (Int.lt_irrefl 0) nofun
  | [], q :: t, ht => by
    have hq := ne_zero_of_nul_free ht
    rw [difference]
    exact iff_of_true (by bv_omega) List.Lex.nil
  | p :: s, [], _ => by
    rw [difference]
    exact iff_of_false (by omega) nofun
  | p :: s, q :: t, ht => by
    rw [difference, List.map_cons, List.map_cons, List.cons_lex_cons_iff]
    by_cases heq : p = q
    · rw [if_pos heq, difference_neg_iff s (nul_free_tail ht), heq]
      simp
    · have hne : p.toNat ≠ q.toNat := fun h => heq (BitVec.eq_of_toNat_eq h)
      rw [if_neg heq]
      simp only [hne, false_and, or_false]
      omega

theorem CStr.Below.trans {p q r : CStr} (h : p.Below q) (h' : q.Below r) : p.Below r :=
  List.lex_trans Nat.lt_trans h h'

theorem CStr.eq_iff {p q : CStr} : p = q ↔ p.bytes = q.bytes := by
  constructor
  · intro h
    rw [h]
  · intro h
    cases p
    cases q
    cases h
    rfl

theorem CStr.difference_neg {p q : CStr} : difference p.bytes q.bytes < 0 ↔ p.Below q :=
  difference_neg_iff p.bytes q.nul_free

theorem CStr.difference_zero {p q : CStr} : difference p.bytes q.bytes = 0 ↔ p = q :=
  (difference_eq_zero p.nul_free q.nul_free).trans CStr.eq_iff.symm

/-- The order with equality is transitive. -/
theorem CStr.difference_trans {p q r : CStr} (h : difference p.bytes q.bytes ≤ 0)
    (h' : difference q.bytes r.bytes ≤ 0) : difference p.bytes r.bytes ≤ 0 := by
  rcases Int.lt_or_eq_of_le h with hlt | heq
  · rcases Int.lt_or_eq_of_le h' with hlt' | heq'
    · have htrans := (CStr.difference_neg.1 hlt).trans (CStr.difference_neg.1 hlt')
      exact Int.le_of_lt (CStr.difference_neg.2 htrans)
    · rwa [← CStr.difference_zero.1 heq']
  · rwa [CStr.difference_zero.1 heq]

/-- **The comparisons implement one total order**: the sign of `strcmp` is the lexicographic
    order of the unsigned bytes, `strncmp` returns what `strcmp` does on the strings cut to `n`
    bytes, and so does `memcmp` up to the terminator of the shorter string. -/
theorem comparisons_agree (p q r : CStr) (n : Nat) :
    ∃ pq qp qr pr cut : Int,
      strcmp p.cells q.cells = .ok pq ∧ strcmp q.cells p.cells = .ok qp ∧
      strcmp q.cells r.cells = .ok qr ∧ strcmp p.cells r.cells = .ok pr ∧
      (pq < 0 ↔ p.Below q) ∧ (0 < pq ↔ q.Below p) ∧ (pq = 0 ↔ p = q) ∧
      qp = -pq ∧ (pq ≤ 0 → qr ≤ 0 → pr ≤ 0) ∧
      strcmp (p.cut n).cells (q.cut n).cells = .ok cut ∧ strncmp n p.cells q.cells = .ok cut ∧
      (n ≤ min p.bytes.length q.bytes.length + 1 → memcmp n p.cells q.cells = .ok cut) := by
  have hswap := difference_swap p.bytes q.bytes
  have hcut : strcmp (p.cut n).cells (q.cut n).cells = _ :=
    strcmp_cells (p.cut n).nul_free (q.cut n).nul_free
  have hcount : strncmp n p.cells q.cells = _ := (strncmp_cells n p.bytes q.bytes).trans hcut
  refine ⟨_, _, _, _, _, strcmp_cells p.nul_free q.nul_free, strcmp_cells q.nul_free p.nul_free,
    strcmp_cells q.nul_free r.nul_free, strcmp_cells p.nul_free r.nul_free, CStr.difference_neg,
    ?_, CStr.difference_zero, hswap, CStr.difference_trans, hcut, hcount, fun hn => ?_⟩
  · rw [← CStr.difference_neg, hswap]
    omega
  · -- in front of byte `n - 1` of `p` there is no terminator
    have hfree : (0 : Byte) ∉ p.cells.take (n - 1) := by
      rw [CStr.cells, List.take_append_of_le_length (by omega)]
      exact fun h => p.nul_free (List.mem_of_mem_take h)
    rw [memcmp_eq_strncmp n p.cells q.cells hfree, hcount]

/-- A string and a longer one that goes on with a byte above 127, up to its terminator. -/
theorem comparisons_agree_shorter :
    ∃ v, strncmp 3 [0x61#8, 0x62#8, 0#8] [0x61#8, 0x62#8, 0x80#8, 0#8] = .ok v ∧
      memcmp 3 [0x61#8, 0x62#8, 0#8] [0x61#8, 0x62#8, 0x80#8, 0#8] = .ok v := by
  obtain ⟨-, -, -, -, v, -, -, -, -, -, -, -, -, -, -, hcount, hblock⟩ :=
    comparisons_agree ⟨[0x61#8, 0x62#8], by decide⟩ ⟨[0x61#8, 0x62#8, 0x80#8], by decide⟩
      ⟨[], by decide⟩ 3
  exact ⟨v, hcount, hblock (by decide)⟩

end Jos
