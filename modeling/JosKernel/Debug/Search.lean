import JosKernel.Foundation.HalvingExact
import JosKernel.Debug.Kdebug

/-!
# What `stab_binsearch` reports

The contract comment of `stab_binsearch` in `kern/kdebug.c`, against the search: `*region_left`
is the entry that contains the address, `*region_right` is just before the next one, and crossed
bounds mean that no entry contains it.

After an exact match the loop raises `addr` to find the right end, and the last loop moves
`*region_left` down to `*region_right` but never above it.  Principal results:
`binsearch_finds_iff` — the search finds the entry that contains the address unless the raised
address misleads it; `binsearch_crossed_iff` — the bounds are crossed exactly when the range has
no entry of the type at all.
-/

set_option autoImplicit false

namespace Jos

open Halving

/-- The entries of the type in `[L, R]`. -/
def TypeIn (stabs : List Stab) (type : Byte) (L R i : Int) : Prop :=
  HasType stabs type i ∧ L ≤ i ∧ i ≤ R

/-- `*region_left` and `*region_right` bracket the address: the first is the entry with the
    largest value up to it, the second is in front of the next entry, or `R`. -/
structure FindsContaining (stabs : List Stab) (type : Byte) (L R : Int) (addr : Word)
    (left right : Int) : Prop where
  entry : TypeIn stabs type L R left
  below : valueAt stabs left ≤ addr
  largest : ∀ i, TypeIn stabs type L R i → valueAt stabs i ≤ addr →
    valueAt stabs i ≤ valueAt stabs left
  within : left ≤ right
  next : right = R ∨ TypeIn stabs type L R (right + 1)
  between : ∀ i, left < i → i ≤ right → ¬TypeIn stabs type L R i

/-- The raised address misleads the search: an entry has the value `addr`, and this is the
    highest address, or the next entry has the value `addr + 1` and is still in the range when
    the halving comes to the first.  (If `addr + 1` is the highest address and the two are
    neighbours, both errors cancel.) -/
def MisledSearch (stabs : List Stab) (type : Byte) (L R : Int) (addr : Word) : Prop :=
  ∃ b, TypeIn stabs type L R b ∧ Misled (TypeIn stabs type L R) (valueAt stabs) L R addr b

variable {stabs : List Stab} {type : Byte} {L R : Int} {addr : Word}

/-- The last entry up to the address. -/
theorem exists_last_below (hsome : ∃ i, TypeIn stabs type L R i ∧ valueAt stabs i ≤ addr) :
    ∃ b, TypeIn stabs type L R b ∧ valueAt stabs b ≤ addr ∧
      ∀ i, TypeIn stabs type L R i → b < i → addr < valueAt stabs i := by
  obtain ⟨i, hi, hle⟩ := hsome
  rcases isLast_or_none (fun i => TypeIn stabs type L R i ∧ valueAt stabs i ≤ addr) L _ R rfl with
    ⟨b, hb⟩ | hnone
  · refine ⟨b, hb.marked.1, hb.marked.2, fun k hk hlt => ?_⟩
    by_contra hge
    exact hb.last k hlt hk.2.2 ⟨hk, by bv_omega⟩
  · exact absurd ⟨hi, hle⟩ (hnone i hi.2.1 hi.2.2)

/-- The contract in terms of that entry. -/
theorem findsContaining_iff (hinc : Increasing (TypeIn stabs type L R) (valueAt stabs)) {b : Int}
    (hb : TypeIn stabs type L R b) (hle : valueAt stabs b ≤ addr)
    (habove : ∀ i, TypeIn stabs type L R i → b < i → addr < valueAt stabs i) (left right : Int) :
    FindsContaining stabs type L R addr left right ↔
      Brackets (TypeIn stabs type L R) R b left right := by
  constructor
  · intro h
    have hleft : left = b := by
      have hge := hinc.le_of_key_le hb h.entry (h.largest b hb hle)
      by_contra hne
      have hlt := habove left h.entry (by omega)
      have hbelow := h.below
      bv_omega
    have hwithin := h.within
    have hbetween := h.between
    rw [hleft] at hwithin hbetween
    exact ⟨hleft, h.next, hwithin, hbetween⟩
  · rintro ⟨rfl, hlast, hbehind, hnone⟩
    refine ⟨hb, hle, fun i hi hile => ?_, hbehind, hlast, hnone⟩
    by_cases hlt : left < i
    · have := habove i hi hlt
      bv_omega
    · exact hinc.key_le hi hb (by omega)

/-- Any entry that misleads the search is the last one up to the address. -/
theorem misledSearch_iff (hinc : Increasing (TypeIn stabs type L R) (valueAt stabs)) {b : Int}
    (hb : TypeIn stabs type L R b) (hle : valueAt stabs b ≤ addr)
    (habove : ∀ i, TypeIn stabs type L R i → b < i → addr < valueAt stabs i) :
    MisledSearch stabs type L R addr ↔
      Misled (TypeIn stabs type L R) (valueAt stabs) L R addr b := by
  constructor
  · rintro ⟨b', hb', hmisled⟩
    have hkey := hmisled.1
    have heq : b' = b := by
      have hge := hinc.le_of_key_le hb hb' (by rw [hkey]; exact hle)
      by_contra hne
      have := habove b' hb' (by omega)
      rw [hkey] at this
      bv_omega
    rw [← heq]
    exact hmisled
  · intro hmisled
    exact ⟨b, hb, hmisled⟩

/-- A search in which an entry of the type is in the range finds something. -/
theorem found_of_typeIn {f : Range}
    (h : Ends (HasType stabs type) (valueAt stabs) ⟨L, R, L, false, addr⟩ f) {i : Int}
    (hi : TypeIn stabs type L R i) : f.found = true := by
  cases hfound : f.found with
  | true => rfl
  | false => exact absurd hi.1 ((h.not_found hfound).2.2 i hi.2.1 hi.2.2)

/-- **`stab_binsearch` finds the entry that contains the address, unless the raised address
    misleads it.** -/
theorem binsearch_finds_iff (h0 : 0 ≤ L) (hle : L ≤ R) (hR : R < stabs.length)
    (hinc : Increasing (TypeIn stabs type L R) (valueAt stabs))
    (hsome : ∃ i, TypeIn stabs type L R i ∧ valueAt stabs i ≤ addr) :
    (∃ left right, stabBinsearch stabs L R type addr = .ok (left, right) ∧
        FindsContaining stabs type L R addr left right) ↔
      ¬MisledSearch stabs type L R addr := by
  obtain ⟨f, hends, hrun⟩ := @stabBinsearch_spec stabs type L R h0 (by omega) hR addr
  obtain ⟨b, hb, hble, habove⟩ := exists_last_below hsome
  have hfound := found_of_typeIn hends hb
  have hinside := hends.restrict (Int.le_refl L) (Int.le_refl R)
  have hexact := hinside.exact_iff hinc hb hble hb.2.1 hb.2.2 habove
  rw [misledSearch_iff hinc hb hble habove, ← hexact, hrun, bracket_found hfound]
  constructor
  · rintro ⟨left, right, hpair, hfinds⟩
    cases hpair
    exact (findsContaining_iff hinc hb hble habove _ _).1 hfinds
  · intro hbracket
    exact ⟨_, _, rfl, (findsContaining_iff hinc hb hble habove _ _).2 hbracket⟩

/-- Two functions, the first of one byte. -/
def shortFunction : List Stab := [⟨0, N_FUN, 0x10⟩, ⟨0, N_FUN, 0x11⟩]

theorem shortFunction_typeIn {i : Int} : TypeIn shortFunction N_FUN 0 1 i ↔ i = 0 ∨ i = 1 := by
  constructor
  · rintro ⟨-, h0, h1⟩
    omega
  · rintro (rfl | rfl)
    · exact ⟨⟨_, rfl, rfl⟩, by decide⟩
    · exact ⟨⟨_, rfl, rfl⟩, by decide⟩

theorem shortFunction_increasing :
    Increasing (TypeIn shortFunction N_FUN 0 1) (valueAt shortFunction) := by
  intro i j hi hj hij
  rw [shortFunction_typeIn] at hi hj
  obtain ⟨rfl, rfl⟩ : i = 0 ∧ j = 1 := by omega
  decide

/-- An address in the second function is found. -/
theorem binsearch_finds_iff_second :
    ∃ left right, stabBinsearch shortFunction 0 1 N_FUN 0x15 = .ok (left, right) ∧
      FindsContaining shortFunction N_FUN 0 1 0x15 left right :=
  (binsearch_finds_iff (by decide) (by decide) (by decide) shortFunction_increasing
    ⟨1, shortFunction_typeIn.2 (Or.inr rfl), by decide⟩).2 (by
      rintro ⟨b, hb, heq, -⟩
      rw [shortFunction_typeIn] at hb
      rcases hb with rfl | rfl
      · exact absurd heq (by decide)
      · exact absurd heq (by decide))

/-- The address of the one-byte function is reported as in the second. -/
theorem shortFunction_missed :
    Increasing (TypeIn shortFunction N_FUN 0 1) (valueAt shortFunction) ∧
      (∃ i, TypeIn shortFunction N_FUN 0 1 i ∧ valueAt shortFunction i ≤ 0x10) ∧
      ¬∃ left right, stabBinsearch shortFunction 0 1 N_FUN 0x10 = .ok (left, right) ∧
        FindsContaining shortFunction N_FUN 0 1 0x10 left right := by
  refine ⟨shortFunction_increasing, ⟨0, shortFunction_typeIn.2 (Or.inl rfl), by decide⟩, ?_⟩
  rintro ⟨left, right, hrun, hfinds⟩
  have hresult : stabBinsearch shortFunction 0 1 N_FUN 0x10 = .ok (1, 1) := by decide
  rw [hresult] at hrun
  cases hrun
  exact absurd hfinds.below (by decide)

/-- **The bounds are crossed exactly when the range has no entry of the type.** -/
theorem binsearch_crossed_iff (h0 : 0 ≤ L) (hle : L ≤ R) (hR : R < stabs.length) (addr : Word) :
    (∃ left right, stabBinsearch stabs L R type addr = .ok (left, right) ∧ left > right) ↔
      ∀ i, ¬TypeIn stabs type L R i := by
  obtain ⟨f, hends, hrun⟩ := @stabBinsearch_spec stabs type L R h0 (by omega) hR addr
  rw [hrun]
  constructor
  · rintro ⟨left, right, hpair, hcrossed⟩ i hi
    -- the last loop never leaves the left end above the right one
    rw [bracket_found (found_of_typeIn hends hi)] at hpair
    cases hpair
    omega
  · intro hnone
    have hinside := hends.restrict (Int.le_refl L) (Int.le_refl R)
    have hfound : f.found = false := by
      refine @Ends.invariant _ _ (fun u => u.found = false) ?_ _ _ hinside rfl
      intro u u' hu hstep
      cases hstep with
      | skip _ _ => exact hu
      | below _ hm _ => exact absurd hm.marked (hnone _)
      | above _ hm _ => exact absurd hm.marked (hnone _)
      | hit _ hm _ => exact absurd hm.marked (hnone _)
    rw [bracket_not_found hfound]
    exact ⟨L, L - 1, rfl, by omega⟩

/-- A table without functions. -/
theorem binsearch_crossed_iff_none :
    ∃ left right, stabBinsearch [⟨0, N_SO, 0x10⟩] 0 0 N_FUN 5 = .ok (left, right) ∧ left > right :=
  (binsearch_crossed_iff (by decide) (by decide) (by decide) 5).2 (by
    rintro i ⟨⟨s, hs, htype⟩, h0, h1⟩
    obtain rfl : i = 0 := by omega
    cases hs
    exact absurd htype (by decide))

/-- A function that starts behind the address: the bounds meet in front of it. -/
theorem later_function_not_crossed :
    (∀ i, TypeIn [⟨0, N_FUN, 0x10⟩] N_FUN 0 0 i → 5 < valueAt [⟨0, N_FUN, 0x10⟩] i) ∧
      ¬∃ left right, stabBinsearch [⟨0, N_FUN, 0x10⟩] 0 0 N_FUN 5 = .ok (left, right) ∧
        left > right := by
  refine ⟨?_, ?_⟩
  · rintro i ⟨-, h0, h1⟩
    obtain rfl : i = 0 := by omega
    decide
  · rintro ⟨left, right, hrun, hcrossed⟩
    have hresult : stabBinsearch [⟨0, N_FUN, 0x10⟩] 0 0 N_FUN 5 = .ok (-1, -1) := by decide
    rw [hresult] at hrun
    cases hrun
    omega

end Jos
