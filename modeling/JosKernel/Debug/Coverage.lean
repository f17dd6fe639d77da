import JosKernel.Debug.Kdebug

/-!
# Which addresses `debuginfo_eip` covers

The file search starts at entry 0.  If entry 0 is an `N_SO`, the left end 0 means that it was
found, and the right end can fall in front of the table; `debuginfo_eip` tells neither from the
other cases.

Principal results: `debuginfoEip_outside`, `debuginfoEip_inside` — when the function leaves the
table; `FileSearch.of_passed`, `FileSearch.of_not_passed` — when it succeeds on a sorted table;
`coverage_iff` — the exact condition for both to be right.
-/

set_option autoImplicit false

namespace Jos

open Halving

section

variable (stabs : List Stab) (addr : Word)

/-- Entry `i` is an `N_SO`. -/
def IsSO (i : Int) : Prop := HasType stabs N_SO i

/-- Halving the table for `addr` meets entry 0, an `N_SO`, with right end `r'`: every `N_SO`
    that it meets before lies above `addr`. -/
def MeetsFirst (r' : Int) : Prop :=
  Meets (IsSO stabs) (valueAt stabs) 0 addr (stabs.length - 1) r'

/-- The halving meets entry 0 and finds it above `addr`, or hits it with the highest address. -/
def FirstAbove : Prop :=
  (∃ r', MeetsFirst stabs addr r') ∧
    (addr < valueAt stabs 0 ∨ (valueAt stabs 0 = addr ∧ addr = top))

/-- The halving passes the `N_SO` at `j` behind entry 0: its value is at most `addr`, or at most
    `addr + 1` after a hit of entry 0 for which `j` was not yet excluded.  An `N_SO` in entry 1
    with the highest address does not count, because hitting it wraps `addr`. -/
def Passed (j : Int) : Prop :=
  IsSO stabs j ∧ 0 < j ∧ ¬(j = 1 ∧ valueAt stabs j = top) ∧
    (valueAt stabs j ≤ addr ∨
      (valueAt stabs 0 = addr ∧ valueAt stabs j = addr + 1 ∧
        ∃ r', MeetsFirst stabs addr r' ∧ j ≤ r'))

/-- The values of the `N_SO` entries increase strictly. -/
def SortedSO : Prop := Increasing (IsSO stabs) (valueAt stabs)

/-- Some file starts at or below the address. -/
def SomeBelow : Prop := ∃ i, IsSO stabs i ∧ valueAt stabs i ≤ addr

/-- The file search. -/
def FileSearch (f : Range) : Prop :=
  Ends (IsSO stabs) (valueAt stabs) ⟨0, stabs.length - 1, 0, false, addr⟩ f

/-- The function stays inside the table, succeeds on a sorted table that has a file at or below
    the address, and fails where no file is. -/
def CoverageCorrect (stabstr : List Byte) : Prop :=
  ∃ ret info, debuginfoEip stabs stabstr addr = .ok (ret, info) ∧
    (SortedSO stabs → SomeBelow stabs addr → ret = 0) ∧
    ((∀ i, IsSO stabs i → addr < valueAt stabs i) → ret = -1)

end

variable {stabs : List Stab} {stabstr : List Byte} {addr : Word} {f : Range}

/-! ## The ends of the file search -/

theorem FileSearch.bounds (h : FileSearch stabs addr f) :
    0 ≤ f.left ∧ -1 ≤ f.r ∧ f.r ≤ (stabs.length : Int) - 1 := by
  have htable : (0 : Int) - 1 ≤ (stabs.length : Int) - 1 := by omega
  have hbounds := Ends.bounds h (Int.le_refl 0) htable
  have hleft := Ends.left_ge h (Int.le_refl 0) (Int.le_refl 0)
  simp only at hbounds
  exact ⟨hleft, by omega, by omega⟩

theorem IsSO.bounds {i : Int} (h : IsSO stabs i) : 0 ≤ i ∧ i ≤ (stabs.length : Int) - 1 := by
  have := HasType.bounds h
  omega

theorem FileSearch.found (h : FileSearch stabs addr f) {i : Int} (hi : IsSO stabs i) :
    f.found = true := by
  cases hfound : f.found with
  | true => rfl
  | false =>
    obtain ⟨h0, h1⟩ := hi.bounds
    exact absurd hi ((Ends.not_found h hfound).2.2 i h0 h1)

theorem FileSearch.length_pos (h : FileSearch stabs addr f) (hfound : f.found = true) :
    0 < stabs.length := by
  by_contra hlen
  have heq := Ends.eq_of_lt h (show (stabs.length : Int) - 1 < 0 by omega)
  rw [heq] at hfound
  cases hfound

/-- The right end falls in front of the table exactly in the bad case. -/
theorem FileSearch.r_eq_iff (h : FileSearch stabs addr f) (hne : 0 < stabs.length) :
    f.r = -1 ↔ FirstAbove stabs addr :=
  Ends.r_eq_iff h rfl (show (0 : Int) ≤ (stabs.length : Int) - 1 by omega)

theorem FirstAbove.isSO (h : FirstAbove stabs addr) : IsSO stabs 0 := by
  obtain ⟨⟨r', hmeets⟩, -⟩ := h
  exact hmeets.marked

/-- `debuginfo_eip` behind its checks. -/
theorem debuginfoEip_eq (haddr : ULIM ≤ addr) (hstr : stabstr.getLast? = some 0) :
    ∃ f, FileSearch stabs addr f ∧ debuginfoEip stabs stabstr addr =
      if (bracket 0 f).1 = 0 then .ok (-1, ⟨.unknown, 0, .unknown, 9, addr, 0⟩)
      else eipInFile stabs stabstr addr (bracket 0 f).1 (bracket 0 f).2
        ⟨.unknown, 0, .unknown, 9, addr, 0⟩ := by
  obtain ⟨f, hends, hrun⟩ := @stabBinsearch_spec stabs N_SO 0 (stabs.length - 1) (Int.le_refl 0)
    (by omega) (by omega) addr
  refine ⟨f, hends, ?_⟩
  rw [debuginfoEip]
  simp only
  rw [if_neg (show ¬addr < ULIM by bv_omega), if_neg (by simpa using hstr), hrun]
  rfl

/-- **In the bad case the function leaves the table.** -/
theorem debuginfoEip_outside (haddr : ULIM ≤ addr) (hstr : stabstr.getLast? = some 0)
    (h : FirstAbove stabs addr) : debuginfoEip stabs stabstr addr = .error .outside := by
  obtain ⟨f, hsearch, hrun⟩ := @debuginfoEip_eq stabs stabstr addr haddr hstr
  obtain ⟨-, hlen⟩ := h.isSO.bounds
  have hr := (hsearch.r_eq_iff (by omega)).mpr h
  have hleft := hsearch.bounds.1
  have hbracket : bracket 0 f = (-1, -1) := by
    have hmin : min f.left (-1) = -1 := by omega
    rw [bracket_found (hsearch.found h.isSO), hr, hmin]
  rw [hrun, hbracket, if_neg (by decide)]
  exact eipInFile_outside _

theorem FileSearch.min_nonneg (h : FileSearch stabs addr f) (hfirst : ¬FirstAbove stabs addr)
    (hfound : f.found = true) : 0 ≤ min f.left f.r := by
  obtain ⟨hleft, hr, -⟩ := h.bounds
  have hne : f.r ≠ -1 := fun heq => hfirst ((h.r_eq_iff (h.length_pos hfound)).mp heq)
  omega

/-- **Otherwise it stays inside**, and it fails exactly when the left end is 0. -/
theorem debuginfoEip_inside (haddr : ULIM ≤ addr) (hstr : stabstr.getLast? = some 0)
    (h : ¬FirstAbove stabs addr) :
    ∃ f ret info, FileSearch stabs addr f ∧ debuginfoEip stabs stabstr addr = .ok (ret, info) ∧
      ret = if f.found = true ∧ 0 < min f.left f.r then 0 else -1 := by
  obtain ⟨f, hsearch, hrun⟩ := @debuginfoEip_eq stabs stabstr addr haddr hstr
  obtain ⟨-, -, hlen⟩ := hsearch.bounds
  rw [hrun]
  cases hfound : f.found with
  | false =>
    rw [bracket_not_found hfound, if_pos rfl]
    exact ⟨f, _, _, hsearch, rfl, by simp [hfound]⟩
  | true =>
    have hmin := hsearch.min_nonneg h hfound
    rw [bracket_found hfound]
    by_cases hzero : min f.left f.r = 0
    · rw [if_pos hzero]
      exact ⟨f, _, _, hsearch, rfl, (if_neg (by omega)).symm⟩
    · rw [if_neg hzero]
      obtain ⟨info, hin⟩ := @eipInFile_total stabs stabstr addr (min f.left f.r) f.r (by omega)
        (by omega) (by omega) ⟨.unknown, 0, .unknown, 9, addr, 0⟩
      exact ⟨f, 0, info, hsearch, hin, (if_pos ⟨hfound, by omega⟩).symm⟩

/-! ## The left end on a sorted table -/

/-- Where every file lies above the address, the left end is 0. -/
theorem FileSearch.left_of_above (h : FileSearch stabs addr f) (hfirst : ¬FirstAbove stabs addr)
    (habove : ∀ i, IsSO stabs i → addr < valueAt stabs i) : f.left = 0 := by
  refine Ends.stays h rfl (Int.le_refl 0) (fun i hi _ _ => habove i hi) fun h0 => ?_
  -- an `N_SO` in entry 0 would have been met
  obtain ⟨-, hlen⟩ := IsSO.bounds h0
  obtain ⟨r', hmeets⟩ := @Meets.of_above (IsSO stabs) (valueAt stabs) 0 addr h0 _
    ((stabs.length : Int) - 1) rfl hlen fun i hi _ _ => habove i hi
  exact absurd ⟨⟨r', hmeets⟩, Or.inl (habove 0 h0)⟩ hfirst

/-- The search that has hit entry 0. -/
theorem FileSearch.after_first (h : FileSearch stabs addr f) {r' : Int}
    (hmeets : MeetsFirst stabs addr r') (hkey : valueAt stabs 0 = addr) :
    Ends (IsSO stabs) (valueAt stabs) ⟨0, r', 0, true, addr + 1⟩ f := by
  obtain ⟨hle, hlast, found, hends⟩ := hmeets.ends rfl rfl rfl h
  obtain ⟨s', hstep, hrest⟩ := hends.next hle
  rcases Step.of_isLast hlast hstep with ⟨hbelow, -⟩ | ⟨habove, -⟩ | ⟨-, heq⟩
  · rw [hkey] at hbelow
    exact absurd hbelow (BitVec.lt_irrefl _)
  · rw [hkey] at habove
    exact absurd habove (BitVec.lt_irrefl _)
  · subst heq
    exact hrest

/-- A search that passes an `N_SO` behind entry 0 ends behind entry 0. -/
theorem ends_behind (hsorted : SortedSO stabs) {s : Range}
    (h : Ends (IsSO stabs) (valueAt stabs) s f) {j : Int} (hj : IsSO stabs j) (hpos : 0 < j)
    (htop : ¬(j = 1 ∧ valueAt stabs j = top)) (hkey : valueAt stabs j ≤ s.addr) (hr : j ≤ s.r)
    (hl : s.l = 0) : 0 < min f.left f.r := by
  rcases h.passes hsorted hj hkey hr (fun hlt => by omega) with
    ⟨hleft, hright, -⟩ | ⟨m, hle, hm, hmtop, hleft, hright⟩
  · omega
  · have hm1 : m ≠ 1 := by
      intro heq
      have hj1 : j = 1 := by omega
      rw [heq, ← hj1] at hmtop
      exact htop ⟨hj1, hmtop⟩
    omega

/-- **A passed `N_SO` makes the search succeed.** -/
theorem FileSearch.of_passed (h : FileSearch stabs addr f) (hsorted : SortedSO stabs) {j : Int}
    (hpassed : Passed stabs addr j) : 0 < min f.left f.r := by
  obtain ⟨hj, hpos, htop, hkey | ⟨h0, hkey, r', hmeets, hr⟩⟩ := hpassed
  · exact ends_behind hsorted h hj hpos htop hkey hj.bounds.2 rfl
  · exact ends_behind hsorted (h.after_first hmeets h0) hj hpos htop
      (by rw [hkey]; exact BitVec.le_refl _) hr rfl

/-- **Without one the left end is 0.** -/
theorem FileSearch.of_not_passed (h : FileSearch stabs addr f) (hsorted : SortedSO stabs)
    (hbelow : SomeBelow stabs addr) (hnone : ¬∃ j, Passed stabs addr j) :
    min f.left f.r ≤ 0 := by
  by_cases hone : IsSO stabs 1 ∧ valueAt stabs 1 = top ∧ valueAt stabs 1 ≤ addr
  · -- the hit of the highest address in entry 1
    obtain ⟨h1, htop, hkey⟩ := hone
    have := Ends.stops_at_top hsorted h h1 htop hkey h1.bounds.2 (by simp only; omega)
    omega
  have habove : ∀ i, IsSO stabs i → 0 < i → addr < valueAt stabs i := by
    intro i hi hpos
    by_contra hle
    have hkey : valueAt stabs i ≤ addr := by bv_omega
    refine hnone ⟨i, hi, hpos, ?_, Or.inl hkey⟩
    rintro ⟨rfl, htop⟩
    exact hone ⟨hi, htop, hkey⟩
  obtain ⟨i, hi, hkey⟩ := hbelow
  have hi0 : i = 0 := by
    by_contra hne
    have := habove i hi (by have := hi.bounds; omega)
    bv_omega
  subst hi0
  by_cases hhit : valueAt stabs 0 = addr
  · obtain ⟨r', hmeets⟩ := @Meets.of_above (IsSO stabs) (valueAt stabs) 0 addr hi _
      ((stabs.length : Int) - 1) rfl hi.bounds.2 fun k hk hpos _ => habove k hk hpos
    have hafter := h.after_first hmeets hhit
    by_cases hnext : IsSO stabs 1 ∧ valueAt stabs 1 = top ∧ valueAt stabs 1 = addr + 1 ∧ 1 ≤ r'
    · -- entry 1 has the highest address and is hit next
      obtain ⟨h1, htop, heq, hr⟩ := hnext
      have := Ends.stops_at_top hsorted hafter h1 htop (by rw [heq]; exact BitVec.le_refl _) hr
        (by simp only; omega)
      omega
    · have hstays : f.left = 0 := Ends.stays hafter rfl (Int.le_refl 0) (fun k hk hpos hr => by
        have hgt := habove k hk hpos
        have hne : valueAt stabs k ≠ addr + 1 := by
          intro heq
          refine hnone ⟨k, hk, hpos, ?_, Or.inr ⟨hhit, heq, r', hmeets, hr⟩⟩
          rintro ⟨rfl, htop⟩
          exact hnext ⟨hk, htop, heq, hr⟩
        simp only
        bv_omega) (fun _ => by
        rw [hhit]
        exact (add_one_ne addr).symm)
      omega
  · have hstays : f.left = 0 :=
      Ends.stays h rfl (Int.le_refl 0) (fun k hk hpos _ => habove k hk hpos) fun _ => hhit
    omega

/-! ## The exact condition -/

/-- **When `debuginfo_eip` stays inside the table and reports coverage correctly**: it does not
    find entry 0 above the address, and on a sorted table with a file at or below the address it
    passes an `N_SO` behind entry 0. -/
theorem coverage_iff (stabs : List Stab) (stabstr : List Byte) (addr : Word) (haddr : ULIM ≤ addr)
    (hstr : stabstr.getLast? = some 0) :
    CoverageCorrect stabs addr stabstr ↔
      ¬FirstAbove stabs addr ∧
        (SortedSO stabs → SomeBelow stabs addr → ∃ j, Passed stabs addr j) := by
  constructor
  · rintro ⟨ret, info, hrun, hcover, -⟩
    have hfirst : ¬FirstAbove stabs addr := by
      intro h
      rw [debuginfoEip_outside haddr hstr h] at hrun
      cases hrun
    refine ⟨hfirst, fun hsorted hbelow => ?_⟩
    obtain ⟨f, ret', info', hsearch, hrun', hret⟩ := debuginfoEip_inside haddr hstr hfirst
    cases hrun.symm.trans hrun'
    by_contra hnone
    have hzero := hsearch.of_not_passed hsorted hbelow hnone
    have hok := hcover hsorted hbelow
    rw [hret, if_neg (by omega)] at hok
    cases hok
  · rintro ⟨hfirst, hpassed⟩
    obtain ⟨f, ret, info, hsearch, hrun, hret⟩ := debuginfoEip_inside haddr hstr hfirst
    refine ⟨ret, info, hrun, fun hsorted hbelow => ?_, fun habove => ?_⟩
    · obtain ⟨j, hj⟩ := hpassed hsorted hbelow
      have hpos := hsearch.of_passed hsorted hj
      rw [hret, if_pos ⟨hsearch.found hj.1, hpos⟩]
    · have hleft := hsearch.left_of_above hfirst habove
      rw [hret, if_neg (by omega)]

/-- A table that starts with a header entry. -/
def headedTable : List Stab := [⟨0, 0, 0⟩, ⟨1, N_SO, 0xF0100000⟩]

theorem coverage_iff_headed : CoverageCorrect headedTable 0xF0100010 [0] := by
  refine (coverage_iff headedTable [0] 0xF0100010 (by decide) rfl).mpr ⟨?_, fun _ _ => ⟨1, ?_⟩⟩
  · intro h
    obtain ⟨s, hs, htype⟩ := h.isSO
    cases hs
    exact absurd htype (by decide)
  · exact ⟨⟨_, rfl, rfl⟩, by decide, by decide, Or.inl (by decide)⟩

/-- The first two entries of the example above `stab_binsearch`. -/
def exampleTable : List Stab := [⟨1, N_SO, 0xF0100000⟩, ⟨1, N_SO, 0xF0100040⟩]

theorem example_sorted : SortedSO exampleTable := by
  intro i j hi hj hlt
  have hi' := IsSO.bounds hi
  have hj' := IsSO.bounds hj
  have hlen : (exampleTable.length : Int) = 2 := rfl
  have h0 : i = 0 := by omega
  have h1 : j = 1 := by omega
  rw [h0, h1]
  decide

/-- An address in the file of entry 0 is reported as not found. -/
theorem example_not_covered : ¬CoverageCorrect exampleTable 0xF0100010 [0] := by
  rintro ⟨ret, info, hrun, hcover, -⟩
  have hfail : debuginfoEip exampleTable [0] 0xF0100010 =
      .ok (-1, ⟨.unknown, 0, .unknown, 9, 0xF0100010, 0⟩) := by decide
  cases hfail.symm.trans hrun
  exact absurd (hcover example_sorted ⟨0, ⟨_, rfl, rfl⟩, by decide⟩) (by decide)

end Jos
