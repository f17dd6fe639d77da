import JosKernel.Debug.Coverage

/-!
# The number of arguments of a function

`debuginfo_eip` counts the `N_PSYM` entries behind the function's `N_FUN`.  The right end of the
region that `stab_binsearch` returns belongs to the region, but the counting loop stops in front
of it.

Principal result: `narg_iff` — when the count is the number of parameter entries.
-/

set_option autoImplicit false

namespace Jos

open Halving

/-- `k` consecutive `N_PSYM` entries stand behind `lfun` in the region up to `rfun`, and no
more. -/
structure PsymRun (stabs : List Stab) (lfun rfun k : Int) : Prop where
  nonneg : 0 ≤ k
  inside : lfun + k ≤ rfun
  params : ∀ i, lfun < i → i ≤ lfun + k → HasType stabs N_PSYM i
  maximal : lfun + k = rfun ∨ ¬HasType stabs N_PSYM (lfun + k + 1)

/-- The two searches of `debuginfo_eip` find a file, and in it an `N_FUN` at `lfun` with the
region up to `rfun`. -/
structure FindsFunction (stabs : List Stab) (addr : Word) (lfile rfile lfun rfun : Int) :
    Prop where
  file : stabBinsearch stabs 0 (stabs.length - 1) N_SO addr = .ok (lfile, rfile)
  fileFound : lfile ≠ 0
  region : stabBinsearch stabs lfile rfile N_FUN addr = .ok (lfun, rfun)
  ordered : lfun ≤ rfun
  isFun : HasType stabs N_FUN lfun

/-- `debuginfo_eip` succeeds and returns the number of parameter entries of the region. -/
def NargCorrect (stabs : List Stab) (stabstr : List Byte) (addr : Word) (lfun rfun : Int) :
    Prop :=
  ∃ info, debuginfoEip stabs stabstr addr = .ok (0, info) ∧
    PsymRun stabs lfun rfun info.eip_fn_narg

variable {stabs : List Stab} {stabstr : List Byte} {addr : Word} {lfile rfile lfun rfun : Int}

/-! ## The loop -/

/-- The loop counts the parameter entries of its `n` entries. -/
theorem countArgs_run : ∀ (n : Nat) (lline narg : Int), 0 ≤ lline → lline + n ≤ stabs.length →
    ∃ k, countArgs stabs n lline narg = .ok (narg + k) ∧
      PsymRun stabs (lline - 1) (lline - 1 + n) k
  | 0, lline, narg, _, _ => by
    refine ⟨0, by rw [Int.add_zero]; rfl, Int.le_refl 0, by omega, ?_, Or.inl (by omega)⟩
    intro i hi hi'
    omega
  | n + 1, lline, narg, h0, h1 => by
    obtain ⟨s, hs⟩ := stabEntry_inside h0 (show lline < stabs.length by omega)
    rw [countArgs, stabAt_of_entry hs]
    by_cases htype : s.n_type = N_PSYM
    · obtain ⟨k, hrun, hk⟩ := countArgs_run n (lline + 1) (narg + 1) (by omega) (by omega)
      have hinside := hk.inside
      have hnonneg := hk.nonneg
      refine ⟨k + 1, ?_, by omega, by omega, ?_, ?_⟩
      · refine (if_pos htype).trans (hrun.trans ?_)
        rw [show narg + 1 + k = narg + (k + 1) by omega]
      · intro i hi hi'
        by_cases heq : i = lline
        · rw [heq]
          exact ⟨s, hs, htype⟩
        · exact hk.params i (by omega) (by omega)
      · rcases hk.maximal with heq | hnone
        · exact Or.inl (by omega)
        · refine Or.inr ?_
          rwa [show lline - 1 + (k + 1) + 1 = lline + 1 - 1 + k + 1 by omega]
    · refine ⟨0, ?_, Int.le_refl 0, by omega, ?_, Or.inr ?_⟩
      · rw [Int.add_zero]
        exact if_neg htype
      · intro i hi hi'
        omega
      · rw [show lline - 1 + 0 + 1 = lline by omega]
        rintro ⟨s', hs', htype'⟩
        cases hs.symm.trans hs'
        exact htype htype'

/-- The loop stops in front of `rfun`. -/
theorem eipArgs_run (h0 : 0 ≤ lfun) (hlt : lfun < rfun) (hr : rfun < stabs.length)
    (info : Eipdebuginfo) :
    ∃ k, eipArgs stabs lfun rfun info =
        .ok { info with eip_fn_narg := info.eip_fn_narg + k } ∧
      PsymRun stabs lfun (rfun - 1) k := by
  obtain ⟨k, hrun, hk⟩ := @countArgs_run stabs (rfun - (lfun + 1)).toNat (lfun + 1)
    info.eip_fn_narg (by omega) (by omega)
  rw [show lfun + 1 - 1 = lfun by omega,
    show lfun + ((rfun - (lfun + 1)).toNat : Int) = rfun - 1 by omega] at hk
  refine ⟨k, ?_, hk⟩
  rw [eipArgs, if_pos hlt, hrun]
  rfl

/-- A run up to `rfun - 1` is one up to `rfun` unless it goes on there. -/
theorem psymRun_iff {k : Int} (h : PsymRun stabs lfun (rfun - 1) k) :
    PsymRun stabs lfun rfun k ↔ ∃ i, lfun < i ∧ i ≤ rfun ∧ ¬HasType stabs N_PSYM i := by
  have hinside := h.inside
  have hnonneg := h.nonneg
  constructor
  · intro hk
    rcases hk.maximal with heq | hnone
    · omega
    · exact ⟨lfun + k + 1, by omega, by omega, hnone⟩
  · rintro ⟨i, hi, hi', hnone⟩
    refine ⟨hnonneg, by omega, h.params, Or.inr ?_⟩
    rcases h.maximal with heq | hmax
    · have hlast : i = rfun := by
        by_contra hne
        exact hnone (h.params i hi (by omega))
      rwa [show lfun + k + 1 = i by omega]
    · exact hmax

/-! ## Around the loop -/

theorem eipFunction_narg {info info' : Eipdebuginfo} {lline : Int}
    (h : eipFunction stabs stabstr addr lfile lfun rfun info = .ok (info', lline)) :
    info'.eip_fn_narg = info.eip_fn_narg := by
  unfold eipFunction at h
  split at h
  · obtain ⟨s, -, hs⟩ := bind_ok.mp h
    cases hs
    rfl
  · cases h
    rfl

theorem eipFile_narg {info info' : Eipdebuginfo} {lline : Int}
    (h : eipFile stabs stabstr lfile lline info = .ok info') :
    info'.eip_fn_narg = info.eip_fn_narg := by
  obtain ⟨j, -, h⟩ := bind_ok.mp h
  split at h
  · obtain ⟨s, -, hs⟩ := bind_ok.mp h
    cases hs
    rfl
  · cases h
    rfl

/-- Only the counting loop changes the number of arguments. -/
theorem eipInFile_args {info info' : Eipdebuginfo}
    (hregion : stabBinsearch stabs lfile rfile N_FUN addr = .ok (lfun, rfun))
    (h : eipInFile stabs stabstr addr lfile rfile info = .ok (0, info')) :
    ∃ info2, info2.eip_fn_narg = info.eip_fn_narg ∧ eipArgs stabs lfun rfun info2 = .ok info' := by
  obtain ⟨⟨l, r⟩, hfound, h⟩ := bind_ok.mp h
  cases hregion.symm.trans hfound
  obtain ⟨⟨info1, lline⟩, hfunction, h⟩ := bind_ok.mp h
  obtain ⟨info2, hfile, h⟩ := bind_ok.mp h
  obtain ⟨info3, hargs, h⟩ := bind_ok.mp h
  cases h
  have hkeep : info1.eip_fn_narg = info.eip_fn_narg := eipFunction_narg hfunction
  exact ⟨info2, (eipFile_narg hfile).trans hkeep, hargs⟩

/-- The file that is found lies in the table. -/
theorem FindsFunction.file_inside (h : FindsFunction stabs addr lfile rfile lfun rfun) :
    1 ≤ lfile ∧ lfile ≤ rfile ∧ rfile < stabs.length := by
  obtain ⟨f, hends, hrun⟩ := @stabBinsearch_spec stabs N_SO 0 (stabs.length - 1) (Int.le_refl 0)
    (by omega) (by omega) addr
  have hne := h.fileFound
  have hsearch : FileSearch stabs addr f := hends
  obtain ⟨hleft, hlow, hup⟩ := hsearch.bounds
  have hbracket := Except.ok.inj (hrun.symm.trans h.file)
  cases hfound : f.found with
  | false =>
    rw [bracket_not_found hfound] at hbracket
    exact absurd (congrArg Prod.fst hbracket).symm hne
  | true =>
    rw [bracket_found hfound] at hbracket
    obtain ⟨hl, hr⟩ := Prod.mk.inj hbracket
    by_cases hneg : f.r = -1
    · -- the second search would start in front of the table
      have hregion := h.region
      rw [show lfile = -1 by omega, show rfile = -1 by omega] at hregion
      cases hregion
    · omega

theorem debuginfoEip_of_finds (haddr : ULIM ≤ addr) (hstr : stabstr.getLast? = some 0)
    (h : FindsFunction stabs addr lfile rfile lfun rfun) :
    debuginfoEip stabs stabstr addr =
      eipInFile stabs stabstr addr lfile rfile ⟨.unknown, 0, .unknown, 9, addr, 0⟩ := by
  rw [debuginfoEip]
  simp only
  rw [if_neg (show ¬addr < ULIM by bv_omega), if_neg (by simpa using hstr), h.file]
  exact if_neg h.fileFound

/-- **The number of arguments is the number of parameter entries** exactly when these do not
reach the end of the region. -/
theorem narg_iff (haddr : ULIM ≤ addr) (hstr : stabstr.getLast? = some 0)
    (h : FindsFunction stabs addr lfile rfile lfun rfun) :
    NargCorrect stabs stabstr addr lfun rfun ↔
      lfun = rfun ∨ ∃ i, lfun < i ∧ i ≤ rfun ∧ ¬HasType stabs N_PSYM i := by
  obtain ⟨h1, hle, hlen⟩ := h.file_inside
  obtain ⟨info, hrun⟩ := @eipInFile_total stabs stabstr addr lfile rfile h1 hle hlen
    ⟨.unknown, 0, .unknown, 9, addr, 0⟩
  obtain ⟨info2, hnarg, hargs⟩ := eipInFile_args h.region hrun
  rw [← debuginfoEip_of_finds haddr hstr h] at hrun
  have hcorrect : NargCorrect stabs stabstr addr lfun rfun ↔
      PsymRun stabs lfun rfun info.eip_fn_narg := by
    constructor
    · rintro ⟨info', hrun', hk⟩
      cases hrun.symm.trans hrun'
      exact hk
    · exact fun hk => ⟨info, hrun, hk⟩
  rw [hcorrect]
  have hordered := h.ordered
  by_cases hlt : lfun < rfun
  · obtain ⟨hfun0, -⟩ := h.isFun.bounds
    obtain ⟨l, r, hregion, hrange⟩ :=
      stabBinsearch_range (by omega) (show lfile ≤ rfile + 1 by omega) hlen N_FUN addr
    cases hregion.symm.trans h.region
    obtain ⟨k, hargs', hk⟩ := eipArgs_run hfun0 hlt (show rfun < stabs.length by omega) info2
    cases hargs.symm.trans hargs'
    have hcount : info2.eip_fn_narg + k = k := by rw [hnarg, Int.zero_add]
    show PsymRun stabs lfun rfun (info2.eip_fn_narg + k) ↔ _
    rw [hcount, psymRun_iff hk]
    constructor
    · exact Or.inr
    · exact fun hcases => hcases.resolve_left (by omega)
  · rw [eipArgs, if_neg hlt] at hargs
    cases hargs
    have hempty : PsymRun stabs lfun rfun 0 :=
      ⟨Int.le_refl 0, by omega, fun i hi hi' => by omega, Or.inl (by omega)⟩
    refine iff_of_true ?_ (Or.inl (by omega))
    rw [hnarg]
    exact hempty

/-- A file with a function, one parameter, and what the caller gives behind it. -/
def functionTable (rest : List Stab) : List Stab :=
  [⟨0, N_SO, 0xf0100000⟩, ⟨0, N_SO, 0xf0100040⟩, ⟨0, N_FUN, 0xf0100040⟩, ⟨0, N_PSYM, 0⟩] ++ rest

/-- The parameter is followed by another entry of the function. -/
theorem narg_iff_followed :
    NargCorrect (functionTable [⟨0, 0x44, 0⟩]) [0] 0xf0100044 2 4 := by
  have hfinds : FindsFunction (functionTable [⟨0, 0x44, 0⟩]) 0xf0100044 1 4 2 4 :=
    ⟨by decide +kernel, by decide, by decide +kernel, by decide, ⟨_, rfl, rfl⟩⟩
  have hlast : ¬HasType (functionTable [⟨0, 0x44, 0⟩]) N_PSYM 4 := by
    rintro ⟨s, hs, htype⟩
    cases hs
    exact absurd htype (by decide)
  exact (narg_iff (by decide) rfl hfinds).2 (Or.inr ⟨4, by decide, by decide, hlast⟩)

/-- The parameter is the last entry: it is not counted. -/
theorem lastParameter_not_counted :
    ¬NargCorrect (functionTable []) [0] 0xf0100044 2 3 := by
  rintro ⟨info, hrun, hk⟩
  have hparam : HasType (functionTable []) N_PSYM 3 := ⟨_, rfl, rfl⟩
  have hzero : debuginfoEip (functionTable []) [0] 0xf0100044 =
      .ok (0, ⟨.strx 0, 0, .strx 0, 0, 0xf0100040, 0⟩) := by decide +kernel
  cases hzero.symm.trans hrun
  rcases hk.maximal with heq | hnone
  · exact absurd heq (by decide)
  · exact hnone hparam

end Jos
