import JosKernel.Debug.Stab
import JosKernel.Format.CStr

/-!
# `debuginfo_eip`

`kern/kdebug.c`: what the symbol table says about an address.  The file is the bracket of the
`N_SO` entries; a left end of 0 is taken for "not found", although entry 0 can be an `N_SO`, and
a left end of -1 is not tested.  The source leaves the search for the line number to be written:
`eip_line` stays 0.

Principal results: `stabBinsearch_range` — where a search can end; `eipInFile_total` — with a
file inside the table every later access is inside it; `eipInFile_outside` — with a file at
index -1 the first one is not.
-/

set_option autoImplicit false

namespace Jos

open Halving

def N_FUN : Byte := 0x24
def N_SO : Byte := 0x64
def N_SOL : Byte := 0x84
def N_PSYM : Byte := 0xa0
def ULIM : Word := 0xEF800000

/-- A name: `"<unknown>"`, or a place in the string table. -/
inductive DebugName where
  | unknown
  | strx (n : Nat)
  deriving DecidableEq, Repr

/-- `struct Eipdebuginfo`. -/
structure Eipdebuginfo where
  eip_file : DebugName
  eip_line : Int
  eip_fn_name : DebugName
  eip_fn_namelen : Int
  eip_fn_addr : Word
  eip_fn_narg : Int
  deriving DecidableEq

/-- `strfind(s, c) - s`. -/
def strfind (s : List Byte) (c : Byte) : Nat := (s.takeWhile fun b => b ≠ 0 ∧ b ≠ c).length

theorem strfind_cons_go {b c : Byte} (h : b ≠ 0 ∧ b ≠ c) (s : List Byte) :
    strfind (b :: s) c = strfind s c + 1 := by
  rw [strfind, List.takeWhile_cons, if_pos (decide_eq_true h)]
  rfl

theorem strfind_cons_stop {b c : Byte} (h : ¬(b ≠ 0 ∧ b ≠ c)) (s : List Byte) :
    strfind (b :: s) c = 0 := by
  rw [strfind, List.takeWhile_cons, if_neg (by rwa [decide_eq_true_iff])]
  rfl

/-- `strfind(name, ':') - name`. -/
def DebugName.length (stabstr : List Byte) : DebugName → Nat
  | .unknown => strfind (CStr.ofString "<unknown>").bytes (char ':')
  | .strx n => strfind (stabstr.drop n) (char ':')

/-- `if (stab.n_strx < stabstr_end - stabstr) name = stabstr + stab.n_strx`. -/
def nameAt (stabstr : List Byte) (s : Stab) (name : DebugName) : DebugName :=
  if s.n_strx.toNat < stabstr.length then .strx s.n_strx.toNat else name

/-- `for (; lline < rfun && stabs[lline].n_type == N_PSYM; lline++) eip_fn_narg++`, for
    `n = rfun - lline`. -/
def countArgs (stabs : List Stab) : Nat → Int → Int → Except DebugFault Int
  | 0, _, narg => .ok narg
  | n + 1, lline, narg => do
      let s ← stabAt stabs lline
      if s.n_type = N_PSYM then countArgs stabs n (lline + 1) (narg + 1) else .ok narg

/-- The function that contains the address, and the entry at which the file search starts. -/
def eipFunction (stabs : List Stab) (stabstr : List Byte) (addr : Word) (lfile lfun rfun : Int)
    (info : Eipdebuginfo) : Except DebugFault (Eipdebuginfo × Int) :=
  if lfun ≤ rfun then do
    let s ← stabAt stabs lfun
    .ok ({ info with eip_fn_name := nameAt stabstr s info.eip_fn_name, eip_fn_addr := s.n_value },
      lfun)
  else
    -- maybe an assembly file: search the whole file
    .ok ({ info with eip_fn_addr := addr }, lfile)

/-- Search backwards from the line number for the relevant filename stab. -/
def eipFile (stabs : List Stab) (stabstr : List Byte) (lfile lline : Int) (info : Eipdebuginfo) :
    Except DebugFault Eipdebuginfo := do
  let lline ← scanBack stabs
    (fun s => ¬(s.n_type ≠ N_SOL ∧ (s.n_type ≠ N_SO ∨ s.n_value = 0)))
    (lline - lfile + 1).toNat lline
  if lline ≥ lfile then do
    let s ← stabAt stabs lline
    .ok { info with eip_file := nameAt stabstr s info.eip_file }
  else .ok info

/-- The number of arguments of the function. -/
def eipArgs (stabs : List Stab) (lfun rfun : Int) (info : Eipdebuginfo) :
    Except DebugFault Eipdebuginfo :=
  if lfun < rfun then do
    let narg ← countArgs stabs (rfun - (lfun + 1)).toNat (lfun + 1) info.eip_fn_narg
    .ok { info with eip_fn_narg := narg }
  else .ok info

/-- `debuginfo_eip`, behind the search for the file. -/
def eipInFile (stabs : List Stab) (stabstr : List Byte) (addr : Word) (lfile rfile : Int)
    (info : Eipdebuginfo) : Except DebugFault (Int × Eipdebuginfo) := do
  let (lfun, rfun) ← stabBinsearch stabs lfile rfile N_FUN addr
  let (info, lline) ← eipFunction stabs stabstr addr lfile lfun rfun info
  -- ignore stuff after the colon
  let info := { info with eip_fn_namelen := info.eip_fn_name.length stabstr }
  let info ← eipFile stabs stabstr lfile lline info
  let info ← eipArgs stabs lfun rfun info
  .ok (0, info)

/-- `debuginfo_eip`: the return value and `*info`. -/
def debuginfoEip (stabs : List Stab) (stabstr : List Byte) (addr : Word) :
    Except DebugFault (Int × Eipdebuginfo) :=
  let info : Eipdebuginfo := ⟨.unknown, 0, .unknown, 9, addr, 0⟩
  if addr < ULIM then .error .userAddress
  else if stabstr.getLast? ≠ some 0 then .ok (-1, info)
  else do
    -- search the entire set of stabs for the source file
    let (lfile, rfile) ← stabBinsearch stabs 0 (stabs.length - 1) N_SO addr
    if lfile = 0 then .ok (-1, info)
    else eipInFile stabs stabstr addr lfile rfile info

/-! ## Behind the file search -/

variable {stabs : List Stab} {stabstr : List Byte} {addr : Word}

/-- The ends of a bracket: the original left end with an empty range, or two ends in order. -/
theorem stabBinsearch_range {L R : Int} (h0 : 0 ≤ L) (hle : L ≤ R + 1) (hR : R < stabs.length)
    (type : Byte) (addr : Word) :
    ∃ l r, stabBinsearch stabs L R type addr = .ok (l, r) ∧
      ((l = L ∧ r = L - 1) ∨ (L - 1 ≤ l ∧ l ≤ r ∧ r ≤ R)) := by
  obtain ⟨f, hends, hrun⟩ := @stabBinsearch_spec stabs type L R h0 hle hR addr
  have hbounds := hends.bounds (Int.le_refl L) (show L - 1 ≤ R by omega)
  have hleft := hends.left_ge (Int.le_refl L) (Int.le_refl L)
  simp only at hbounds
  cases hfound : f.found with
  | false =>
    rw [bracket_not_found hfound] at hrun
    exact ⟨_, _, hrun, Or.inl ⟨rfl, rfl⟩⟩
  | true =>
    rw [bracket_found hfound] at hrun
    exact ⟨_, _, hrun, Or.inr ⟨by omega, by omega, hbounds.2.2⟩⟩

theorem countArgs_total : ∀ (n : Nat) (lline narg : Int), 0 ≤ lline → lline + n ≤ stabs.length →
    ∃ narg', countArgs stabs n lline narg = .ok narg'
  | 0, _, narg, _, _ => ⟨narg, rfl⟩
  | n + 1, lline, narg, h0, h1 => by
    obtain ⟨s, hs⟩ := stabEntry_inside h0 (show lline < stabs.length by omega)
    rw [countArgs, stabAt_of_entry hs]
    by_cases htype : s.n_type = N_PSYM
    · obtain ⟨narg', hrun⟩ := countArgs_total n (lline + 1) (narg + 1) (by omega) (by omega)
      exact ⟨narg', (if_pos htype).trans hrun⟩
    · exact ⟨narg, if_neg htype⟩

/-- With a file inside the table, every other access is inside the table. -/
theorem eipInFile_total {lfile rfile : Int} (h1 : 1 ≤ lfile) (hle : lfile ≤ rfile)
    (hr : rfile < stabs.length) (info : Eipdebuginfo) :
    ∃ info', eipInFile stabs stabstr addr lfile rfile info = .ok (0, info') := by
  obtain ⟨lfun, rfun, hfun, hrange⟩ :=
    stabBinsearch_range (by omega) (show lfile ≤ rfile + 1 by omega) hr N_FUN addr
  -- `lline` starts at the function or at the file
  have hfunction : ∃ info' lline, eipFunction stabs stabstr addr lfile lfun rfun info =
      .ok (info', lline) ∧ lfile - 1 ≤ lline ∧ lline ≤ rfile := by
    unfold eipFunction
    by_cases hcross : lfun ≤ rfun
    · obtain ⟨s, hs⟩ := @stabEntry_inside stabs lfun (by omega) (by omega)
      rw [if_pos hcross, stabAt_of_entry hs]
      exact ⟨_, lfun, rfl, by omega, by omega⟩
    · rw [if_neg hcross]
      exact ⟨_, lfile, rfl, by omega, by omega⟩
  obtain ⟨info1, lline, hfunction, hlow, hup⟩ := hfunction
  have hfile : ∀ info, ∃ info', eipFile stabs stabstr lfile lline info = .ok info' := by
    intro info
    unfold eipFile
    obtain ⟨j, hscan, hj0, hj1, -, -⟩ := @scanBack_spec stabs
      (fun s => ¬(s.n_type ≠ N_SOL ∧ (s.n_type ≠ N_SO ∨ s.n_value = 0)))
      (lline - lfile + 1).toNat lline (by omega) (by omega)
    rw [hscan]
    simp only [Bind.bind, Except.bind]
    by_cases hge : j ≥ lfile
    · obtain ⟨s, hs⟩ := @stabEntry_inside stabs j (by omega) (by omega)
      rw [if_pos hge, stabAt_of_entry hs]
      exact ⟨_, rfl⟩
    · rw [if_neg hge]
      exact ⟨info, rfl⟩
  have hargs : ∀ info, ∃ info', eipArgs stabs lfun rfun info = .ok info' := by
    intro info
    unfold eipArgs
    by_cases hlt : lfun < rfun
    · obtain ⟨narg, hcount⟩ := @countArgs_total stabs (rfun - (lfun + 1)).toNat (lfun + 1)
        info.eip_fn_narg (by omega) (by omega)
      rw [if_pos hlt, hcount]
      exact ⟨_, rfl⟩
    · rw [if_neg hlt]
      exact ⟨info, rfl⟩
  unfold eipInFile
  rw [hfun]
  simp only [Bind.bind, Except.bind, hfunction]
  obtain ⟨info2, hfile⟩ := hfile { info1 with eip_fn_namelen := info1.eip_fn_name.length stabstr }
  obtain ⟨info3, hargs⟩ := hargs info2
  simp only [hfile, hargs]
  exact ⟨info3, rfl⟩

/-- A file at index -1 is searched in front of the table. -/
theorem eipInFile_outside (info : Eipdebuginfo) :
    eipInFile stabs stabstr addr (-1) (-1) info = .error .outside := rfl

end Jos
