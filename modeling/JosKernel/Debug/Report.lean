import JosKernel.Debug.Args
import JosKernel.Debug.Search

/-!
# What `debuginfo_eip` reports

The two searches of `debuginfo_eip` together: the function that contains an address is looked for
in the entries of the file that contains it, and the fields of `struct Eipdebuginfo` are read off
the entries around it.

Principal results:

* `names_in_table` — over any table and any address, every name that is returned is a string of
  the string table, and the length of the function's name stops at its colon;
* `debuginfo_reports` — for an address of a function, unless the raised address misleads one of
  the two searches, the report is that of the function.
-/

set_option autoImplicit false

namespace Jos

open Halving

/-! ## Names -/

/-- The name is not in the table, or a string that ends in it. -/
def DebugName.InTable (stabstr : List Byte) : DebugName → Prop
  | .unknown => True
  | .strx n => ∃ k, stabstr[n + k]? = some 0

/-- The first `len` bytes of the name are those in front of its colon, or all of them. -/
def DebugName.StopsAtColon (stabstr : List Byte) (len : Int) : DebugName → Prop
  | .unknown => len = 9
  | .strx n => ∃ k : Nat, len = k ∧ (stabstr[n + k]? = some 0 ∨ stabstr[n + k]? = some (char ':')) ∧
      ∀ i, i < k → ∃ b, stabstr[n + i]? = some b ∧ b ≠ 0 ∧ b ≠ char ':'

/-- The name at the `n_strx` of entry `i`, if this is inside the string table. -/
def entryName (stabs : List Stab) (stabstr : List Byte) (i : Int) : DebugName :=
  ((stabEntry stabs i).map fun s => nameAt stabstr s .unknown).getD .unknown

variable {stabs : List Stab} {stabstr : List Byte} {addr : Word} {lfile rfile lfun rfun : Int}

/-- A walk over bytes that hold a NUL stops at the byte or at the NUL. -/
theorem strfind_spec (c : Byte) : ∀ s : List Byte, 0 ∈ s →
    (s[strfind s c]? = some 0 ∨ s[strfind s c]? = some c) ∧
      ∀ i, i < strfind s c → ∃ b, s[i]? = some b ∧ b ≠ 0 ∧ b ≠ c
  | [], h => absurd h List.not_mem_nil
  | b :: s, h => by
    by_cases hstop : b ≠ 0 ∧ b ≠ c
    · have htail : 0 ∈ s := (List.mem_cons.mp h).resolve_left hstop.1.symm
      obtain ⟨hend, hfront⟩ := strfind_spec c s htail
      rw [strfind_cons_go hstop]
      refine ⟨by simpa using hend, fun i hi => ?_⟩
      cases i with
      | zero => exact ⟨b, rfl, hstop⟩
      | succ i => simpa using hfront i (by omega)
    · rw [strfind_cons_stop hstop]
      refine ⟨?_, fun i hi => absurd hi (Nat.not_lt_zero i)⟩
      by_cases hzero : b = 0
      · simp [hzero]
      · have hc : b = c := by
          by_contra hne
          exact hstop ⟨hzero, hne⟩
        simp [hc]

theorem mem_drop_of_getLast {n : Nat} (hstr : stabstr.getLast? = some 0) (hn : n < stabstr.length) :
    0 ∈ stabstr.drop n := by
  have hne : stabstr.drop n ≠ [] := by simpa using hn
  have hlast : (stabstr.drop n).getLast? = some 0 := by
    rw [List.getLast?_drop, if_neg (by omega), hstr]
  exact List.mem_of_getLast? hlast

/-- A name is kept, or it is a string of the table. -/
theorem nameAt_inTable (hstr : stabstr.getLast? = some 0) (s : Stab) {name : DebugName}
    (h : name.InTable stabstr) : (nameAt stabstr s name).InTable stabstr := by
  unfold nameAt
  split
  · next hlt =>
    obtain ⟨k, hk⟩ := List.mem_iff_getElem?.mp (mem_drop_of_getLast hstr hlt)
    exact ⟨k, by simpa using hk⟩
  · exact h

/-- `strfind` stops in front of the end of the string. -/
theorem length_stopsAtColon {name : DebugName} (h : name.InTable stabstr) :
    name.StopsAtColon stabstr (name.length stabstr) := by
  cases name with
  | unknown =>
    show ((strfind (CStr.ofString "<unknown>").bytes (char ':') : Nat) : Int) = 9
    decide
  | strx n =>
    obtain ⟨k, hk⟩ := h
    have hmem : 0 ∈ stabstr.drop n := List.mem_iff_getElem?.mpr ⟨k, by simpa using hk⟩
    obtain ⟨hend, hfront⟩ := strfind_spec (char ':') (stabstr.drop n) hmem
    simp only [List.getElem?_drop] at hend hfront
    exact ⟨_, rfl, hend, hfront⟩

/-! ## The steps -/

/-- The entries that name a source file: an `N_SOL`, or an `N_SO` with an address. -/
def IsSource (stabs : List Stab) (i : Int) : Prop :=
  ∃ s, stabEntry stabs i = some s ∧ (s.n_type = N_SOL ∨ (s.n_type = N_SO ∧ s.n_value ≠ 0))

/-- The name of the last source entry in `[lfile, lline]`. -/
def SourceName (stabs : List Stab) (stabstr : List Byte) (lfile lline : Int)
    (name : DebugName) : Prop :=
  (∃ j, IsLast (IsSource stabs) lfile lline j ∧ name = entryName stabs stabstr j) ∨
    ((∀ j, lfile ≤ j → j ≤ lline → ¬IsSource stabs j) ∧ name = .unknown)

theorem entryName_of_entry {i : Int} {s : Stab} (hs : stabEntry stabs i = some s) :
    entryName stabs stabstr i = nameAt stabstr s .unknown := by
  rw [entryName, hs]
  rfl

theorem eipFunction_found {info : Eipdebuginfo} (hname : info.eip_fn_name = .unknown)
    (hle : lfun ≤ rfun) (h0 : 0 ≤ lfun) (h1 : lfun < stabs.length) :
    eipFunction stabs stabstr addr lfile lfun rfun info =
      .ok ({ info with
        eip_fn_name := entryName stabs stabstr lfun
        eip_fn_addr := valueAt stabs lfun }, lfun) := by
  obtain ⟨s, hs⟩ := stabEntry_inside h0 h1
  rw [eipFunction, if_pos hle, stabAt_of_entry hs, entryName_of_entry hs, valueAt, hs, hname]
  rfl

/-- The walk down for the file's name. -/
theorem eipFile_spec {info : Eipdebuginfo} (hname : info.eip_file = .unknown) {lline : Int}
    (h0 : 0 ≤ lfile) (hle : lfile ≤ lline + 1) (hlen : lline < stabs.length) :
    ∃ name, eipFile stabs stabstr lfile lline info = .ok { info with eip_file := name } ∧
      SourceName stabs stabstr lfile lline name := by
  obtain ⟨j, hscan, hlow, hup, hbehind, hstop⟩ := @scanBack_spec stabs
    (fun s => ¬(s.n_type ≠ N_SOL ∧ (s.n_type ≠ N_SO ∨ s.n_value = 0)))
    (lline - lfile + 1).toNat lline (by omega) hlen
  have hnone : ∀ i, j < i → i ≤ lline → ¬IsSource stabs i := by
    rintro i hi hi' ⟨s, hs, hsource⟩
    have hgo := hbehind i s hi hi' hs
    simp only [decide_eq_false_iff_not, not_not] at hgo
    rcases hsource with hsol | ⟨hso, hvalue⟩
    · exact hgo.1 hsol
    · rcases hgo.2 with hne | hzero
      · exact hne hso
      · exact hvalue hzero
  rw [eipFile, hscan]
  simp only [Bind.bind, Except.bind]
  by_cases hge : j ≥ lfile
  · obtain ⟨s, hs, hmark⟩ := hstop (by omega)
    have hsource : IsSource stabs j := by
      refine ⟨s, hs, ?_⟩
      simp only [decide_eq_true_eq] at hmark
      by_cases hsol : s.n_type = N_SOL
      · exact Or.inl hsol
      · refine Or.inr ⟨?_, fun hzero => hmark ⟨hsol, Or.inr hzero⟩⟩
        by_contra hne
        exact hmark ⟨hsol, Or.inl hne⟩
    rw [if_pos hge, stabAt_of_entry hs]
    refine ⟨entryName stabs stabstr j, ?_, Or.inl ⟨j, ⟨hge, hup, hsource, hnone⟩, rfl⟩⟩
    rw [entryName_of_entry hs, hname]
  · rw [if_neg hge]
    refine ⟨.unknown, ?_, Or.inr ⟨fun i hi => hnone i (by omega), rfl⟩⟩
    rw [← hname]

/-- The counting loop, which stops in front of the right end. -/
theorem eipArgs_spec (info : Eipdebuginfo) (hnarg : info.eip_fn_narg = 0) (h0 : 0 ≤ lfun)
    (hle : lfun ≤ rfun) (hlen : rfun < stabs.length) :
    ∃ k, eipArgs stabs lfun rfun info = .ok { info with eip_fn_narg := k } ∧
      PsymRun stabs lfun (max lfun (rfun - 1)) k := by
  by_cases hlt : lfun < rfun
  · obtain ⟨k, hrun, hk⟩ := eipArgs_run h0 hlt hlen info
    rw [hnarg, Int.zero_add] at hrun
    exact ⟨k, hrun, by rwa [show max lfun (rfun - 1) = rfun - 1 by omega]⟩
  · refine ⟨0, ?_, Int.le_refl 0, by omega, fun i hi hi' => by omega, Or.inl (by omega)⟩
    rw [eipArgs, if_neg hlt, ← hnarg]

/-! ## Any table -/

theorem eipFunction_inTable (hstr : stabstr.getLast? = some 0) {info info' : Eipdebuginfo}
    {lline : Int} (hname : info.eip_fn_name.InTable stabstr)
    (h : eipFunction stabs stabstr addr lfile lfun rfun info = .ok (info', lline)) :
    info'.eip_fn_name.InTable stabstr ∧ info'.eip_file = info.eip_file := by
  unfold eipFunction at h
  split at h
  · obtain ⟨s, -, hs⟩ := bind_ok.mp h
    cases hs
    exact ⟨nameAt_inTable hstr s hname, rfl⟩
  · cases h
    exact ⟨hname, rfl⟩

/-- The walk for the file changes the file's name only. -/
theorem eipFile_inTable (hstr : stabstr.getLast? = some 0) {info info' : Eipdebuginfo}
    {lline : Int} (hfile : info.eip_file.InTable stabstr)
    (h : eipFile stabs stabstr lfile lline info = .ok info') :
    ∃ name : DebugName, name.InTable stabstr ∧ info' = { info with eip_file := name } := by
  obtain ⟨j, -, h⟩ := bind_ok.mp h
  split at h
  · obtain ⟨s, -, hs⟩ := bind_ok.mp h
    cases hs
    exact ⟨_, nameAt_inTable hstr s hfile, rfl⟩
  · cases h
    exact ⟨_, hfile, rfl⟩

theorem eipArgs_keeps {info info' : Eipdebuginfo}
    (h : eipArgs stabs lfun rfun info = .ok info') :
    ∃ narg, info' = { info with eip_fn_narg := narg } := by
  unfold eipArgs at h
  split at h
  · obtain ⟨narg, -, hs⟩ := bind_ok.mp h
    cases hs
    exact ⟨narg, rfl⟩
  · cases h
    exact ⟨_, rfl⟩

/-- The names of a report. -/
structure Eipdebuginfo.NamesInTable (info : Eipdebuginfo) (stabstr : List Byte) : Prop where
  file : info.eip_file.InTable stabstr
  fn_name : info.eip_fn_name.InTable stabstr
  fn_namelen : info.eip_fn_name.StopsAtColon stabstr info.eip_fn_namelen

theorem eipInFile_names (hstr : stabstr.getLast? = some 0) {info info' : Eipdebuginfo} {ret : Int}
    (hfile : info.eip_file.InTable stabstr) (hname : info.eip_fn_name.InTable stabstr)
    (h : eipInFile stabs stabstr addr lfile rfile info = .ok (ret, info')) :
    info'.NamesInTable stabstr := by
  obtain ⟨⟨l, r⟩, -, h⟩ := bind_ok.mp h
  obtain ⟨⟨info1, lline⟩, hfunction, h⟩ := bind_ok.mp h
  obtain ⟨info2, hwalk, h⟩ := bind_ok.mp h
  obtain ⟨info3, hargs, h⟩ := bind_ok.mp h
  cases h
  obtain ⟨hname1, hfile1⟩ := eipFunction_inTable hstr hname hfunction
  obtain ⟨name, hin, rfl⟩ := eipFile_inTable hstr (by rw [hfile1]; exact hfile) hwalk
  obtain ⟨narg, rfl⟩ := eipArgs_keeps hargs
  exact ⟨hin, hname1, length_stopsAtColon hname1⟩

/-- **Every name that `debuginfo_eip` returns is a string of the string table**, over any table. -/
theorem names_in_table {ret : Int} {info : Eipdebuginfo}
    (h : debuginfoEip stabs stabstr addr = .ok (ret, info)) : info.NamesInTable stabstr := by
  have hinit : Eipdebuginfo.NamesInTable ⟨.unknown, 0, .unknown, 9, addr, 0⟩ stabstr :=
    ⟨trivial, trivial, rfl⟩
  unfold debuginfoEip at h
  simp only at h
  split at h
  · cases h
  · split at h
    · cases h
      exact hinit
    · next hstr =>
      obtain ⟨⟨l, r⟩, -, h⟩ := bind_ok.mp h
      simp only at h
      split at h
      · cases h
        exact hinit
      · exact eipInFile_names (not_not.mp hstr) hinit.file hinit.fn_name h

/-- A file with one function of one parameter, behind the header that the linker puts first. -/
def mainTable : List Stab :=
  [⟨0, 0, 4⟩, ⟨1, N_SO, 0xf0100040⟩, ⟨8, N_FUN, 0xf0100040⟩, ⟨0, N_PSYM, 8⟩, ⟨0, 0x44, 0⟩]

/-- The names `main.c` and `f:F1`. -/
def mainNames : List Byte :=
  [0] ++ (CStr.ofString "main.c").bytes ++ [0] ++ (CStr.ofString "f:F1").bytes ++ [0]

theorem names_in_table_main :
    Eipdebuginfo.NamesInTable ⟨.strx 1, 0, .strx 8, 1, 0xf0100040, 1⟩ mainNames :=
  @names_in_table mainTable mainNames 0xf0100044 0 _ (by decide +kernel)

/-! ## A sorted table -/

/-- The file of the address, and in it the function of the address. -/
structure Located (stabs : List Stab) (addr : Word) (lfile rfile lfun rfun : Int) : Prop where
  file : FindsContaining stabs N_SO 0 (stabs.length - 1) addr lfile rfile
  function : FindsContaining stabs N_FUN lfile rfile addr lfun rfun

/-- The report of the function at `lfun`.  Its parameters are counted up to the entry in front of
    `rfun`. -/
structure Reports (stabs : List Stab) (stabstr : List Byte) (lfile lfun rfun : Int)
    (info : Eipdebuginfo) : Prop where
  fn_addr : info.eip_fn_addr = valueAt stabs lfun
  fn_name : info.eip_fn_name = entryName stabs stabstr lfun
  fn_narg : PsymRun stabs lfun (max lfun (rfun - 1)) info.eip_fn_narg
  file : SourceName stabs stabstr lfile lfun info.eip_file
  line : info.eip_line = 0
  names : info.NamesInTable stabstr

theorem brackets_unique {L R b left left' r r' : Int} {type : Byte}
    (h : Brackets (TypeIn stabs type L R) R b left r)
    (h' : Brackets (TypeIn stabs type L R) R b left' r') : left = left' ∧ r = r' := by
  refine ⟨h.left_eq.trans h'.left_eq.symm, ?_⟩
  have hr : r ≤ R := by
    rcases h.last with heq | hmark
    · omega
    · have := hmark.2.2
      omega
  have hr' : r' ≤ R := by
    rcases h'.last with heq | hmark
    · omega
    · have := hmark.2.2
      omega
  have hbehind := h.behind
  have hbehind' := h'.behind
  rcases Int.lt_trichotomy r r' with hlt | heq | hlt
  · exact absurd (h.last.resolve_left (by omega)) (h'.none _ (by omega) (by omega))
  · exact heq
  · exact absurd (h'.last.resolve_left (by omega)) (h.none _ (by omega) (by omega))

/-- A search that is not misled returns the entry that contains the address. -/
theorem stabBinsearch_contains {L R left right : Int} {type : Byte} (h0 : 0 ≤ L)
    (hR : R < stabs.length) (hinc : Increasing (TypeIn stabs type L R) (valueAt stabs))
    (hfinds : FindsContaining stabs type L R addr left right)
    (hstraight : ¬MisledSearch stabs type L R addr) :
    stabBinsearch stabs L R type addr = .ok (left, right) := by
  obtain ⟨hmark, hlow, hup⟩ := hfinds.entry
  have habove : ∀ i, TypeIn stabs type L R i → left < i → addr < valueAt stabs i := by
    intro i hi hlt
    by_contra hge
    have hkey := hinc left i hfinds.entry hi hlt
    have hmax := hfinds.largest i hi (by bv_omega)
    bv_omega
  obtain ⟨f, hends, hrun⟩ := @stabBinsearch_spec stabs type L R h0 (by omega) hR addr
  rw [misledSearch_iff hinc hfinds.entry hfinds.below habove] at hstraight
  have hsearch := ((hends.restrict (Int.le_refl L) (Int.le_refl R)).exact_iff hinc hfinds.entry
    hfinds.below hlow hup habove).mpr hstraight
  have hspec := (findsContaining_iff hinc hfinds.entry hfinds.below habove left right).mp hfinds
  obtain ⟨hleft, hright⟩ := brackets_unique hsearch hspec
  rw [hrun, bracket_found (found_of_typeIn hends hfinds.entry), hleft, hright]

/-- **For an address of a function the report is that of the function**, in a table whose files and
    functions are in order, for a file that is not the first entry, unless the raised address
    misleads one of the two searches. -/
theorem debuginfo_reports (haddr : ULIM ≤ addr) (hstr : stabstr.getLast? = some 0)
    (hloc : Located stabs addr lfile rfile lfun rfun) (hfirst : lfile ≠ 0)
    (hfiles : SortedSO stabs)
    (hfuns : Increasing (TypeIn stabs N_FUN lfile rfile) (valueAt stabs))
    (hfile : ¬MisledSearch stabs N_SO 0 (stabs.length - 1) addr)
    (hfun : ¬MisledSearch stabs N_FUN lfile rfile addr) :
    ∃ info, debuginfoEip stabs stabstr addr = .ok (0, info) ∧
      Reports stabs stabstr lfile lfun rfun info := by
  have hsorted : Increasing (TypeIn stabs N_SO 0 (stabs.length - 1)) (valueAt stabs) :=
    fun i j hi hj => hfiles i j hi.1 hj.1
  obtain ⟨-, hlow, hup⟩ := hloc.file.entry
  obtain ⟨hisFun, hfunLow, hfunUp⟩ := hloc.function.entry
  have hfileRun := stabBinsearch_contains (Int.le_refl 0) (by omega) hsorted hloc.file hfile
  have hrfile : rfile < stabs.length := by
    rcases hloc.file.next with heq | hmark
    · omega
    · have := hmark.2.2
      omega
  have hfunRun := stabBinsearch_contains hlow hrfile hfuns hloc.function hfun
  have hwithin := hloc.function.within
  have hrfun : rfun ≤ rfile := by
    rcases hloc.function.next with heq | hmark
    · omega
    · have := hmark.2.2
      omega
  have hfinds : FindsFunction stabs addr lfile rfile lfun rfun :=
    ⟨hfileRun, hfirst, hfunRun, hwithin, hisFun⟩
  -- the steps behind the searches
  have hstep := @eipFunction_found stabs stabstr addr lfile lfun rfun
    ⟨.unknown, 0, .unknown, 9, addr, 0⟩ rfl hwithin (by omega) (by omega)
  obtain ⟨name, hwalk, hsource⟩ := @eipFile_spec stabs stabstr lfile
    ⟨.unknown, 0, entryName stabs stabstr lfun, (entryName stabs stabstr lfun).length stabstr,
      valueAt stabs lfun, 0⟩ rfl lfun hlow (by omega) (by omega)
  obtain ⟨narg, hcount, hrun⟩ := @eipArgs_spec stabs lfun rfun
    ⟨name, 0, entryName stabs stabstr lfun, (entryName stabs stabstr lfun).length stabstr,
      valueAt stabs lfun, 0⟩ rfl (by omega) hwithin (by omega)
  have hunknown : DebugName.InTable stabstr .unknown := trivial
  have hreport : eipInFile stabs stabstr addr lfile rfile ⟨.unknown, 0, .unknown, 9, addr, 0⟩ =
      .ok (0, ⟨name, 0, entryName stabs stabstr lfun,
        (entryName stabs stabstr lfun).length stabstr, valueAt stabs lfun, narg⟩) := by
    rw [eipInFile, hfunRun]
    simp only [Bind.bind, Except.bind, hstep, hwalk, hcount]
  exact ⟨_, (debuginfoEip_of_finds haddr hstr hfinds).trans hreport, rfl, rfl, hrun, hsource, rfl,
    eipInFile_names hstr hunknown hunknown hreport⟩

/-- A type that one entry of the table has. -/
theorem mainTable_only {type : Byte} {b : Nat} {i : Int} (h : HasType mainTable type i)
    (hone : ∀ k, k < 5 → mainTable[k]?.map Stab.n_type = some type → k = b) : i = b := by
  obtain ⟨h0, h1⟩ := h.bounds
  obtain ⟨s, hs, htype⟩ := h
  rw [stabEntry, if_pos h0] at hs
  have hlen : (mainTable.length : Int) = 5 := rfl
  have := hone i.toNat (by omega) (by rw [hs, ← htype]; rfl)
  omega

theorem mainTable_file {i : Int} (h : HasType mainTable N_SO i) : i = 1 :=
  mainTable_only h (by decide)

theorem mainTable_function {i : Int} (h : HasType mainTable N_FUN i) : i = 2 :=
  mainTable_only h (by decide)

theorem mainTable_located : Located mainTable 0xf0100044 1 4 2 4 := by
  constructor
  · refine ⟨⟨⟨_, rfl, rfl⟩, by decide⟩, by decide, fun i hi _ => ?_, by decide, Or.inl rfl,
      fun i hlt _ hi => ?_⟩
    · rw [mainTable_file hi.1]
      exact BitVec.le_refl _
    · have := mainTable_file hi.1
      omega
  · refine ⟨⟨⟨_, rfl, rfl⟩, by decide⟩, by decide, fun i hi _ => ?_, by decide, Or.inl rfl,
      fun i hlt _ hi => ?_⟩
    · rw [mainTable_function hi.1]
      exact BitVec.le_refl _
    · have := mainTable_function hi.1
      omega

/-- An address behind the start of the function. -/
theorem debuginfo_reports_main :
    ∃ info, debuginfoEip mainTable mainNames 0xf0100044 = .ok (0, info) ∧
      Reports mainTable mainNames 1 2 4 info := by
  refine debuginfo_reports (by decide) (by decide) mainTable_located (by decide) ?_ ?_ ?_ ?_
  · intro i j hi hj hlt
    have := mainTable_file hi
    have := mainTable_file hj
    omega
  · intro i j hi hj hlt
    have := mainTable_function hi.1
    have := mainTable_function hj.1
    omega
  · rintro ⟨b, hb, heq, -⟩
    rw [mainTable_file hb.1] at heq
    exact absurd heq (by decide)
  · rintro ⟨b, hb, heq, -⟩
    rw [mainTable_function hb.1] at heq
    exact absurd heq (by decide)

end Jos
