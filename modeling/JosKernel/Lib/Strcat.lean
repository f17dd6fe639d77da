import JosKernel.Lib.Strlcpy

/-!
# Unbounded copies

`strlen`, `strcpy` and `strcat` of `lib/string.c` over the memory of `Strlcpy.lean`.  Nothing
bounds their loops but the terminator of the string.

`strcpy` works upwards, so the destination may overlap the source from below.  A destination
inside the source makes it overwrite the terminator before it comes to it, and from then on it
copies its own output: it never returns.

* `strcpyLoop_ran`, `strcpyLoop_none` — the two cases.
* `strcat_returns_iff` — `strcat` returns exactly in the first one, and then the string at the
  destination is the two strings together.
-/

set_option autoImplicit false

namespace Jos

open AccessLog

/-- `for (n = 0; *s != '\0'; s++) n++;` -/
def strlenLoop : Nat → Word → Int → Traced Word Byte → Option (Int × Traced Word Byte)
  | 0, _, _, _ => none
  | fuel + 1, s, n, m =>
      let (c, m) := m.load s
      if c ≠ 0 then strlenLoop fuel (s + 1#32) (int32 (n + 1)) m else some (n, m)

def strlen (fuel : Nat) (s : Word) (m : Traced Word Byte) : Option (Int × Traced Word Byte) :=
  strlenLoop fuel s 0 m

/-- `while ((*dst++ = *src++) != '\0');` -/
def strcpyLoop : Nat → Word → Word → Traced Word Byte → Option (Traced Word Byte)
  | 0, _, _, _ => none
  | fuel + 1, dst, src, m =>
      let (c, m) := m.load src
      let m := m.store dst c
      if c ≠ 0 then strcpyLoop fuel (dst + 1#32) (src + 1#32) m else some m

def strcpy (fuel : Nat) (dst src : Word) (m : Traced Word Byte) :
    Option (Word × Traced Word Byte) := do
  let ret := dst
  let m ← strcpyLoop fuel dst src m
  some (ret, m)

def strcat (fuel : Nat) (dst src : Word) (m : Traced Word Byte) :
    Option (Word × Traced Word Byte) := do
  let (len, m) ← strlen fuel dst m
  let (_, m) ← strcpy fuel (dst + BitVec.ofInt 32 len) src m
  some (dst, m)

/-- `D` is the place of one of the `n` cells behind `S`. -/
def PointsInto (D S : Word) (n : Nat) : Prop := 0 < (D - S).toNat ∧ (D - S).toNat ≤ n

/-! ## A string in memory -/

theorem next_addr (p : Word) (k : Nat) :
    p + 1#32 + BitVec.ofNat 32 k = p + BitVec.ofNat 32 (k + 1) := by
  rw [BitVec.add_assoc, BitVec.add_comm 1#32, BitVec.ofNat_add]

theorem mem_block : ∀ {bs : List Byte} (p : Word) {i : Nat} (h : i < bs.length),
    (p + BitVec.ofNat 32 i, bs[i]) ∈ block p bs
  | b :: bs, p, 0, _ => by
    rw [BitVec.add_zero]
    exact List.mem_cons_self
  | b :: bs, p, i + 1, h => by
    have hrest := mem_block (p + 1#32) (show i < bs.length by simpa using h)
    rw [next_addr] at hrest
    exact List.mem_cons_of_mem _ hrest

theorem BytesAt.get {mem : Word → Byte} {p : Word} {bs : List Byte} (h : BytesAt mem p bs)
    {i : Nat} (hi : i < bs.length) : mem (p + BitVec.ofNat 32 i) = bs[i] :=
  h _ (mem_block p hi)

/-- A string and its terminator are not longer than the memory. -/
theorem BytesAt.fits {mem : Word → Byte} {S : Word} {s : List Byte} (hs : (0 : Byte) ∉ s)
    (h : BytesAt mem S (s ++ [0])) : s.length < 4294967296 := by
  by_contra hlong
  -- the terminator would be a byte of the string again
  have hwrap : BitVec.ofNat 32 s.length = BitVec.ofNat 32 (s.length - 4294967296) := by
    refine BitVec.eq_of_toNat_eq ?_
    rw [BitVec.toNat_ofNat, BitVec.toNat_ofNat]
    omega
  have hend := h.get (show s.length < (s ++ [0]).length by simp)
  have hbyte := h.get (show s.length - 4294967296 < (s ++ [0]).length by
    rw [List.length_append]
    omega)
  rw [List.getElem_append_right (Nat.le_refl _), List.getElem_singleton] at hend
  rw [List.getElem_append_left (by omega), ← hwrap, hend] at hbyte
  exact hs (hbyte ▸ List.getElem_mem _)

/-! ## The loops -/

theorem strlenLoop_ran : ∀ (S : Word) {s : List Byte} {n : Int} {m : Traced Word Byte},
    (0 : Byte) ∉ s → BytesAt m.mem S (s ++ [0]) → IsInt32 n →
    ∃ m', (∀ fuel, strlenLoop fuel S n m =
        if s.length < fuel then some (int32 (n + s.length), m') else none) ∧
      Ran (· ∈ addrs S (s.length + 1)) [] m m'
  | S, [], n, m, _, hsrc, hn => by
    have hzero : m.mem S = 0 := (bytesAt_cons.1 hsrc).1
    refine ⟨(m.load S).2, fun fuel => ?_, Ran.load List.mem_cons_self m⟩
    cases fuel with
    | zero => rfl
    | succ fuel =>
      rw [List.length_nil, if_pos (Nat.succ_pos fuel), Int.natCast_zero, Int.add_zero,
        int32_of_range hn]
      exact if_neg (not_not.2 hzero)
  | S, b :: s, n, m, hs, hsrc, hn => by
    obtain ⟨hb, hrest⟩ := bytesAt_cons.1 hsrc
    obtain ⟨m', hrun, hran⟩ := @strlenLoop_ran (S + 1#32) s (int32 (n + 1)) (m.load S).2
      (nul_free_tail hs) hrest (int32_isInt32 _)
    have hS : S ∈ addrs S (s.length + 2) := List.mem_cons_self
    refine ⟨m', fun fuel => ?_,
      (Ran.load hS m).trans (hran.mono fun a => List.mem_cons_of_mem S)⟩
    cases fuel with
    | zero => rfl
    | succ fuel =>
      have hmore : strlenLoop (fuel + 1) S n m =
          strlenLoop fuel (S + 1#32) (int32 (n + 1)) (m.load S).2 :=
        if_pos (hb ▸ ne_zero_of_nul_free hs)
      have hcount : int32 (int32 (n + 1) + s.length) = int32 (n + (b :: s).length) := by
        rw [int32_add_left, List.length_cons]
        congr 1
        omega
      rw [hmore, hrun, hcount, List.length_cons]
      simp only [Nat.add_lt_add_iff_right]

/-- Outside the source the loop copies the string and its terminator. -/
theorem strcpyLoop_ran : ∀ (D S : Word) {s : List Byte} {m : Traced Word Byte},
    (0 : Byte) ∉ s → BytesAt m.mem S (s ++ [0]) → ¬PointsInto D S s.length →
    ∃ m', (∀ fuel, strcpyLoop fuel D S m = if s.length < fuel then some m' else none) ∧
      Ran (· ∈ addrs S (s.length + 1)) (block D (s ++ [0])) m m'
  | D, S, [], m, _, hsrc, _ => by
    have hzero : m.mem S = 0 := (bytesAt_cons.1 hsrc).1
    have hran := (Ran.load (show S ∈ addrs S 1 from List.mem_cons_self) m).trans
      (Ran.store _ (m.load S).2 D (m.mem S))
    have hcell : block D ([] ++ [0]) = [] ++ [(D, m.mem S)] := by
      rw [hzero]
      rfl
    refine ⟨(m.load S).2.store D (m.mem S), fun fuel => ?_, by rw [hcell]; exact hran⟩
    cases fuel with
    | zero => rfl
    | succ fuel =>
      rw [List.length_nil, if_pos (Nat.succ_pos fuel)]
      exact if_neg (not_not.2 hzero)
  | D, S, b :: s, m, hs, hsrc, hout => by
    obtain ⟨hb, hrest⟩ := bytesAt_cons.1 hsrc
    have hlen : s.length + 1 < 4294967296 := hsrc.fits hs
    -- the byte that is stored is not one that is still to be read
    have hD : D ∉ addrs (S + 1#32) (s ++ [0]).length := by
      rw [mem_addrs, List.length_append, List.length_singleton]
      unfold PointsInto at hout
      rw [List.length_cons] at hout
      bv_omega
    have hnext : ¬PointsInto (D + 1#32) (S + 1#32) s.length := by
      unfold PointsInto at hout ⊢
      rw [List.length_cons] at hout
      bv_omega
    have hsrc' : BytesAt ((m.load S).2.store D (m.mem S)).mem (S + 1#32) (s ++ [0]) :=
      hrest.update hD _
    obtain ⟨m', hrun, hran⟩ := strcpyLoop_ran (D + 1#32) (S + 1#32) (nul_free_tail hs) hsrc' hnext
    have hround := (Ran.load (show S ∈ addrs S (s.length + 2) from List.mem_cons_self) m).trans
      (Ran.store _ (m.load S).2 D (m.mem S))
    refine ⟨m', fun fuel => ?_, ?_⟩
    · cases fuel with
      | zero => rfl
      | succ fuel =>
        have hmore : strcpyLoop (fuel + 1) D S m = strcpyLoop fuel (D + 1#32) (S + 1#32)
            ((m.load S).2.store D (m.mem S)) := if_pos (hb ▸ ne_zero_of_nul_free hs)
        rw [hmore, hrun, List.length_cons]
        simp only [Nat.add_lt_add_iff_right]
    · rw [hb] at hround hran
      exact hround.trans (hran.mono fun a => List.mem_cons_of_mem S)

/-- A destination behind non-zero bytes that start at the source: the loop never ends. -/
theorem strcpyLoop_none : ∀ (fuel : Nat) {D S : Word} {m : Traced Word Byte}, D ≠ S →
    (∀ a, (a - S).toNat < (D - S).toNat → m.mem a ≠ 0) → strcpyLoop fuel D S m = none
  | 0, _, _, _, _, _ => rfl
  | fuel + 1, D, S, m, hne, hnz => by
    have hS : m.mem S ≠ 0 := hnz S (by bv_omega)
    have hmore : strcpyLoop (fuel + 1) D S m = strcpyLoop fuel (D + 1#32) (S + 1#32)
        ((m.load S).2.store D (m.mem S)) := if_pos hS
    rw [hmore]
    refine strcpyLoop_none fuel (by bv_omega) fun a ha => ?_
    show Function.update m.mem D (m.mem S) a ≠ 0
    by_cases heq : a = D
    · rw [heq, Function.update_self]
      exact hS
    · rw [Function.update_of_ne heq]
      exact hnz a (by bv_omega)

/-! ## The routines -/

section

variable {D S : Word} {s t : CStr} {m : Traced Word Byte}

theorem CStr.nul_at {mem : Word → Byte} (h : BytesAt mem S s.cells) :
    mem (S + BitVec.ofNat 32 s.bytes.length) = 0 := by
  have hend := h.get (show s.bytes.length < s.cells.length by
    rw [CStr.cells, List.length_append]
    exact Nat.lt_succ_self _)
  rw [hend]
  simp only [CStr.cells, List.getElem_append_right (Nat.le_refl _), List.getElem_singleton]

theorem CStr.ne_nul_at {mem : Word → Byte} (h : BytesAt mem S s.cells) {i : Nat}
    (hi : i < s.bytes.length) : mem (S + BitVec.ofNat 32 i) ≠ 0 := by
  have hbyte := h.get (show i < s.cells.length by
    rw [CStr.cells, List.length_append]
    omega)
  rw [hbyte]
  intro hzero
  simp only [CStr.cells, List.getElem_append_left hi] at hzero
  exact s.nul_free (hzero ▸ List.getElem_mem _)

/-- **`strcpy`** copies the string, unless the destination is inside it: then it does not
    return. -/
theorem strcpy_cases (hsrc : BytesAt m.mem S s.cells) :
    (¬PointsInto D S s.bytes.length ∧ ∃ m', Copied D S s s.cells.length s.cells m m' ∧
      ∀ fuel, strcpy fuel D S m = if s.bytes.length < fuel then some (D, m') else none) ∨
    (PointsInto D S s.bytes.length ∧ ∀ fuel, strcpy fuel D S m = none) := by
  by_cases hin : PointsInto D S s.bytes.length
  · refine Or.inr ⟨hin, fun fuel => ?_⟩
    have hloop : strcpyLoop fuel D S m = none := by
      refine strcpyLoop_none fuel (fun heq => ?_) fun a ha => ?_
      · have hpos := hin.1
        rw [heq, BitVec.sub_self] at hpos
        exact absurd hpos (by decide)
      · have hlt : (a - S).toNat < s.bytes.length := Nat.lt_of_lt_of_le ha hin.2
        have haddr : S + BitVec.ofNat 32 (a - S).toNat = a := by bv_omega
        exact haddr ▸ CStr.ne_nul_at hsrc hlt
    rw [strcpy, hloop]
    rfl
  · obtain ⟨m', hrun, hran⟩ := strcpyLoop_ran D S s.nul_free hsrc hin
    have hfits : s.cells.length ≤ 4294967296 := by
      have := hsrc.fits s.nul_free
      rw [CStr.cells, List.length_append, List.length_singleton]
      omega
    refine Or.inl ⟨hin, m', Copied.of_ran hfits hran, fun fuel => ?_⟩
    rw [strcpy, hrun]
    split
    · rfl
    · rfl

theorem strlen_ran (hsrc : BytesAt m.mem S s.cells) :
    ∃ m', (∀ fuel, strlen fuel S m =
        if s.bytes.length < fuel then some (int32 s.bytes.length, m') else none) ∧
      Ran (· ∈ addrs S (s.bytes.length + 1)) [] m m' := by
  have hzero : IsInt32 0 := by
    unfold IsInt32
    omega
  obtain ⟨m', hrun, hran⟩ := strlenLoop_ran S s.nul_free hsrc hzero
  refine ⟨m', fun fuel => ?_, hran⟩
  rw [strlen, hrun, Int.zero_add]

/-- The string at `D` behind `strcat`, and what was read and stored for it. -/
structure Appended (D S : Word) (t s : CStr) (m m' : Traced Word Byte) : Prop where
  string : BytesAt m'.mem D (t.bytes ++ s.cells)
  writes : m'.writes = m.writes ++ block (D + BitVec.ofNat 32 t.bytes.length) s.cells
  reads : ∃ rs, m'.reads = m.reads ++ rs ∧
    ∀ a ∈ rs, a ∈ addrs D (t.bytes.length + 1) ∨ a ∈ addrs S (s.bytes.length + 1)
  others : ∀ a, a ∉ addrs (D + BitVec.ofNat 32 t.bytes.length) s.cells.length →
    m'.mem a = m.mem a

/-- The end of a string, from its length as an `int`. -/
theorem ofInt_length (n : Nat) : BitVec.ofInt 32 (int32 n) = BitVec.ofNat 32 n := by
  refine BitVec.eq_of_toNat_eq ?_
  have hmod := int32_emod n
  rw [BitVec.toNat_ofInt, BitVec.toNat_ofNat]
  omega

/-- Two strings that are longer than the memory together share their end. -/
theorem lengths_fit {mem : Word → Byte} (hdst : BytesAt mem D t.cells)
    (hsrc : BytesAt mem S s.cells)
    (hout : ¬PointsInto (D + BitVec.ofNat 32 t.bytes.length) S s.bytes.length) :
    t.bytes.length + s.bytes.length < 4294967296 := by
  by_contra hlong
  have ht : t.bytes.length < 4294967296 := hdst.fits t.nul_free
  have hs : s.bytes.length < 4294967296 := hsrc.fits s.nul_free
  have hend := CStr.nul_at hdst
  rcases Nat.eq_zero_or_pos (D + BitVec.ofNat 32 t.bytes.length - S).toNat with hat | hbehind
  · -- the second string starts at the end of the first, so it is empty
    have hS : D + BitVec.ofNat 32 t.bytes.length = S + BitVec.ofNat 32 0 := by bv_omega
    rw [hS] at hend
    exact CStr.ne_nul_at hsrc (by omega) hend
  · -- the end of the second string is a byte of the first
    have hfar : s.bytes.length < (D + BitVec.ofNat 32 t.bytes.length - S).toNat := by
      unfold PointsInto at hout
      omega
    obtain ⟨i, hi⟩ : ∃ i, i + (D + BitVec.ofNat 32 t.bytes.length - S).toNat =
        t.bytes.length + s.bytes.length := ⟨_, Nat.sub_add_cancel (by omega)⟩
    have hF : S + BitVec.ofNat 32 s.bytes.length = D + BitVec.ofNat 32 i := by bv_omega
    exact CStr.ne_nul_at hdst (show i < t.bytes.length by omega) (hF ▸ CStr.nul_at hsrc)

/-- The copy behind the first string leaves that string. -/
theorem Appended.of_copied {m₁ m₂ : Traced Word Byte} (hdst : BytesAt m.mem D t.cells)
    (hfits : t.bytes.length + s.bytes.length < 4294967296)
    (hran : Ran (· ∈ addrs D (t.bytes.length + 1)) [] m m₁)
    (h : Copied (D + BitVec.ofNat 32 t.bytes.length) S s s.cells.length s.cells m₁ m₂) :
    Appended D S t s m m₂ := by
  have hmem : m₁.mem = m.mem := hran.mem
  have hcells : s.cells.length = s.bytes.length + 1 := by
    rw [CStr.cells, List.length_append, List.length_singleton]
  constructor
  case string =>
    intro w hw
    rw [block_append, List.mem_append] at hw
    rcases hw with hfirst | hsecond
    · have haddr : w.1 ∈ addrs D t.bytes.length := by
        rw [← block_addrs]
        exact List.mem_map_of_mem hfirst
      rw [h.others w.1 ?_, hmem]
      · exact hdst.front w hfirst
      · rw [mem_addrs] at haddr ⊢
        rw [hcells]
        bv_omega
    · exact h.stored w hsecond
  case writes => rw [h.writes, hran.writes, List.append_nil]
  case reads =>
    obtain ⟨rs, hrs, hin⟩ := hran.reads
    obtain ⟨rs', hrs', hin'⟩ := h.reads
    refine ⟨rs ++ rs', by rw [hrs', hrs, List.append_assoc], fun a ha => ?_⟩
    rcases List.mem_append.1 ha with ha | ha
    · exact Or.inl (hin a ha)
    · exact Or.inr (hin' a ha)
  case others =>
    intro a ha
    rw [h.others a ha, hmem]

/-- **`strcat` returns exactly if the end of the first string is not inside the second**, and
    then the first is followed by the second. -/
theorem strcat_returns_iff (hdst : BytesAt m.mem D t.cells) (hsrc : BytesAt m.mem S s.cells) :
    ((∃ fuel r, strcat fuel D S m = some r) ↔
      ¬PointsInto (D + BitVec.ofNat 32 t.bytes.length) S s.bytes.length) ∧
    ∀ fuel r, strcat fuel D S m = some r → r.1 = D ∧ Appended D S t s m r.2 := by
  obtain ⟨m₁, hlen, hran₁⟩ := strlen_ran hdst
  have hmem : m₁.mem = m.mem := hran₁.mem
  have hsrc₁ : BytesAt m₁.mem S s.cells := by rwa [hmem]
  have hcall : ∀ fuel, t.bytes.length < fuel → strcat fuel D S m =
      (strcpy fuel (D + BitVec.ofNat 32 t.bytes.length) S m₁).map fun r => (D, r.2) := by
    intro fuel hfuel
    rw [strcat, hlen, if_pos hfuel]
    simp only [Option.bind_eq_bind, Option.bind_some, ofInt_length]
    cases strcpy fuel (D + BitVec.ofNat 32 t.bytes.length) S m₁ with
    | none => rfl
    | some r => rfl
  have hshort : ∀ fuel, ¬t.bytes.length < fuel → strcat fuel D S m = none := by
    intro fuel hfuel
    rw [strcat, hlen, if_neg hfuel]
    rfl
  rcases @strcpy_cases (D + BitVec.ofNat 32 t.bytes.length) S s m₁ hsrc₁ with
    ⟨hout, m₂, hcopied, hrun⟩ | ⟨hin, hnone⟩
  · have happended := Appended.of_copied hdst (lengths_fit hdst hsrc hout) hran₁ hcopied
    have hreturn : strcat (max t.bytes.length s.bytes.length + 1) D S m = some (D, m₂) := by
      rw [hcall _ (by omega), hrun, if_pos (by omega)]
      rfl
    refine ⟨iff_of_true ⟨_, _, hreturn⟩ hout, fun fuel r hr => ?_⟩
    by_cases hfuel : t.bytes.length < fuel
    · rw [hcall fuel hfuel, hrun] at hr
      split at hr
      · cases hr
        exact ⟨rfl, happended⟩
      · cases hr
    · rw [hshort fuel hfuel] at hr
      cases hr
  · have hnever : ∀ fuel, strcat fuel D S m = none := by
      intro fuel
      by_cases hfuel : t.bytes.length < fuel
      · rw [hcall fuel hfuel, hnone]
        rfl
      · exact hshort fuel hfuel
    refine ⟨iff_of_false ?_ (not_not.2 hin), fun fuel r hr => ?_⟩
    · rintro ⟨fuel, r, hr⟩
      rw [hnever] at hr
      cases hr
    · rw [hnever] at hr
      cases hr

end

/-- A memory with two strings, `ab` at 16 and `c` at 32. -/
def twoStrings : Traced Word Byte :=
  ⟨fun a => if a = 16 then 0x61 else if a = 17 then 0x62 else if a = 32 then 0x63 else 0, [], []⟩

theorem strcat_returns_iff_twice :
    (∃ fuel r, strcat fuel 16 32 twoStrings = some r) ∧
      ¬∃ fuel r, strcat fuel 16 16 twoStrings = some r := by
  have hab : BytesAt twoStrings.mem 16 (CStr.ofString "ab").cells :=
    bytesAt_cons.2 ⟨rfl, bytesAt_cons.2 ⟨rfl, bytesAt_cons.2 ⟨rfl, nofun⟩⟩⟩
  have hc : BytesAt twoStrings.mem 32 (CStr.ofString "c").cells :=
    bytesAt_cons.2 ⟨rfl, bytesAt_cons.2 ⟨rfl, nofun⟩⟩
  constructor
  · exact (strcat_returns_iff hab hc).1.mpr (by unfold PointsInto; decide)
  · exact fun h => (strcat_returns_iff hab hab).1.mp h (by unfold PointsInto; decide)

end Jos
