import JosKernel.Debug.Kdebug
import JosKernel.Lib.Strcat

/-!
# Searching memory

`strchr`, `strfind` and `memfind` of `lib/string.c` over the memory of `Strlcpy.lean`.  The other
modules use the first two on the bytes of a string; here they follow pointers.

* `strfindAt_ran`, `memfindLoop_ran` — what the loops return and read; `strchrAt_eq` — the loop of
  `strchr` is that of `strfind`.
* `searches_agree` — for a string in memory the three routines point to the same byte, which is the
  one that `strfind` and `strchr` count.
-/

set_option autoImplicit false

namespace Jos

open AccessLog

/-- `for (; *s; s++) if (*s == c) break; return s;` -/
def strfindAt : Nat → Word → Byte → Traced Word Byte → Option (Word × Traced Word Byte)
  | 0, _, _, _ => none
  | fuel + 1, s, c, m =>
      let (b, m) := m.load s
      if b = 0 then some (s, m)
      else
        let (b, m) := m.load s
        if b = c then some (s, m) else strfindAt fuel (s + 1#32) c m

/-- `for (; *s; s++) if (*s == c) return s; return 0;` -/
def strchrAt : Nat → Word → Byte → Traced Word Byte → Option (Word × Traced Word Byte)
  | 0, _, _, _ => none
  | fuel + 1, s, c, m =>
      let (b, m) := m.load s
      if b = 0 then some (0#32, m)
      else
        let (b, m) := m.load s
        if b = c then some (s, m) else strchrAt fuel (s + 1#32) c m

/-- `for (; s < ends; s++) if (*s == (unsigned char) c) break;` with `n` rounds at most. -/
def memfindLoop : Nat → Word → Word → Byte → Traced Word Byte → Word × Traced Word Byte
  | 0, s, _, _, m => (s, m)
  | n + 1, s, ends, c, m =>
      if s < ends then
        let (b, m) := m.load s
        if b = c then (s, m) else memfindLoop n (s + 1#32) ends c m
      else (s, m)

def memfind (s c n : Word) (m : Traced Word Byte) : Word × Traced Word Byte :=
  memfindLoop n.toNat s (s + n) (c.setWidth 8) m

/-- The number of bytes in front of the first `c`. -/
def before (c : Byte) (bs : List Byte) : Nat := (bs.takeWhile fun b => b ≠ c).length

theorem before_cons_eq (c : Byte) (bs : List Byte) : before c (c :: bs) = 0 := by
  simp [before]

theorem before_cons_ne {b c : Byte} (h : b ≠ c) (bs : List Byte) :
    before c (b :: bs) = before c bs + 1 := by
  simp [before, h]

/-! ## The loops -/

theorem strfindAt_ran : ∀ (S : Word) (c : Byte) {s : List Byte} {m : Traced Word Byte},
    (0 : Byte) ∉ s → BytesAt m.mem S (s ++ [0]) → ∃ m', (∀ fuel, s.length < fuel →
      strfindAt fuel S c m = some (S + BitVec.ofNat 32 (before c s), m')) ∧
      Ran (· ∈ addrs S (s.length + 1)) [] m m'
  | S, c, [], m, _, hsrc => by
    have hzero : m.mem S = 0 := (bytesAt_cons.1 hsrc).1
    refine ⟨(m.load S).2, fun fuel hfuel => ?_, Ran.load List.mem_cons_self m⟩
    obtain ⟨rest, rfl⟩ := Nat.exists_eq_add_of_lt hfuel
    have hhere : S + BitVec.ofNat 32 (before c []) = S := BitVec.add_zero S
    rw [hhere, List.length_nil, Nat.zero_add]
    exact if_pos hzero
  | S, c, b :: s, m, hs, hsrc => by
    obtain ⟨hb, hrest⟩ := bytesAt_cons.1 hsrc
    have hne : m.mem S ≠ 0 := hb ▸ ne_zero_of_nul_free hs
    have hS : S ∈ addrs S (s.length + 2) := List.mem_cons_self
    have hround := (Ran.load hS m).trans (Ran.load hS (m.load S).2)
    by_cases hc : b = c
    · refine ⟨((m.load S).2.load S).2, fun fuel hfuel => ?_, hround⟩
      obtain ⟨rest, rfl⟩ := Nat.exists_eq_add_of_lt hfuel
      rw [← hc, before_cons_eq, BitVec.add_zero]
      exact (if_neg hne).trans (if_pos (hb.trans hc ▸ hb))
    · obtain ⟨m', hrun, hran⟩ := @strfindAt_ran (S + 1#32) c s ((m.load S).2.load S).2
        (nul_free_tail hs) hrest
      refine ⟨m', fun fuel hfuel => ?_,
        hround.trans (hran.mono fun a => List.mem_cons_of_mem S)⟩
      obtain ⟨rest, rfl⟩ := Nat.exists_eq_add_of_lt hfuel
      rw [before_cons_ne hc, ← next_addr, ← hrun _ (show s.length < (b :: s).length + rest by
        rw [List.length_cons]; omega)]
      exact (if_neg hne).trans (if_neg (by rw [← hb] at hc; exact hc))

/-- `strchr` is `strfind` with the null pointer for the terminator. -/
theorem strchrAt_eq : ∀ (fuel : Nat) (S : Word) (c : Byte) (m : Traced Word Byte),
    strchrAt fuel S c m =
      (strfindAt fuel S c m).map fun r => (if m.mem r.1 = 0 then 0#32 else r.1, r.2)
  | 0, _, _, _ => rfl
  | fuel + 1, S, c, m => by
    have hrest := strchrAt_eq fuel (S + 1#32) c ((m.load S).2.load S).2
    have hchr : strchrAt (fuel + 1) S c m =
        if m.mem S = 0 then some (0#32, (m.load S).2)
        else if m.mem S = c then some (S, ((m.load S).2.load S).2)
        else strchrAt fuel (S + 1#32) c ((m.load S).2.load S).2 := rfl
    have hfind : strfindAt (fuel + 1) S c m =
        if m.mem S = 0 then some (S, (m.load S).2)
        else if m.mem S = c then some (S, ((m.load S).2.load S).2)
        else strfindAt fuel (S + 1#32) c ((m.load S).2.load S).2 := rfl
    rw [hchr, hfind]
    by_cases hzero : m.mem S = 0
    · rw [if_pos hzero, if_pos hzero, Option.map_some, if_pos hzero]
    · rw [if_neg hzero, if_neg hzero]
      by_cases hc : m.mem S = c
      · rw [if_pos hc, if_pos hc, Option.map_some, if_neg hzero]
      · rw [if_neg hc, if_neg hc]
        exact hrest

theorem memfindLoop_ran : ∀ (S ends : Word) (c : Byte) {bs : List Byte} {m : Traced Word Byte},
    BytesAt m.mem S bs → S.toNat + bs.length = ends.toNat →
    ∃ m', memfindLoop bs.length S ends c m = (S + BitVec.ofNat 32 (before c bs), m') ∧
      Ran (· ∈ addrs S bs.length) [] m m'
  | S, _, _, [], m, _, _ => by
    refine ⟨m, ?_, Ran.refl _ m⟩
    rw [show before _ [] = 0 from rfl, BitVec.add_zero]
    rfl
  | S, ends, c, b :: bs, m, hsrc, hends => by
    obtain ⟨hb, hrest⟩ := bytesAt_cons.1 hsrc
    rw [List.length_cons] at hends ⊢
    have hlt : S < ends := by bv_omega
    have hS : S ∈ addrs S (bs.length + 1) := List.mem_cons_self
    by_cases hc : b = c
    · refine ⟨(m.load S).2, ?_, Ran.load hS m⟩
      rw [← hc, before_cons_eq, BitVec.add_zero, memfindLoop, if_pos hlt]
      exact if_pos hb
    · obtain ⟨m', hrun, hran⟩ := @memfindLoop_ran (S + 1#32) ends c bs (m.load S).2 hrest
        (by bv_omega)
      refine ⟨m', ?_, (Ran.load hS m).trans (hran.mono fun a => List.mem_cons_of_mem S)⟩
      rw [before_cons_ne hc, ← next_addr, ← hrun, memfindLoop, if_pos hlt]
      exact if_neg (by rw [← hb] at hc; exact hc)

/-! ## The bytes of a string -/

theorem before_le (c : Byte) (bs : List Byte) : before c bs ≤ bs.length :=
  (List.takeWhile_prefix _).length_le

theorem not_mem_take_before (c : Byte) : ∀ bs : List Byte, c ∉ bs.take (before c bs)
  | [] => List.not_mem_nil
  | b :: bs => by
    by_cases hc : b = c
    · rw [← hc, before_cons_eq]
      exact List.not_mem_nil
    · rw [before_cons_ne hc, List.take_succ_cons, List.mem_cons, not_or]
      exact ⟨fun h => hc h.symm, not_mem_take_before c bs⟩

theorem getElem_before (c : Byte) : ∀ (bs : List Byte) (h : before c bs < bs.length),
    bs[before c bs] = c
  | b :: bs, h => by
    by_cases hc : b = c
    · subst hc
      simp only [before_cons_eq, List.getElem_cons_zero]
    · simp only [before_cons_ne hc, List.getElem_cons_succ]
      rw [before_cons_ne hc, List.length_cons] at h
      exact getElem_before c bs (Nat.lt_of_succ_lt_succ h)

theorem strfind_cells (c : Byte) : ∀ s : List Byte, (0 : Byte) ∉ s →
    strfind (s ++ [0]) c = before c s
  | [], _ => strfind_cons_stop (fun h => h.1 rfl) []
  | b :: s, hs => by
    rw [List.cons_append]
    by_cases hc : b = c
    · rw [← hc, before_cons_eq, strfind_cons_stop fun h => h.2 rfl]
    · rw [strfind_cons_go ⟨ne_zero_of_nul_free hs, hc⟩, strfind_cells c s (nul_free_tail hs),
        before_cons_ne hc]

theorem strchrLoop_eq : ∀ (s : List Byte) (c : Byte) (i : Nat),
    strchrLoop s c i = if before c s < s.length then some (i + before c s) else none
  | [], _, _ => rfl
  | b :: s, c, i => by
    rw [strchrLoop, strchrLoop_eq s c (i + 1), List.length_cons]
    by_cases hc : b = c
    · rw [if_pos hc, ← hc, before_cons_eq, if_pos (Nat.succ_pos _)]
      rfl
    · have hnext : i + 1 + before c s = i + (before c s + 1) := by omega
      rw [if_neg hc, before_cons_ne hc, hnext]
      simp only [Nat.add_lt_add_iff_right]

/-- **The three searches agree**: in a string that starts at `S` they stop at the same byte, the
    `k`th, which is the first that is `c`, or the terminator where no byte is; there `strchr`
    returns the null pointer.  They read the string alone and store nothing.  `memfind` compares
    addresses, so its bytes must not go around the end of memory. -/
theorem searches_agree {S : Word} {s : CStr} {m : Traced Word Byte}
    (hsrc : BytesAt m.mem S s.cells) (c : Byte) :
    ∃ k ≤ s.bytes.length, c ∉ s.bytes.take k ∧
      (∀ h : k < s.bytes.length, s.bytes[k] = c) ∧
      strfind s.cells c = k ∧
      strchr s c = (if k < s.bytes.length then some k else none) ∧
      (∃ m', Ran (· ∈ addrs S (s.bytes.length + 1)) [] m m' ∧
        ∀ fuel, s.bytes.length < fuel →
          strfindAt fuel S c m = some (S + BitVec.ofNat 32 k, m') ∧
          strchrAt fuel S c m =
            some (if k < s.bytes.length then S + BitVec.ofNat 32 k else 0#32, m')) ∧
      ∀ ch n : Word, ch.setWidth 8 = c → n.toNat = s.bytes.length →
        S.toNat + s.bytes.length < 4294967296 →
        ∃ m', memfind S ch n m = (S + BitVec.ofNat 32 k, m') ∧
          Ran (· ∈ addrs S s.bytes.length) [] m m' := by
  refine ⟨before c s.bytes, before_le c s.bytes, not_mem_take_before c s.bytes,
    getElem_before c s.bytes, strfind_cells c s.bytes s.nul_free, ?_, ?_, ?_⟩
  · rw [strchr, strchrLoop_eq, Nat.zero_add]
  · obtain ⟨m', hrun, hran⟩ := strfindAt_ran S c s.nul_free hsrc
    refine ⟨m', hran, fun fuel hfuel => ⟨hrun fuel hfuel, ?_⟩⟩
    rw [strchrAt_eq, hrun fuel hfuel, Option.map_some]
    by_cases hlt : before c s.bytes < s.bytes.length
    · rw [if_pos hlt, if_neg (CStr.ne_nul_at hsrc hlt)]
    · have hend : before c s.bytes = s.bytes.length :=
        Nat.le_antisymm (before_le c s.bytes) (Nat.le_of_not_lt hlt)
      rw [if_neg hlt, hend, if_pos (CStr.nul_at hsrc)]
  · intro ch n hch hn hfits
    have hends : S.toNat + s.bytes.length = (S + n).toNat := by
      rw [BitVec.toNat_add_of_lt (by omega), hn]
    obtain ⟨m', hrun, hran⟩ := memfindLoop_ran S (S + n) c (BytesAt.front hsrc) hends
    refine ⟨m', ?_, hran⟩
    rw [memfind, hch, hn, hrun]

/-- The byte `b` in the string `ab`. -/
theorem searches_agree_ab :
    ∃ m', strfindAt 3 16 (char 'b') twoStrings = some (17, m') ∧
      strchrAt 3 16 (char 'b') twoStrings = some (17, m') := by
  have hab : BytesAt twoStrings.mem 16 (CStr.ofString "ab").cells :=
    bytesAt_cons.2 ⟨rfl, bytesAt_cons.2 ⟨rfl, bytesAt_cons.2 ⟨rfl, nofun⟩⟩⟩
  obtain ⟨k, -, -, -, hk, -, ⟨m', -, hrun⟩, -⟩ := searches_agree hab (char 'b')
  have hone : strfind (CStr.ofString "ab").cells (char 'b') = 1 := by decide
  rw [hone] at hk
  rw [← hk] at hrun
  exact ⟨m', hrun 3 (by decide)⟩

end Jos
