import JosKernel.Foundation.CInt
import JosKernel.Foundation.Halving

/-!
# Searching the symbol table

`stab_binsearch` of `kern/kdebug.c`.  A table is a list of entries, and an index outside it is
a fault; addresses are 32-bit and `addr++` wraps.  `int` index sums do not overflow for a table
that fits in memory.

Principal result: `stabBinsearch_spec` — the search is a halving search over the entries of the
type, and its last loop takes the smaller of the two ends.
-/

set_option autoImplicit false

namespace Jos

open Halving

/-- The fields of `struct Stab` that the debugger reads. -/
structure Stab where
  n_strx : Word
  n_type : Byte
  n_value : Word
  deriving DecidableEq

/-- What stops a run of the debugger. -/
inductive DebugFault where
  /-- an index outside the table -/
  | outside
  /-- `panic("User address")` -/
  | userAddress
  /-- the step budget of the model was too small -/
  | fuel
  deriving DecidableEq, Repr

/-- The entry at an index. -/
def stabEntry (stabs : List Stab) (i : Int) : Option Stab := if 0 ≤ i then stabs[i.toNat]? else none

/-- `stabs[i]`. -/
def stabAt (stabs : List Stab) (i : Int) : Except DebugFault Stab :=
  match stabEntry stabs i with
  | some s => .ok s
  | none => .error .outside

/-- `stabs[i].n_type == type`; the type of an entry is promoted. -/
def ofType (type : Int) (s : Stab) : Bool := (s.n_type.toNat : Int) = type

section

variable {M : Type → Type} [Monad M] [MonadExceptOf DebugFault M]

-- the loops are written for any `read` of an entry: `stabAt` is the plain one, and
-- `Accesses.lean` has one that keeps a list of what it reads
variable (read : Int → M Stab)

/-- `for (; n > 0 && !stop(stabs[i]); i--, n--)`: the loops that walk down over at most `n`
    entries. -/
def scanBackBy (stop : Stab → Bool) : Nat → Int → M Int
  | 0, i => pure i
  | n + 1, i => do
      let s ← read i
      if stop s then pure i else scanBackBy stop n (i - 1)

/-- The loop of `stab_binsearch`: `*region_left`, `*region_right` and `any_matches`. -/
def stabBinsearchLoopBy (type : Int) :
    Nat → Int → Int → Int → Int → Bool → Word → M (Int × Int × Bool)
  | 0, _, _, _, _, _, _ => throw .fuel
  | fuel + 1, l, r, left, right, any, addr =>
      if l ≤ r then do
        let true_m := (l + r).tdiv 2
        -- search for earliest stab with right type
        let m ← scanBackBy read (ofType type) (true_m - l + 1).toNat true_m
        if m < l then stabBinsearchLoopBy type fuel (true_m + 1) r left right any addr
        else do
          let s ← read m
          if s.n_value < addr then
            stabBinsearchLoopBy type fuel (true_m + 1) r m right true addr
          else if s.n_value > addr then
            stabBinsearchLoopBy type fuel l (m - 1) left (m - 1) true addr
          else
            -- exact match for addr, but continue loop to find *region_right
            stabBinsearchLoopBy type fuel m r m right true (addr + 1)
      else pure (left, right, any)

/-- `stab_binsearch`: `*region_left` and `*region_right` afterwards. -/
def stabBinsearchBy (left right type : Int) (addr : Word) : M (Int × Int) := do
  let (left, right, any) ← stabBinsearchLoopBy read type (2 * (right - left + 1).toNat + 2)
    left right left right false addr
  if any then do
    -- find rightmost region containing addr
    let l ← scanBackBy read (ofType type) (right - left).toNat right
    pure (l, right)
  else pure (left, left - 1)

end

/-- `scanBackBy` with the plain read. -/
def scanBack (stabs : List Stab) : (Stab → Bool) → Nat → Int → Except DebugFault Int :=
  scanBackBy (stabAt stabs)

/-- `stab_binsearch` with the plain read, for a type that an entry can have. -/
def stabBinsearch (stabs : List Stab) (left right : Int) (type : Byte) (addr : Word) :
    Except DebugFault (Int × Int) :=
  stabBinsearchBy (stabAt stabs) left right type.toNat addr

/-! ## Entries -/

/-- The entry at the index has the type. -/
def HasType (stabs : List Stab) (type : Byte) (i : Int) : Prop :=
  ∃ s, stabEntry stabs i = some s ∧ s.n_type = type

/-- The same for a type that may be any `int`. -/
def Typed (stabs : List Stab) (type i : Int) : Prop :=
  ∃ s, stabEntry stabs i = some s ∧ ofType type s = true

/-- `stabs[i].n_value`. -/
def valueAt (stabs : List Stab) (i : Int) : Word := ((stabEntry stabs i).map Stab.n_value).getD 0

variable {stabs : List Stab}

theorem stabEntry_inside {i : Int} (h0 : 0 ≤ i) (h1 : i < stabs.length) :
    ∃ s, stabEntry stabs i = some s := by
  rw [stabEntry, if_pos h0]
  exact ⟨_, List.getElem?_eq_getElem (by omega)⟩

theorem stabEntry_bounds {i : Int} {s : Stab} (h : stabEntry stabs i = some s) :
    0 ≤ i ∧ i < stabs.length := by
  unfold stabEntry at h
  split at h
  · obtain ⟨hlt, -⟩ := List.getElem?_eq_some_iff.mp h
    omega
  · cases h

theorem HasType.bounds {type : Byte} {i : Int} (h : HasType stabs type i) :
    0 ≤ i ∧ i < stabs.length := by
  obtain ⟨s, hs, -⟩ := h
  exact stabEntry_bounds hs

theorem ofType_byte (type : Byte) (s : Stab) : ofType type.toNat s = true ↔ s.n_type = type := by
  rw [ofType, decide_eq_true_iff, Int.ofNat_inj]
  exact BitVec.toNat_inj

theorem typed_byte (type : Byte) : Typed stabs type.toNat = HasType stabs type := by
  funext i
  exact propext (exists_congr fun s => and_congr_right fun _ => ofType_byte type s)

theorem stabAt_of_entry {i : Int} {s : Stab} (h : stabEntry stabs i = some s) :
    stabAt stabs i = .ok s := by
  rw [stabAt, h]

theorem scanBack_succ (stop : Stab → Bool) (n : Nat) (i : Int) :
    scanBack stabs stop (n + 1) i = (do
      let s ← stabAt stabs i
      if stop s then .ok i else scanBack stabs stop n (i - 1)) := rfl

/-- A walk down inside the table stops at the first entry it looks for, or behind the last. -/
theorem scanBack_spec (stop : Stab → Bool) : ∀ (n : Nat) (i : Int), n ≤ i + 1 → i < stabs.length →
    ∃ j, scanBack stabs stop n i = .ok j ∧ i - n ≤ j ∧ j ≤ i ∧
      (∀ k s, j < k → k ≤ i → stabEntry stabs k = some s → stop s = false) ∧
      (i - n < j → ∃ s, stabEntry stabs j = some s ∧ stop s = true)
  | 0, i, _, _ => ⟨i, rfl, by omega, by omega, fun k s hk hk' => by omega, fun h => by omega⟩
  | n + 1, i, hn, hi => by
    obtain ⟨s, hs⟩ := stabEntry_inside (by omega) hi
    rw [scanBack_succ, stabAt_of_entry hs]
    by_cases hstop : stop s = true
    · refine ⟨i, if_pos hstop, by omega, by omega, fun k s hk hk' => by omega, fun _ => ?_⟩
      exact ⟨s, hs, hstop⟩
    · obtain ⟨j, hrun, hlow, hup, hnone, hfound⟩ :=
        scanBack_spec stop n (i - 1) (by omega) (by omega)
      refine ⟨j, (if_neg hstop).trans hrun, by omega, by omega, fun k s' hk hk' hs' => ?_,
        fun hlt => hfound (by omega)⟩
      by_cases heq : k = i
      · subst heq
        cases hs.symm.trans hs'
        simpa using hstop
      · exact hnone k s' hk (by omega) hs'

section

variable {type : Int}

/-- The walk for a type: nothing of the type, or its last entry. -/
theorem scanBack_type {l t : Int} (h0 : 0 ≤ l) (hlt : l ≤ t + 1) (ht : t < stabs.length) :
    ∃ m, scanBack stabs (ofType type) (t - l + 1).toNat t = .ok m ∧
      ((m < l ∧ ∀ i, l ≤ i → i ≤ t → ¬Typed stabs type i) ∨
        IsLast (Typed stabs type) l t m) := by
  obtain ⟨m, hrun, hlow, hup, hnone, hfound⟩ :=
    scanBack_spec (ofType type) (t - l + 1).toNat t (by omega) ht
  have hbehind : ∀ i, m < i → i ≤ t → ¬Typed stabs type i := by
    rintro i hi hi' ⟨s, hs, htype⟩
    have hother := hnone i s hi hi' hs
    rw [htype] at hother
    cases hother
  refine ⟨m, hrun, ?_⟩
  by_cases hm : m < l
  · exact Or.inl ⟨hm, fun i hi hi' => hbehind i (by omega) hi'⟩
  · obtain ⟨s, hs, htype⟩ := hfound (by omega)
    exact Or.inr ⟨by omega, hup, ⟨s, hs, htype⟩, hbehind⟩

/-! ## The loop -/

theorem stabAt_of_isLast {l t m : Int} (h : IsLast (Typed stabs type) l t m) :
    ∃ s, stabAt stabs m = .ok s ∧ s.n_value = valueAt stabs m := by
  obtain ⟨s, hs, -⟩ := h.marked
  exact ⟨s, stabAt_of_entry hs, by rw [valueAt, hs]; rfl⟩

/-- The loop is a halving search; `*region_right` is always `r`. -/
theorem stabBinsearchLoop_spec : ∀ (fuel : Nat) (s : Range), 0 ≤ s.l → s.r < stabs.length →
    work (Typed stabs type) (valueAt stabs) s < fuel →
    ∃ f, Ends (Typed stabs type) (valueAt stabs) s f ∧
      stabBinsearchLoopBy (stabAt stabs) type fuel s.l s.r s.left s.r s.found s.addr =
        .ok (f.left, f.r, f.found)
  | 0, _, _, _, h => absurd h (Nat.not_lt_zero _)
  | fuel + 1, s, h0, hlen, hwork => by
    rw [stabBinsearchLoopBy]
    by_cases hle : s.l ≤ s.r
    · rw [if_pos hle]
      have hmid := Range.mid_bounds hle
      have htrue : (s.l + s.r).tdiv 2 = s.mid := Int.tdiv_eq_ediv_of_nonneg (by omega)
      have hnext : ∀ s', Step (Typed stabs type) (valueAt stabs) s s' → 0 ≤ s'.l →
          s'.r < stabs.length → ∃ f, Ends (Typed stabs type) (valueAt stabs) s f ∧
            stabBinsearchLoopBy (stabAt stabs) type fuel s'.l s'.r s'.left s'.r s'.found s'.addr =
              .ok (f.left, f.r, f.found) := by
        intro s' hstep h0' hlen'
        have hless := hstep.work_lt
        obtain ⟨f, hends, hrun⟩ := stabBinsearchLoop_spec fuel s' h0' hlen' (by omega)
        exact ⟨f, Ends.step hstep hends, hrun⟩
      obtain ⟨m, hscan, hm⟩ := @scanBack_type stabs type _ _ h0
        (show s.l ≤ s.mid + 1 by omega) (show s.mid < stabs.length by omega)
      rw [scanBack] at hscan
      simp only [htrue, hscan, Bind.bind, Except.bind]
      rcases hm with ⟨hlt, hnone⟩ | hm
      · rw [if_pos hlt]
        exact hnext _ (Step.skip hle hnone) (by simp only; omega) hlen
      · have hlower := hm.lower
        have hupper := hm.upper
        obtain ⟨e, he, hvalue⟩ := stabAt_of_isLast hm
        rw [if_neg (by omega), he]
        simp only [hvalue]
        by_cases hbelow : valueAt stabs m < s.addr
        · rw [if_pos hbelow]
          exact hnext _ (Step.below hle hm hbelow) (by simp only; omega) hlen
        · rw [if_neg hbelow]
          by_cases habove : valueAt stabs m > s.addr
          · rw [if_pos habove]
            exact hnext _ (Step.above hle hm habove) h0 (by simp only; omega)
          · rw [if_neg habove]
            exact hnext _ (Step.hit hle hm (by bv_omega)) (by simp only; omega) hlen
    · rw [if_neg hle]
      exact ⟨s, Ends.stop (by omega), rfl⟩

end

/-- What a halving search reports: the smaller end on the left. -/
def bracket (L : Int) (f : Range) : Int × Int :=
  if f.found then (min f.left f.r, f.r) else (L, L - 1)

theorem bracket_found {L : Int} {f : Range} (h : f.found = true) :
    bracket L f = (min f.left f.r, f.r) := if_pos h

theorem bracket_not_found {L : Int} {f : Range} (h : f.found = false) :
    bracket L f = (L, L - 1) := if_neg (by rw [h]; exact Bool.false_ne_true)

/-- The search is a halving search, whatever the type. -/
theorem stabBinsearchBy_spec {L R : Int} (h0 : 0 ≤ L) (hle : L ≤ R + 1) (hR : R < stabs.length)
    (type : Int) (addr : Word) :
    ∃ f, Ends (Typed stabs type) (valueAt stabs) ⟨L, R, L, false, addr⟩ f ∧
      stabBinsearchBy (stabAt stabs) L R type addr = .ok (bracket L f) := by
  have hwork : work (Typed stabs type) (valueAt stabs) ⟨L, R, L, false, addr⟩ <
      2 * (R - L + 1).toNat + 2 := by
    unfold work
    split <;> simp only <;> omega
  obtain ⟨f, hends, hrun⟩ := stabBinsearchLoop_spec _ ⟨L, R, L, false, addr⟩ h0 hR hwork
  refine ⟨f, hends, ?_⟩
  have hbounds := hends.bounds (Int.le_refl L) (show L - 1 ≤ R by omega)
  have hleft := hends.left_ge (Int.le_refl L) (Int.le_refl L)
  have hempty := hends.empty
  have hgap := hends.gap fun i hi hi' => by simp only at hi hi'; omega
  simp only at hrun hbounds
  rw [stabBinsearchBy, hrun]
  cases hfound : f.found with
  | false =>
    obtain ⟨hsame, -, -⟩ := hends.not_found hfound
    simp only at hsame
    rw [bracket_not_found hfound, hsame]
    rfl
  | true =>
    -- between the ends nothing has the type, so the last loop runs to the smaller one
    obtain ⟨j, hscan, hlow, hup, hnone, hstop⟩ := @scanBack_spec stabs
      (ofType type) (f.r - f.left).toNat f.r (by omega) (by omega)
    have hj : j = min f.left f.r := by
      by_contra hne
      obtain ⟨s, hs, htype⟩ := hstop (by omega)
      exact hgap j (by omega) (by omega) ⟨s, hs, htype⟩
    rw [scanBack] at hscan
    rw [bracket_found hfound]
    simp only [Bind.bind, Except.bind, hscan, hj]
    rfl

/-- **`stab_binsearch` is a halving search** over the entries of the type. -/
theorem stabBinsearch_spec {type : Byte} {L R : Int} (h0 : 0 ≤ L) (hle : L ≤ R + 1)
    (hR : R < stabs.length) (addr : Word) :
    ∃ f, Ends (HasType stabs type) (valueAt stabs) ⟨L, R, L, false, addr⟩ f ∧
      stabBinsearch stabs L R type addr = .ok (bracket L f) := by
  have hspec := stabBinsearchBy_spec h0 hle hR type.toNat addr
  rw [typed_byte] at hspec
  exact hspec

end Jos
