import Mathlib.Order.Basic

/-!
# Halving over marked indices

A binary search over integer indices of which only some are marked; the marked ones have
32-bit keys.  The search halves the range `[l, r]`, moves from the middle back to the last
marked index, and on an exact hit raises the address by one and goes on.  Raising the highest
address wraps to zero.

`Step` is one iteration and `Ends` a whole search.  Nothing is assumed about the order of the
keys unless `Increasing` is a hypothesis.

Principal results: `Step.work_lt` — the search ends; `Ends.r_eq_iff` — when the right end
falls in front of the first index; `Ends.passes` — a marked index with a small key is passed,
or the search stops in front of a hit of the highest address.
-/

set_option autoImplicit false

namespace Halving

/-- The state of a search.  `left` is the last index that was not above the address. -/
structure Range where
  l : Int
  r : Int
  left : Int
  found : Bool
  addr : BitVec 32

def Range.mid (s : Range) : Int := (s.l + s.r) / 2

/-- The highest address. -/
def top : BitVec 32 := 0xFFFFFFFF

section

variable (mark : Int → Prop) (key : Int → BitVec 32)

/-- The last marked index of `[l, t]`. -/
structure IsLast (l t m : Int) : Prop where
  lower : l ≤ m
  upper : m ≤ t
  marked : mark m
  last : ∀ i, m < i → i ≤ t → ¬mark i

/-- One iteration. -/
inductive Step : Range → Range → Prop
  | skip {s : Range} (h : s.l ≤ s.r) (hnone : ∀ i, s.l ≤ i → i ≤ s.mid → ¬mark i) :
      Step s { s with l := s.mid + 1 }
  | below {s : Range} {m : Int} (h : s.l ≤ s.r) (hm : IsLast mark s.l s.mid m)
      (hkey : key m < s.addr) :
      Step s { s with l := s.mid + 1, left := m, found := true }
  | above {s : Range} {m : Int} (h : s.l ≤ s.r) (hm : IsLast mark s.l s.mid m)
      (hkey : s.addr < key m) :
      Step s { s with r := m - 1, found := true }
  | hit {s : Range} {m : Int} (h : s.l ≤ s.r) (hm : IsLast mark s.l s.mid m)
      (hkey : key m = s.addr) :
      Step s { s with l := m, left := m, found := true, addr := s.addr + 1 }

/-- A search, up to an empty range. -/
inductive Ends : Range → Range → Prop
  | stop {s : Range} (h : s.r < s.l) : Ends s s
  | step {s s' f : Range} (h : Step mark key s s') (hrest : Ends s' f) : Ends s f

/-- The keys increase strictly along the marked indices. -/
def Increasing : Prop := ∀ i j, mark i → mark j → i < j → key i < key j

end

variable {mark : Int → Prop} {key : Int → BitVec 32}

theorem Range.mid_bounds {s : Range} (h : s.l ≤ s.r) : s.l ≤ s.mid ∧ s.mid ≤ s.r := by
  unfold Range.mid
  omega

theorem add_one_ne (a : BitVec 32) : a + 1 ≠ a := by bv_omega

theorem lt_add_one {a : BitVec 32} (h : a ≠ top) : a < a + 1 := by
  unfold top at h
  bv_omega

theorem not_top_lt (a : BitVec 32) : ¬top < a := by
  unfold top
  bv_omega

/-! ## Termination -/

open Classical in
/-- Each index costs at most two iterations: a hit raises the address, and the second time the
    index is below or above. -/
noncomputable def work (mark : Int → Prop) (key : Int → BitVec 32) (s : Range) : Nat :=
  2 * (s.r - s.l + 1).toNat + if mark s.l ∧ key s.l = s.addr then 1 else 0

theorem work_lt_of_shorter {s s' : Range} (h : s.l ≤ s.r) (hlt : s'.r - s'.l < s.r - s.l) :
    work mark key s' < work mark key s := by
  have hle : work mark key s' ≤ 2 * (s'.r - s'.l + 1).toNat + 1 := by
    unfold work
    split <;> omega
  have hge : 2 * (s.r - s.l + 1).toNat ≤ work mark key s := Nat.le_add_right _ _
  omega

theorem Step.work_lt {s s' : Range} (h : Step mark key s s') :
    work mark key s' < work mark key s := by
  cases h with
  | skip h _ =>
    have hmid := Range.mid_bounds h
    exact work_lt_of_shorter h (by simp only; omega)
  | below h hm _ =>
    have hmid := Range.mid_bounds h
    exact work_lt_of_shorter h (by simp only; omega)
  | above h hm _ =>
    have hupper := hm.upper
    have hmid := Range.mid_bounds h
    exact work_lt_of_shorter h (by simp only; omega)
  | hit h hm hkey =>
    rename_i m
    by_cases hl : m = s.l
    · -- the range stays, but its first index is no hit any more
      subst hl
      have hbefore : work mark key s = 2 * (s.r - s.l + 1).toNat + 1 := by
        rw [work, if_pos ⟨hm.marked, hkey⟩]
      have hafter : work mark key { s with left := s.l, found := true, addr := s.addr + 1 } =
          2 * (s.r - s.l + 1).toNat := by
        rw [work, if_neg fun hbad => add_one_ne s.addr (hbad.2.symm.trans hkey)]
        rfl
      show work mark key { s with left := s.l, found := true, addr := s.addr + 1 } < _
      omega
    · have hlower := hm.lower
      exact work_lt_of_shorter h (by simp only; omega)

/-! ## Following a search -/

theorem IsLast.unique {l t m m' : Int} (h : IsLast mark l t m) (h' : IsLast mark l t m') :
    m = m' := by
  by_cases hlt : m < m'
  · exact absurd h'.marked (h.last m' hlt h'.upper)
  · by_cases hgt : m' < m
    · exact absurd h.marked (h'.last m hgt h.upper)
    · omega

/-- What an iteration does when there is a marked index. -/
theorem Step.of_isLast {s s' : Range} {m : Int} (hm : IsLast mark s.l s.mid m)
    (h : Step mark key s s') :
    (key m < s.addr ∧ s' = { s with l := s.mid + 1, left := m, found := true }) ∨
    (s.addr < key m ∧ s' = { s with r := m - 1, found := true }) ∨
    (key m = s.addr ∧ s' = { s with l := m, left := m, found := true, addr := s.addr + 1 }) := by
  cases h with
  | skip _ hnone => exact absurd hm.marked (hnone m hm.lower hm.upper)
  | below _ hm' hkey =>
    cases hm.unique hm'
    exact Or.inl ⟨hkey, rfl⟩
  | above _ hm' hkey =>
    cases hm.unique hm'
    exact Or.inr (Or.inl ⟨hkey, rfl⟩)
  | hit _ hm' hkey =>
    cases hm.unique hm'
    exact Or.inr (Or.inr ⟨hkey, rfl⟩)

/-- A search over a range that is not empty goes on. -/
theorem Ends.next {s f : Range} (h : Ends mark key s f) (hle : s.l ≤ s.r) :
    ∃ s', Step mark key s s' ∧ Ends mark key s' f := by
  cases h with
  | stop hlt => omega
  | step hstep hrest => exact ⟨_, hstep, hrest⟩

theorem Ends.eq_of_lt {s f : Range} (h : Ends mark key s f) (hlt : s.r < s.l) : f = s := by
  cases h with
  | stop _ => rfl
  | step hstep _ => cases hstep <;> omega

/-- What every iteration preserves holds at the end. -/
theorem Ends.invariant {I : Range → Prop} (hstep : ∀ s s', I s → Step mark key s s' → I s')
    {s f : Range} (h : Ends mark key s f) (hs : I s) : I f := by
  induction h with
  | stop _ => exact hs
  | step h _ ih => exact ih (hstep _ _ hs h)

theorem Ends.empty {s f : Range} (h : Ends mark key s f) : f.r < f.l := by
  induction h with
  | stop h => exact h
  | step _ _ ih => exact ih

/-! ## Bounds -/

/-- A range that starts behind `c` stays behind it. -/
theorem Ends.bounds {s f : Range} (h : Ends mark key s f) {c : Int} (hl : c ≤ s.l)
    (hr : c - 1 ≤ s.r) : c ≤ f.l ∧ c - 1 ≤ f.r ∧ f.r ≤ s.r := by
  refine @Ends.invariant mark key (fun u => c ≤ u.l ∧ c - 1 ≤ u.r ∧ u.r ≤ s.r) ?_ _ _ h
    ⟨hl, hr, Int.le_refl _⟩
  rintro u u' ⟨hl, hr, hle⟩ hstep
  cases hstep with
  | skip h _ =>
    have hmid := Range.mid_bounds h
    exact ⟨by simp only; omega, hr, hle⟩
  | below h _ _ =>
    have hmid := Range.mid_bounds h
    exact ⟨by simp only; omega, hr, hle⟩
  | above h hm _ =>
    have hlower := hm.lower
    have hupper := hm.upper
    have hmid := Range.mid_bounds h
    exact ⟨hl, by simp only; omega, by simp only; omega⟩
  | hit h hm _ =>
    have hlower := hm.lower
    exact ⟨by simp only; omega, hr, hle⟩

/-- `left` starts at `c` or behind it and stays there. -/
theorem Ends.left_ge {s f : Range} (h : Ends mark key s f) {c : Int} (hl : c ≤ s.l)
    (hleft : c ≤ s.left) : c ≤ f.left := by
  have hinv : ∀ u u', (c ≤ u.l ∧ c ≤ u.left) → Step mark key u u' → c ≤ u'.l ∧ c ≤ u'.left := by
    rintro u u' ⟨hl, hleft⟩ hstep
    cases hstep with
    | skip h _ =>
      have hmid := Range.mid_bounds h
      exact ⟨by simp only; omega, hleft⟩
    | below h hm _ =>
      have hmid := Range.mid_bounds h
      exact ⟨by simp only; omega, Int.le_trans hl hm.lower⟩
    | above _ _ _ => exact ⟨hl, hleft⟩
    | hit _ hm _ => exact ⟨Int.le_trans hl hm.lower, Int.le_trans hl hm.lower⟩
  exact (h.invariant hinv ⟨hl, hleft⟩).2

/-- Between `left` and `l` nothing is marked. -/
theorem Ends.gap {s f : Range} (h : Ends mark key s f)
    (hs : ∀ i, s.left < i → i < s.l → ¬mark i) : ∀ i, f.left < i → i < f.l → ¬mark i := by
  refine @Ends.invariant mark key (fun u => ∀ i, u.left < i → i < u.l → ¬mark i) ?_ _ _ h hs
  intro u u' hu hstep
  cases hstep with
  | skip h hnone =>
    intro i hleft hi
    by_cases hl : i < u.l
    · exact hu i hleft hl
    · exact hnone i (by omega) (by simp only at hi; omega)
  | below h hm _ =>
    intro i hleft hi
    exact hm.last i hleft (by simp only at hi; omega)
  | above _ _ _ => exact hu
  | hit _ _ _ =>
    intro i hleft hi
    simp only at hleft hi
    omega

/-- A search that finds nothing has seen nothing marked. -/
theorem Ends.not_found {s f : Range} (h : Ends mark key s f) (hf : f.found = false) :
    f.left = s.left ∧ f.r = s.r ∧ ∀ i, s.l ≤ i → i ≤ s.r → ¬mark i := by
  have hinv := @Ends.invariant mark key
    (fun u => u.found = false →
      u.left = s.left ∧ u.r = s.r ∧ ∀ i, s.l ≤ i → i < u.l → ¬mark i) ?_ _ _ h
    (fun _ => ⟨rfl, rfl, fun i hl hi => by omega⟩)
  · obtain ⟨hleft, hr, hnone⟩ := hinv hf
    have hempty := h.empty
    exact ⟨hleft, hr, fun i hl hi => hnone i hl (by omega)⟩
  · intro u u' hu hstep hfound
    cases hstep with
    | skip h hnone =>
      obtain ⟨hleft, hr, hseen⟩ := hu hfound
      refine ⟨hleft, hr, fun i hl hi => ?_⟩
      by_cases hlt : i < u.l
      · exact hseen i hl hlt
      · exact hnone i (by omega) (by simp only at hi; omega)
    | below _ _ _ => cases hfound
    | above _ _ _ => cases hfound
    | hit _ _ _ => cases hfound

/-! ## Increasing keys -/

theorem Increasing.le_of_key_le (h : Increasing mark key) {i j : Int} (hi : mark i) (hj : mark j)
    (hkey : key i ≤ key j) : i ≤ j := by
  by_contra hlt
  have := h j i hj hi (by omega)
  bv_omega

theorem Increasing.key_le (h : Increasing mark key) {i j : Int} (hi : mark i) (hj : mark j)
    (hij : i ≤ j) : key i ≤ key j := by
  rcases Int.lt_or_eq_of_le hij with hlt | heq
  · have := h i j hi hj hlt
    bv_omega
  · rw [heq]
    bv_omega

theorem Increasing.lt_of_key_lt (h : Increasing mark key) {i j : Int} (hi : mark i) (hj : mark j)
    (hkey : key i < key j) : i < j := by
  by_contra hge
  have := h.key_le hj hi (by omega)
  bv_omega

theorem Increasing.eq_of_key_eq (h : Increasing mark key) {i j : Int} (hi : mark i) (hj : mark j)
    (hkey : key i = key j) : i = j :=
  Int.le_antisymm (h.le_of_key_le hi hj (by rw [hkey]; exact BitVec.le_refl _))
    (h.le_of_key_le hj hi (by rw [hkey]; exact BitVec.le_refl _))

/-- Behind a hit of the highest address, the wrapped address puts the right end in front. -/
theorem Ends.after_top (hinc : Increasing mark key) {s f : Range} {m : Int}
    (h : Ends mark key { s with l := m, left := m, found := true, addr := top + 1 } f)
    (hm : mark m) (hkey : key m = top) (hr : m ≤ s.r) : f.left = m ∧ f.r = m - 1 := by
  have hlast : IsLast mark m ((m + s.r) / 2) m := by
    refine ⟨Int.le_refl _, by omega, hm, fun i hi _ hmark => ?_⟩
    have := hinc m i hm hmark hi
    rw [hkey] at this
    exact not_top_lt _ this
  obtain ⟨s', hstep, hrest⟩ := h.next hr
  rcases Step.of_isLast hlast hstep with ⟨hlt, -⟩ | ⟨-, heq⟩ | ⟨heq, -⟩
  · rw [hkey] at hlt
    exact absurd hlt (show ¬top < top + 1 by decide)
  · subst heq
    rw [hrest.eq_of_lt (by simp only; omega)]
    exact ⟨rfl, rfl⟩
  · rw [hkey] at heq
    exact absurd heq (show ¬top = top + 1 by decide)

/-- **A marked index with a key up to the address is passed**, unless the search stops in front
    of a hit of the highest address. -/
theorem Ends.passes (hinc : Increasing mark key) {s f : Range} (h : Ends mark key s f) {j : Int}
    (hj : mark j) (hkey : key j ≤ s.addr) (hr : j ≤ s.r)
    (hl : j < s.l → j ≤ s.left ∧ key j < s.addr) :
    (j ≤ f.left ∧ j ≤ f.r ∧ key j < f.addr) ∨
      ∃ m, j ≤ m ∧ mark m ∧ key m = top ∧ f.left = m ∧ f.r = m - 1 := by
  induction h with
  | stop hempty =>
    obtain ⟨hleft, hlt⟩ := hl (by omega)
    exact Or.inl ⟨hleft, hr, hlt⟩
  | @step s s' f hstep hrest ih =>
    cases hstep with
    | skip h hnone =>
      refine ih hkey hr fun hlt => ?_
      by_cases hseen : j < s.l
      · exact hl hseen
      · exact absurd hj (hnone j (by omega) (by simp only at hlt; omega))
    | @below m h hm hbelow =>
      refine ih hkey hr fun hlt => ?_
      have hle : j ≤ m := by
        by_contra hgt
        exact hm.last j (by omega) (by simp only at hlt; omega) hj
      have := hinc.key_le hj hm.marked hle
      exact ⟨hle, by bv_omega⟩
    | @above m h hm habove =>
      have hlt : j < m := hinc.lt_of_key_lt hj hm.marked (by bv_omega)
      refine ih hkey ?_ hl
      simp only
      omega
    | @hit m h hm hhit =>
      have hle : j ≤ m := hinc.le_of_key_le hj hm.marked (by rw [hhit]; exact hkey)
      by_cases htop : s.addr = top
      · -- the address wraps
        rw [htop] at hrest hhit
        have hmid := Range.mid_bounds h
        have hupper := hm.upper
        obtain ⟨hleft, hright⟩ := hrest.after_top hinc hm.marked hhit (by omega)
        exact Or.inr ⟨m, hle, hm.marked, hhit, hleft, hright⟩
      · have hraise := lt_add_one htop
        refine ih (by simp only; bv_omega) hr fun hlt => ⟨hle, ?_⟩
        have := hinc j m hj hm.marked hlt
        simp only
        bv_omega

/-- A search that passes a key which is the highest address stops in front of it. -/
theorem Ends.stops_at_top (hinc : Increasing mark key) {s f : Range} (h : Ends mark key s f)
    {j : Int} (hj : mark j) (htop : key j = top) (hkey : key j ≤ s.addr) (hr : j ≤ s.r)
    (hl : s.l ≤ j) : f.left = j ∧ f.r = j - 1 := by
  rcases h.passes hinc hj hkey hr (fun hlt => by omega) with ⟨-, -, hlt⟩ | ⟨m, hle, hm, hmtop, hf⟩
  · rw [htop] at hlt
    exact absurd hlt (not_top_lt _)
  · have heq : m = j := hinc.eq_of_key_eq hm hj (by rw [hmtop, htop])
    rw [heq] at hf
    exact hf

/-- If everything behind `b` is above the address and `b` itself is no hit, `left` stays at `b`. -/
theorem Ends.stays {s f : Range} (h : Ends mark key s f) {b : Int} (hleft : s.left = b)
    (hl : b ≤ s.l) (habove : ∀ i, mark i → b < i → i ≤ s.r → s.addr < key i)
    (hb : mark b → key b ≠ s.addr) : f.left = b := by
  have hinv := @Ends.invariant mark key
    (fun u => u.left = b ∧ b ≤ u.l ∧ u.r ≤ s.r ∧ u.addr = s.addr) ?_ _ _ h
    ⟨hleft, hl, Int.le_refl _, rfl⟩
  · exact hinv.1
  · rintro u u' ⟨hleft, hl, hr, haddr⟩ hstep
    cases hstep with
    | skip h _ =>
      have hmid := Range.mid_bounds h
      exact ⟨hleft, by simp only; omega, hr, haddr⟩
    | @below m h hm hbelow =>
      have hmid := Range.mid_bounds h
      have hlower := hm.lower
      have hupper := hm.upper
      refine ⟨?_, by simp only; omega, hr, haddr⟩
      by_contra hne
      have := habove m hm.marked (by simp only at hne; omega) (by omega)
      rw [← haddr] at this
      bv_omega
    | above h hm _ =>
      have hmid := Range.mid_bounds h
      have hupper := hm.upper
      exact ⟨hleft, hl, by simp only; omega, haddr⟩
    | @hit m h hm hhit =>
      have hmid := Range.mid_bounds h
      have hlower := hm.lower
      have hupper := hm.upper
      rw [haddr] at hhit
      by_cases heq : m = b
      · subst heq
        exact absurd hhit (hb hm.marked)
      · have := habove m hm.marked (by omega) (by omega)
        bv_omega

/-! ## Meeting the first index -/

/-- Halving `[b, r]` meets the index `b`, with right end `r'`: every marked index that is met
    before it is above the address. -/
inductive Meets (mark : Int → Prop) (key : Int → BitVec 32) (b : Int) (addr : BitVec 32) :
    Int → Int → Prop
  | here {r : Int} (h : b ≤ r) (hm : IsLast mark b ((b + r) / 2) b) : Meets mark key b addr r r
  | left {r r' m : Int} (h : b ≤ r) (hm : IsLast mark b ((b + r) / 2) m) (hlt : b < m)
      (hkey : addr < key m) (hrest : Meets mark key b addr (m - 1) r') : Meets mark key b addr r r'

variable {b : Int} {addr : BitVec 32} {r r' : Int}

theorem Meets.marked (h : Meets mark key b addr r r') : mark b := by
  induction h with
  | here _ hm => exact hm.marked
  | left _ _ _ _ _ ih => exact ih

/-- A search from `b` on gets to the state in which it meets `b`. -/
theorem Meets.ends (h : Meets mark key b addr r r') : ∀ {s f : Range}, s.l = b → s.r = r →
    s.addr = addr → Ends mark key s f →
    b ≤ r' ∧ IsLast mark b ((b + r') / 2) b ∧
      ∃ found, Ends mark key { s with r := r', found } f := by
  induction h with
  | here hle hm =>
    rintro s f rfl rfl rfl hends
    exact ⟨hle, hm, s.found, hends⟩
  | @left r r' m hle hm hlt hkey _ ih =>
    rintro s f rfl rfl rfl hends
    obtain ⟨s', hstep, hrest⟩ := hends.next hle
    rcases Step.of_isLast hm hstep with ⟨hbelow, -⟩ | ⟨-, heq⟩ | ⟨hhit, -⟩
    · bv_omega
    · subst heq
      exact @ih { s with r := m - 1, found := true } f rfl rfl rfl hrest
    · bv_omega

/-- **The right end falls in front of the first index** exactly when the search meets the first
    index and finds it above the address, or hits it with the highest address. -/
theorem Ends.r_eq_iff {s f : Range} (h : Ends mark key s f) (hl : s.l = b) (hle : b ≤ s.r) :
    f.r = b - 1 ↔ (∃ r', Meets mark key b s.addr s.r r') ∧
      (s.addr < key b ∨ (key b = s.addr ∧ s.addr = top)) := by
  constructor
  · intro hr
    induction h with
    | stop hempty => omega
    | @step s s' f hstep hrest ih =>
      have hbehind : b + 1 ≤ s'.l → b ≤ s'.r → False := by
        intro hl' hr'
        have := (hrest.bounds hl' (by omega)).2.1
        omega
      cases hstep with
      | skip h _ =>
        have hmid := Range.mid_bounds h
        exact absurd hle (hbehind (by simp only; omega))
      | below h _ _ =>
        have hmid := Range.mid_bounds h
        exact absurd hle (hbehind (by simp only; omega))
      | @above m h hm habove =>
        have hlower := hm.lower
        rw [Range.mid, hl] at hm
        by_cases heq : m = b
        · subst heq
          exact ⟨⟨_, Meets.here hle hm⟩, Or.inl habove⟩
        · obtain ⟨⟨r', hmeets⟩, hkey⟩ := ih hl (by simp only; omega) hr
          exact ⟨⟨r', Meets.left hle hm (by omega) habove hmeets⟩, hkey⟩
      | @hit m h hm hhit =>
        have hlower := hm.lower
        rw [Range.mid, hl] at hm
        by_cases heq : m = b
        · -- after the hit the search meets `b` again
          subst heq
          refine ⟨⟨_, Meets.here hle hm⟩, Or.inr ⟨hhit, ?_⟩⟩
          by_contra htop
          have hraise := lt_add_one htop
          obtain ⟨s'', hstep', hrest'⟩ := hrest.next hle
          rcases Step.of_isLast hm hstep' with ⟨-, heq⟩ | ⟨habove, -⟩ | ⟨hagain, -⟩
          · subst heq
            have := (@Ends.bounds mark key _ _ hrest' (m + 1) (by simp only [Range.mid]; omega)
              (by simp only; omega)).2.1
            omega
          · simp only at habove
            bv_omega
          · exact add_one_ne s.addr (hagain.symm.trans hhit)
        · exact absurd hle (hbehind (by simp only; omega))
  · rintro ⟨⟨r', hmeets⟩, hkey⟩
    obtain ⟨hle', hm, found, hends⟩ := hmeets.ends hl rfl rfl h
    subst hl
    obtain ⟨s', hstep, hrest⟩ := hends.next hle'
    rcases Step.of_isLast hm hstep with ⟨hbelow, -⟩ | ⟨-, heq⟩ | ⟨hhit, heq⟩
    · simp only at hbelow
      rcases hkey with hkey | hkey <;> bv_omega
    · subst heq
      rw [hrest.eq_of_lt (by simp only; omega)]
    · simp only at hhit
      subst heq
      have htop : s.addr = top := by
        rcases hkey with hkey | hkey
        · bv_omega
        · exact hkey.2
      obtain ⟨s'', hstep', hrest'⟩ := hrest.next hle'
      rw [htop] at hhit
      rcases Step.of_isLast hm hstep' with ⟨hbelow, -⟩ | ⟨-, heq⟩ | ⟨hagain, -⟩
      · rw [hhit, htop] at hbelow
        exact absurd hbelow (show ¬top < top + 1 by decide)
      · subst heq
        rw [hrest'.eq_of_lt (by simp only; omega)]
      · rw [hhit, htop] at hagain
        exact absurd hagain (show ¬top = top + 1 by decide)

/-- Some index of a range is the last marked one, unless none is marked. -/
theorem isLast_or_none (mark : Int → Prop) (l : Int) :
    ∀ (n : Nat) (t : Int), (t - l + 1).toNat = n →
    (∃ m, IsLast mark l t m) ∨ ∀ i, l ≤ i → i ≤ t → ¬mark i
  | 0, t, hn => Or.inr fun i hl hi => by omega
  | n + 1, t, hn => by
    by_cases ht : mark t
    · exact Or.inl ⟨t, by omega, Int.le_refl _, ht, fun i hi hi' => by omega⟩
    · rcases isLast_or_none mark l n (t - 1) (by omega) with ⟨m, hm⟩ | hnone
      · refine Or.inl ⟨m, hm.lower, by have := hm.upper; omega, hm.marked, fun i hi hi' => ?_⟩
        by_cases heq : i = t
        · rw [heq]
          exact ht
        · exact hm.last i hi (by omega)
      · refine Or.inr fun i hl hi => ?_
        by_cases heq : i = t
        · rw [heq]
          exact ht
        · exact hnone i hl (by omega)

/-- If everything marked behind `b` is above the address, the search meets `b`. -/
theorem Meets.of_above (hb : mark b) : ∀ (n : Nat) (r : Int), (r - b).toNat = n → b ≤ r →
    (∀ i, mark i → b < i → i ≤ r → addr < key i) → ∃ r', Meets mark key b addr r r' := by
  intro n
  induction n using Nat.strongRecOn with
  | _ n ih =>
    intro r hn hle habove
    rcases isLast_or_none mark b _ ((b + r) / 2) rfl with ⟨m, hm⟩ | hnone
    · have hlower := hm.lower
      have hupper := hm.upper
      by_cases heq : m = b
      · subst heq
        exact ⟨r, Meets.here hle hm⟩
      · have hkey := habove m hm.marked (by omega) (by omega)
        obtain ⟨r', hmeets⟩ := ih (m - 1 - b).toNat (by omega) (m - 1) rfl (by omega)
          fun i hi hlt hir => habove i hi hlt (by omega)
        exact ⟨r', Meets.left hle hm (by omega) hkey hmeets⟩
    · exact absurd hb (hnone b (Int.le_refl _) (by omega))

end Halving
