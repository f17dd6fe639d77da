import JosKernel.Foundation.Halving

/-!
# Where a halving search ends

For increasing keys, the exact end of a search for the last marked index `b` whose key is not
above the address.  Without a hit the search brackets `b`.  After a hit of `b` it goes on for the
address behind it, and a marked index with that key, if it is still in the range, is hit in turn.

Principal results: `Ends.brackets` — a search without a hit; `Ends.reaches_hit` — the range that
is left when `b` is hit; `Ends.exact_iff` — the search brackets `b` unless it is misled by the
raised address.
-/

set_option autoImplicit false

namespace Halving

section

variable (mark : Int → Prop)

/-- `j` is the first marked index behind `b`. -/
structure IsNext (b j : Int) : Prop where
  behind : b < j
  marked : mark j
  first : ∀ i, b < i → i < j → ¬mark i

/-- Halving `[l, r]` comes to `b` while `j` is still in the range: it goes right behind a marked
    index below `b` and left in front of one above `j`. -/
inductive Before (b j : Int) : Int → Int → Prop
  | here {l r : Int} (h : l ≤ r) (hm : IsLast mark l ((l + r) / 2) b) (hj : j ≤ r) : Before b j l r
  | skip {l r : Int} (h : l ≤ r) (hnone : ∀ i, l ≤ i → i ≤ (l + r) / 2 → ¬mark i)
      (hrest : Before b j ((l + r) / 2 + 1) r) : Before b j l r
  | right {l r m : Int} (h : l ≤ r) (hm : IsLast mark l ((l + r) / 2) m) (hlt : m < b)
      (hrest : Before b j ((l + r) / 2 + 1) r) : Before b j l r
  | left {l r m : Int} (h : l ≤ r) (hm : IsLast mark l ((l + r) / 2) m) (hlt : j < m)
      (hrest : Before b j l (m - 1)) : Before b j l r

/-- The raised address misleads a search that hits `b`: it wraps, or a marked index with the key
    behind that of `b` is hit as well. -/
def Misled (key : Int → BitVec 32) (L R : Int) (addr : BitVec 32) (b : Int) : Prop :=
  key b = addr ∧ (addr = top ∨ ∃ j, IsNext mark b j ∧ key j = addr + 1 ∧ Before mark b j L R ∧
    ¬(addr + 1 = top ∧ j = b + 1))

end

variable {mark : Int → Prop} {key : Int → BitVec 32}

theorem IsNext.unique {b j j' : Int} (h : IsNext mark b j) (h' : IsNext mark b j') : j = j' := by
  by_contra hne
  rcases Int.lt_or_lt_of_ne hne with hlt | hlt
  · exact h'.first j h.behind hlt h.marked
  · exact h.first j' h'.behind hlt h'.marked

/-- A search inside `[L, R]` sees only the marks in it. -/
theorem Ends.restrict {L R : Int} {s f : Range} (h : Ends mark key s f) (hl : L ≤ s.l)
    (hr : s.r ≤ R) : Ends (fun i => mark i ∧ L ≤ i ∧ i ≤ R) key s f := by
  have hlast : ∀ {l t m : Int}, L ≤ l → t ≤ R → IsLast mark l t m →
      IsLast (fun i => mark i ∧ L ≤ i ∧ i ≤ R) l t m := fun hl ht hm =>
    ⟨hm.lower, hm.upper, ⟨hm.marked, Int.le_trans hl hm.lower, Int.le_trans hm.upper ht⟩,
      fun i hi hi' hmark => hm.last i hi hi' hmark.1⟩
  induction h with
  | stop hempty => exact Ends.stop hempty
  | step hstep hrest ih =>
    cases hstep with
    | skip h hnone =>
      have hmid := Range.mid_bounds h
      refine Ends.step (Step.skip h fun i hi hi' hmark => hnone i hi hi' hmark.1) (ih ?_ hr)
      simp only
      omega
    | below h hm hkey =>
      have hmid := Range.mid_bounds h
      refine Ends.step (Step.below h (hlast hl (by omega) hm) hkey) (ih ?_ hr)
      simp only
      omega
    | above h hm hkey =>
      have hmid := Range.mid_bounds h
      have hupper := hm.upper
      refine Ends.step (Step.above h (hlast hl (by omega) hm) hkey) (ih hl ?_)
      simp only
      omega
    | hit h hm hkey =>
      have hmid := Range.mid_bounds h
      have hlower := hm.lower
      refine Ends.step (Step.hit h (hlast hl (by omega) hm) hkey) (ih ?_ hr)
      simp only
      omega

/-- **A search for an index with a smaller key brackets it.** -/
theorem Ends.brackets (hinc : Increasing mark key) {s f : Range} (h : Ends mark key s f) {b : Int}
    (hb : mark b) (hbelow : key b < s.addr)
    (habove : ∀ i, mark i → b < i → i ≤ s.r → s.addr < key i) (hr : b ≤ s.r)
    (hl : b < s.l → s.left = b) : f.left = b ∧ b ≤ f.r ∧ (f.r = s.r ∨ mark (f.r + 1)) := by
  have hinv := @Ends.invariant mark key
    (fun u => u.addr = s.addr ∧ b ≤ u.r ∧ u.r ≤ s.r ∧ (b < u.l → u.left = b) ∧
      (u.r = s.r ∨ mark (u.r + 1))) ?_ _ _ h ⟨rfl, hr, Int.le_refl _, hl, Or.inl rfl⟩
  · obtain ⟨-, hr', -, hleft, hend⟩ := hinv
    have hempty := h.empty
    exact ⟨hleft (by omega), hr', hend⟩
  · rintro u u' ⟨haddr, hr', hle, hleft, hend⟩ hstep
    cases hstep with
    | skip h hnone =>
      refine ⟨haddr, hr', hle, fun hlt => ?_, hend⟩
      by_cases hseen : b < u.l
      · exact hleft hseen
      · exact absurd hb (hnone b (by omega) (by simp only at hlt; omega))
    | @below m h hm hkey =>
      have hmb : m ≤ b := by
        by_contra hgt
        have hupper := hm.upper
        have hmid := Range.mid_bounds h
        have := habove m hm.marked (by omega) (by omega)
        rw [haddr] at hkey
        bv_omega
      refine ⟨haddr, hr', hle, fun hlt => ?_, hend⟩
      by_contra hne
      exact hm.last b (by simp only at hne; omega) (by simp only at hlt; omega) hb
    | @above m h hm hkey =>
      rw [haddr] at hkey
      have hbm : b < m := hinc.lt_of_key_lt hb hm.marked (by bv_omega)
      have hupper := hm.upper
      have hmid := Range.mid_bounds h
      refine ⟨haddr, by simp only; omega, by simp only; omega, hleft, Or.inr ?_⟩
      simpa using hm.marked
    | @hit m h hm hkey =>
      -- a key between that of `b` and the address
      have hupper := hm.upper
      have hmid := Range.mid_bounds h
      rw [haddr] at hkey
      by_cases hle' : m ≤ b
      · have := hinc.key_le hm.marked hb hle'
        rw [hkey] at this
        bv_omega
      · have := habove m hm.marked (by omega) (by omega)
        rw [hkey] at this
        bv_omega

theorem Before.le {b j l r : Int} (h : Before mark b j l r) : j ≤ r := by
  induction h with
  | here _ _ hj => exact hj
  | skip _ _ _ ih => exact ih
  | right _ _ _ _ ih => exact ih
  | left h hm _ _ ih =>
    have hupper := hm.upper
    omega

/-- The first step of the halving when there is a marked index. -/
theorem Before.of_isLast {b j l r m : Int} (h : Before mark b j l r)
    (hm : IsLast mark l ((l + r) / 2) m) :
    (m = b ∧ j ≤ r) ∨ (m < b ∧ Before mark b j ((l + r) / 2 + 1) r) ∨
      (j < m ∧ Before mark b j l (m - 1)) := by
  cases h with
  | here _ hm' hj => exact Or.inl ⟨hm.unique hm', hj⟩
  | skip _ hnone _ => exact absurd hm.marked (hnone m hm.lower hm.upper)
  | right _ hm' hlt hrest =>
    rw [hm.unique hm']
    exact Or.inr (Or.inl ⟨hlt, hrest⟩)
  | left _ hm' hlt hrest =>
    rw [hm.unique hm']
    exact Or.inr (Or.inr ⟨hlt, hrest⟩)

theorem Before.of_none {b j l r : Int} (h : Before mark b j l r)
    (hnone : ∀ i, l ≤ i → i ≤ (l + r) / 2 → ¬mark i) : Before mark b j ((l + r) / 2 + 1) r := by
  cases h with
  | here _ hm _ => exact absurd hm.marked (hnone _ hm.lower hm.upper)
  | skip _ _ hrest => exact hrest
  | right _ hm _ _ => exact absurd hm.marked (hnone _ hm.lower hm.upper)
  | left _ hm _ _ => exact absurd hm.marked (hnone _ hm.lower hm.upper)

/-- **A search for a key that is in the range hits it**; the next marked index is still in the
    range then if the halving comes to `b` before it. -/
theorem Ends.reaches_hit (hinc : Increasing mark key) {s f : Range} (h : Ends mark key s f)
    {b : Int} (hb : mark b) (hkey : key b = s.addr) (hl : s.l ≤ b) (hr : b ≤ s.r) :
    ∃ r, Ends mark key ⟨b, r, b, true, s.addr + 1⟩ f ∧ b ≤ r ∧ r ≤ s.r ∧
      (r = s.r ∨ mark (r + 1)) ∧ ∀ j, IsNext mark b j → (j ≤ r ↔ Before mark b j s.l s.r) := by
  induction h with
  | stop hempty => omega
  | @step s s' f hstep hrest ih =>
    cases hstep with
    | skip h hnone =>
      have hmid := Range.mid_bounds h
      have hnext : s.mid + 1 ≤ b := by
        by_contra hgt
        exact hnone b hl (by omega) hb
      obtain ⟨r, hends, hbr, hrs, hend, hbefore⟩ := ih hkey hnext hr
      refine ⟨r, hends, hbr, hrs, hend, fun j hj => (hbefore j hj).trans ?_⟩
      constructor
      · exact fun hrest => Before.skip h hnone hrest
      · exact fun hhere => hhere.of_none hnone
    | @below m h hm hbelow =>
      have hmid := Range.mid_bounds h
      have hmb : m < b := hinc.lt_of_key_lt hm.marked hb (by rw [hkey]; exact hbelow)
      have hnext : s.mid + 1 ≤ b := by
        by_contra hgt
        exact hm.last b hmb (by omega) hb
      obtain ⟨r, hends, hbr, hrs, hend, hbefore⟩ := ih hkey hnext hr
      refine ⟨r, hends, hbr, hrs, hend, fun j hj => (hbefore j hj).trans ?_⟩
      constructor
      · exact fun hrest => Before.right h hm hmb hrest
      · intro hhere
        rcases hhere.of_isLast hm with ⟨heq, -⟩ | ⟨-, hrest⟩ | ⟨hlt, -⟩
        · omega
        · exact hrest
        · have := hj.behind
          omega
    | @above m h hm habove =>
      have hmid := Range.mid_bounds h
      have hupper := hm.upper
      have hbm : b < m := hinc.lt_of_key_lt hb hm.marked (by rw [hkey]; exact habove)
      obtain ⟨r, hends, hbr, hrs, hend, hbefore⟩ := ih hkey hl (by simp only; omega)
      simp only at hrs hend
      refine ⟨r, hends, hbr, by omega, ?_, fun j hj => (hbefore j hj).trans ?_⟩
      · rcases hend with heq | hmark
        · right
          rw [heq]
          simpa using hm.marked
        · exact Or.inr hmark
      · have hjm : j ≤ m := by
          by_contra hgt
          exact hj.first m hbm (by omega) hm.marked
        constructor
        · intro hrest
          have hle := hrest.le
          exact Before.left h hm (by simp only at hle; omega) hrest
        · intro hhere
          rcases hhere.of_isLast hm with ⟨heq, -⟩ | ⟨hlt, -⟩ | ⟨-, hrest⟩
          · omega
          · omega
          · exact hrest
    | @hit m h hm hhit =>
      have heq : m = b := hinc.eq_of_key_eq hm.marked hb (hhit.trans hkey.symm)
      subst heq
      refine ⟨s.r, hrest, hr, Int.le_refl _, Or.inl rfl, fun j hj => ?_⟩
      constructor
      · exact fun hjr => Before.here h hm hjr
      · exact fun hhere => hhere.le

/-- What a search finds: `b`, and no marked index behind it up to `r`. -/
structure Brackets (mark : Int → Prop) (R b : Int) (left r : Int) : Prop where
  left_eq : left = b
  last : r = R ∨ mark (r + 1)
  behind : b ≤ r
  none : ∀ i, b < i → i ≤ r → ¬mark i

variable {L R b : Int} {addr : BitVec 32} {f : Range}

/-- Behind a hit, a search that hits nothing else brackets the hit. -/
theorem Ends.brackets_hit (hinc : Increasing mark key) {r : Int}
    (h : Ends mark key ⟨b, r, b, true, addr + 1⟩ f) (hb : mark b) (hkey : key b = addr)
    (htop : addr ≠ top) (hbr : b ≤ r) (hend : r = R ∨ mark (r + 1))
    (habove : ∀ i, mark i → b < i → addr < key i)
    (hnext : ∀ j, IsNext mark b j → key j = addr + 1 → ¬j ≤ r) :
    Brackets mark R b (min f.left f.r) f.r := by
  have hraise := lt_add_one htop
  obtain ⟨hleft, hbf, hlast⟩ := h.brackets hinc hb (by rw [hkey]; exact hraise)
    (fun i hi hlt hir => by
      have hgt := habove i hi hlt
      by_contra hge
      simp only at hge hir
      have heq : key i = addr + 1 := by bv_omega
      -- an index with the raised key is the next one
      refine hnext i ⟨hlt, hi, fun k hk hki hmark => ?_⟩ heq hir
      have hlow := habove k hmark hk
      have hhigh := hinc k i hmark hi hki
      bv_omega)
    hbr (fun hlt => absurd hlt (Int.lt_irrefl b))
  have hempty := h.empty
  have hgap := h.gap fun i hi hi' => by simp only at hi hi'; omega
  simp only at hlast
  constructor
  · omega
  · rcases hlast with heq | hmark
    · rw [heq]
      exact hend
    · exact Or.inr hmark
  · exact hbf
  · exact fun i hi hir => hgap i (by omega) (by omega)

/-- Behind a hit, a second hit leaves the bracket, except for the highest address directly behind
    the first. -/
theorem Ends.second_hit (hinc : Increasing mark key) {r j : Int}
    (h : Ends mark key ⟨b, r, b, true, addr + 1⟩ f) (hj : IsNext mark b j)
    (hkey : key j = addr + 1) (hjr : j ≤ r) :
    Brackets mark R b (min f.left f.r) f.r ↔ addr + 1 = top ∧ j = b + 1 := by
  have hbehind := hj.behind
  have hpass := h.passes hinc hj.marked (by rw [hkey]; exact BitVec.le_refl _) hjr
    (fun hlt => absurd hlt (by simp only; omega))
  rcases hpass with ⟨hleft, hright, hlt⟩ | ⟨m, hle, hm, hmtop, hfl, hfr⟩
  · constructor
    · intro hbracket
      have := hbracket.left_eq
      omega
    · rintro ⟨htop, -⟩
      rw [hkey, htop] at hlt
      exact absurd hlt (not_top_lt _)
  · constructor
    · intro hbracket
      have := hbracket.left_eq
      have heq : m = j := by omega
      rw [heq, hkey] at hmtop
      exact ⟨hmtop, by omega⟩
    · rintro ⟨htop, hjb⟩
      have heq : m = j := hinc.eq_of_key_eq hm hj.marked (by rw [hmtop, hkey, htop])
      constructor
      · omega
      · right
        rw [hfr, heq]
        simpa using hj.marked
      · omega
      · intro i hi hir
        omega

/-- **A search brackets the last index that is not above the address, unless it is misled.** -/
theorem Ends.exact_iff (hinc : Increasing mark key)
    (h : Ends mark key ⟨L, R, L, false, addr⟩ f) (hb : mark b) (hkey : key b ≤ addr) (hl : L ≤ b)
    (hr : b ≤ R) (habove : ∀ i, mark i → b < i → addr < key i) :
    Brackets mark R b (min f.left f.r) f.r ↔ ¬Misled mark key L R addr b := by
  by_cases hhit : key b = addr
  · by_cases htop : addr = top
    · -- the hit wraps the address
      obtain ⟨hfl, hfr⟩ := h.stops_at_top hinc hb (hhit.trans htop) hkey hr hl
      constructor
      · intro hbracket
        have := hbracket.left_eq
        omega
      · intro hnot
        exact absurd ⟨hhit, Or.inl htop⟩ hnot
    · obtain ⟨r, hends, hbr, -, hend, hbefore⟩ := h.reaches_hit hinc hb hhit hl hr
      by_cases hj : ∃ j, IsNext mark b j ∧ key j = addr + 1 ∧ j ≤ r
      · obtain ⟨j, hnext, hjkey, hjr⟩ := hj
        rw [hends.second_hit hinc hnext hjkey hjr]
        have hcomes := (hbefore j hnext).1 hjr
        constructor
        · rintro hsafe ⟨-, hwrap | ⟨j', hnext', -, -, hnot⟩⟩
          · exact htop hwrap
          · rw [← hnext.unique hnext'] at hnot
            exact hnot hsafe
        · intro hnot
          by_contra hunsafe
          exact hnot ⟨hhit, Or.inr ⟨j, hnext, hjkey, hcomes, hunsafe⟩⟩
      · have hbracket := @Ends.brackets_hit mark key R b addr f hinc r hends hb hhit htop hbr hend
          habove fun j hnext hjkey hjr => hj ⟨j, hnext, hjkey, hjr⟩
        refine iff_of_true hbracket ?_
        rintro ⟨-, hwrap | ⟨j, hnext, hjkey, hcomes, -⟩⟩
        · exact htop hwrap
        · exact hj ⟨j, hnext, hjkey, (hbefore j hnext).2 hcomes⟩
  · have hbelow : key b < addr := by bv_omega
    obtain ⟨hfl, hbf, hlast⟩ := h.brackets hinc hb hbelow (fun i hi hlt _ => habove i hi hlt) hr
      (fun hlt => by simp only at hlt; omega)
    have hempty := h.empty
    have hgap := h.gap fun i hi hi' => by simp only at hi hi'; omega
    refine iff_of_true ⟨by omega, hlast, hbf, fun i hi hir => hgap i (by omega) (by omega)⟩ ?_
    rintro ⟨heq, -⟩
    exact hhit heq

end Halving
