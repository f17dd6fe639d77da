import JosKernel.Debug.Stab
import JosKernel.Foundation.ReadLog

/-!
# Where `stab_binsearch` looks

The search of `kern/kdebug.c` with a read that lists the indices at which it looks at `stabs`, in
the order of the reads, and for a `type` that may be any `int`.

* `stabBinsearchBy_forget` — without the list it is the search with the plain read.
* `stabBinsearch_stays` — over any table, sorted or not, the search ends, reads inside the range
  it was given and leaves bounds inside it.
-/

set_option autoImplicit false

namespace Jos

open Halving ReadLog

/-- `stabs[i]`, with the index. -/
def readStab (stabs : List Stab) (i : Int) : Reads Int DebugFault Stab := look i (stabAt stabs i)

/-- `stab_binsearch` with its reads. -/
def stabBinsearchLog (stabs : List Stab) (left right type : Int) (addr : Word) :
    Except DebugFault (List Int × Int × Int) := do
  let (bounds, reads) ← (stabBinsearchBy (readStab stabs) left right type addr).run
  .ok (reads, bounds)

variable {stabs : List Stab}

/-! ## The reads do not change the search -/

theorem forget_readStab (i : Int) : forget (readStab stabs i) = stabAt stabs i := forget_look i _

theorem scanBackBy_forget (stop : Stab → Bool) : ∀ (n : Nat) (i : Int),
    forget (scanBackBy (readStab stabs) stop n i) = scanBackBy (stabAt stabs) stop n i
  | 0, _ => rfl
  | n + 1, i => by
    have ih := scanBackBy_forget stop n (i - 1)
    rw [scanBackBy, scanBackBy, forget_bind, forget_readStab]
    simp only [forget_ite, forget_pure, ih]
    rfl

theorem stabBinsearchLoopBy_forget (type : Int) :
    ∀ (fuel : Nat) (l r left right : Int) (any : Bool) (addr : Word),
    forget (stabBinsearchLoopBy (readStab stabs) type fuel l r left right any addr) =
      stabBinsearchLoopBy (stabAt stabs) type fuel l r left right any addr
  | 0, _, _, _, _, _, _ => rfl
  | fuel + 1, l, r, left, right, any, addr => by
    have ih := stabBinsearchLoopBy_forget type fuel
    rw [stabBinsearchLoopBy, stabBinsearchLoopBy]
    simp only [forget_ite, forget_bind, scanBackBy_forget, forget_readStab, forget_pure, ih]
    rfl

/-- Without the list of its reads it is the search with the plain read. -/
theorem stabBinsearchBy_forget (left right type : Int) (addr : Word) :
    forget (stabBinsearchBy (readStab stabs) left right type addr) =
      stabBinsearchBy (stabAt stabs) left right type addr := by
  rw [stabBinsearchBy, stabBinsearchBy, forget_bind, stabBinsearchLoopBy_forget]
  congr 1
  funext out
  obtain ⟨left, right, any⟩ := out
  simp only [forget_ite, forget_bind, scanBackBy_forget, forget_pure]
  rfl

/-! ## Every read is in the range -/

/-- A walk down reads what it walks over. -/
theorem scanBackBy_within (stop : Stab → Bool) {P : Int → Prop} : ∀ (n : Nat) (i : Int),
    (∀ k, i - n < k → k ≤ i → P k) →
    Within P (scanBackBy (readStab stabs) stop n i) fun j => i - n ≤ j ∧ j ≤ i
  | 0, i, _ => Within.pure (by omega)
  | n + 1, i, hP => by
    have hrest := scanBackBy_within stop n (i - 1) fun k hk hk' => hP k (by omega) (by omega)
    refine (Within.look (hP i (by omega) (Int.le_refl i))).bind fun s _ => ?_
    exact Within.ite (fun _ => Within.pure (by omega)) fun _ => hrest.imp fun j hj => by omega

/-- The loop and its bounds stay in a range from which it starts. -/
theorem stabBinsearchLoopBy_within {type L R : Int} (h0 : 0 ≤ L) :
    ∀ (fuel : Nat) {l r left right : Int} {any : Bool} {addr : Word},
      L ≤ l → r ≤ R → L ≤ left → right ≤ R →
      Within (fun i => L ≤ i ∧ i ≤ R)
        (stabBinsearchLoopBy (readStab stabs) type fuel l r left right any addr)
        fun out => L ≤ out.1 ∧ out.2.1 ≤ R
  | 0, _, _, _, _, _, _, _, _, _, _ => fun _ _ h => by cases h
  | fuel + 1, l, r, left, right, any, addr, hl, hr, hleft, hright => by
    rw [stabBinsearchLoopBy]
    refine Within.ite (fun hle => ?_) fun _ => Within.pure ⟨hleft, hright⟩
    have hmid : (l + r).tdiv 2 = (l + r) / 2 := Int.tdiv_eq_ediv_of_nonneg (by omega)
    dsimp only
    rw [hmid]
    refine (scanBackBy_within _ _ _ fun k hk hk' => by omega).bind fun m hm => ?_
    refine Within.ite (fun _ => ?_) fun hfound => ?_
    · exact stabBinsearchLoopBy_within h0 fuel (by omega) hr hleft hright
    · refine (Within.look (by omega)).bind fun s _ => ?_
      refine Within.ite (fun _ => ?_) fun _ => Within.ite (fun _ => ?_) fun _ => ?_
      · exact stabBinsearchLoopBy_within h0 fuel (by omega) hr (by omega) hright
      · exact stabBinsearchLoopBy_within h0 fuel hl (by omega) hleft (by omega)
      · exact stabBinsearchLoopBy_within h0 fuel (by omega) hr (by omega) hright

theorem stabBinsearchBy_within {type L R : Int} (h0 : 0 ≤ L) {addr : Word} :
    Within (fun i => L ≤ i ∧ i ≤ R) (stabBinsearchBy (readStab stabs) L R type addr)
      fun _ => True := by
  refine (stabBinsearchLoopBy_within h0 _ (Int.le_refl L) (Int.le_refl R) (Int.le_refl L)
    (Int.le_refl R)).bind ?_
  rintro ⟨left, right, any⟩ ⟨hleft, hright⟩
  dsimp only at hleft hright
  refine Within.ite (fun _ => ?_) fun _ => Within.pure trivial
  -- the last loop stops at `*region_left`
  exact (scanBackBy_within _ _ _ fun k hk hk' => by omega).bind fun _ _ => Within.pure trivial

/-! ## The search stays in its range -/

theorem bracket_mem {type L R : Int} {addr : Word} {f : Range} (hle : L ≤ R + 1)
    (h : Ends (Typed stabs type) (valueAt stabs) ⟨L, R, L, false, addr⟩ f) :
    L - 1 ≤ (bracket L f).1 ∧ (bracket L f).2 ≤ R ∧
      (bracket L f).1 ≤ R + 1 ∧ L - 1 ≤ (bracket L f).2 := by
  have hbounds := h.bounds (Int.le_refl L) (show L - 1 ≤ R by omega)
  have hleft := h.left_ge (Int.le_refl L) (Int.le_refl L)
  dsimp only at hbounds
  cases hfound : f.found with
  | false =>
    rw [bracket_not_found hfound]
    dsimp only
    omega
  | true =>
    rw [bracket_found hfound]
    dsimp only
    omega

/-- **`stab_binsearch` ends and stays in range**: over any table, for any type and any address,
    it reads entries of the range alone, and neither of the bounds it leaves is more than one
    outside; `*region_right` never is behind it. -/
theorem stabBinsearch_stays {L R : Int} (h0 : 0 ≤ L) (hle : L - 1 ≤ R) (hR : R < stabs.length)
    (type : Int) (addr : Word) :
    ∃ log left right, stabBinsearchLog stabs L R type addr = .ok (log, left, right) ∧
      (∀ byte : Byte, type = byte.toNat →
        stabBinsearch stabs L R byte addr = .ok (left, right)) ∧
      (∀ i ∈ log, L ≤ i ∧ i ≤ R) ∧ L - 1 ≤ left ∧ right ≤ R ∧ left ≤ R + 1 ∧ L - 1 ≤ right := by
  obtain ⟨f, hends, hrun⟩ := stabBinsearchBy_spec h0 (by omega) hR type addr
  have hbounds := bracket_mem (by omega) hends
  obtain ⟨log, hlog⟩ := ok_of_forget ((stabBinsearchBy_forget L R type addr).trans hrun)
  refine ⟨log, (bracket L f).1, (bracket L f).2, by rw [stabBinsearchLog, hlog]; rfl, ?_,
    (stabBinsearchBy_within h0 _ log hlog).2, hbounds⟩
  rintro byte rfl
  exact hrun

/-- A table that is not sorted, and the address that wraps. -/
theorem stabBinsearch_stays_top :
    ∃ log left right,
      stabBinsearchLog [⟨0#32, 0x24#8, 0xFFFFFFFF#32⟩, ⟨0#32, 0x44#8, 5#32⟩,
        ⟨0#32, 0x24#8, 0xFFFFFFFF#32⟩, ⟨0#32, 0x24#8, 3#32⟩] 0 3 0x24 0xFFFFFFFF#32 =
          .ok (log, left, right) ∧ (∀ i ∈ log, 0 ≤ i ∧ i ≤ 3) ∧ -1 ≤ left ∧ right ≤ 3 := by
  obtain ⟨log, left, right, hlog, -, hin, hleft, hright, -⟩ :=
    @stabBinsearch_stays [⟨0#32, 0x24#8, 0xFFFFFFFF#32⟩, ⟨0#32, 0x44#8, 5#32⟩,
      ⟨0#32, 0x24#8, 0xFFFFFFFF#32⟩, ⟨0#32, 0x24#8, 3#32⟩] 0 3 (by decide) (by decide)
      (by decide) 0x24 0xFFFFFFFF#32
  exact ⟨log, left, right, hlog, hin, hleft, hright⟩

end Jos
