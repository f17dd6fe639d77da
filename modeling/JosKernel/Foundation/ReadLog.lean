import Mathlib.Control.Monad.Writer

/-!
# Runs that list what they read

A run that can fail, with the list of the places it looked at.  `look i x` is one look at `i`,
`forget` drops the list, and `Within P x Q` says of a run that ends that it looked only at places
in `P` and that its result is in `Q`.

* `forget_pure`, `forget_bind`, `forget_ite`, `forget_look` — without the list the parts of a run
  are those of the plain one.
* `Within.pure`, `Within.bind`, `Within.ite`, `Within.look`, `Within.imp` — the rules of its parts.
-/

set_option autoImplicit false

namespace ReadLog

variable {ι ε α β : Type}

/-- Runs with the list of the places they looked at. -/
abbrev Reads (ι ε : Type) := WriterT (List ι) (Except ε)

/-- One look at `i`. -/
def look (i : ι) (x : Except ε α) : Reads ι ε α := WriterT.mk (x.map fun a => (a, [i]))

/-- A run without its list. -/
def forget (x : Reads ι ε α) : Except ε α := x.run.map Prod.fst

theorem run_bind (x : Reads ι ε α) (f : α → Reads ι ε β) :
    (x >>= f).run = x.run.bind fun p => (f p.1).run.map fun q => (q.1, p.2 ++ q.2) := rfl

/-! ## Without the list -/

theorem forget_pure (a : α) : forget (pure a : Reads ι ε α) = .ok a := rfl

theorem forget_bind (x : Reads ι ε α) (f : α → Reads ι ε β) :
    forget (x >>= f) = (forget x).bind fun a => forget (f a) := by
  unfold forget
  rw [run_bind]
  cases x.run with
  | error e => rfl
  | ok p =>
    show ((f p.1).run.map fun q => (q.1, p.2 ++ q.2)).map Prod.fst = (f p.1).run.map Prod.fst
    cases (f p.1).run with
    | error e => rfl
    | ok q => rfl

theorem forget_ite (p : Prop) [Decidable p] (x y : Reads ι ε α) :
    forget (if p then x else y) = if p then forget x else forget y := apply_ite forget p x y

theorem forget_look (i : ι) (x : Except ε α) : forget (look i x) = x := by
  cases x with
  | error e => rfl
  | ok a => rfl

theorem ok_of_forget {x : Reads ι ε α} {a : α} (h : forget x = .ok a) :
    ∃ log, x.run = .ok (a, log) := by
  cases hrun : x.run with
  | error e =>
    rw [forget, hrun] at h
    cases h
  | ok p =>
    rw [forget, hrun] at h
    cases h
    exact ⟨p.2, rfl⟩

/-! ## Where a run looks -/

/-- If the run ends, it looked at places in `P` alone and its result is in `Q`. -/
def Within (P : ι → Prop) (x : Reads ι ε α) (Q : α → Prop) : Prop :=
  ∀ a log, x.run = .ok (a, log) → Q a ∧ ∀ i ∈ log, P i

variable {P : ι → Prop} {Q : α → Prop}

theorem Within.pure {a : α} (h : Q a) : Within P (Pure.pure a : Reads ι ε α) Q := by
  intro a' log hrun
  cases hrun
  exact ⟨h, fun i hi => absurd hi List.not_mem_nil⟩

theorem Within.bind {Q' : β → Prop} {x : Reads ι ε α} {f : α → Reads ι ε β} (hx : Within P x Q)
    (hf : ∀ a, Q a → Within P (f a) Q') : Within P (x >>= f) Q' := by
  intro b log hrun
  rw [run_bind] at hrun
  cases hfirst : x.run with
  | error e =>
    rw [hfirst] at hrun
    cases hrun
  | ok p =>
    obtain ⟨hp, hreads⟩ := hx p.1 p.2 hfirst
    rw [hfirst] at hrun
    change (f p.1).run.map (fun q => (q.1, p.2 ++ q.2)) = .ok (b, log) at hrun
    cases hsecond : (f p.1).run with
    | error e =>
      rw [hsecond] at hrun
      cases hrun
    | ok q =>
      obtain ⟨hq, hrest⟩ := hf p.1 hp q.1 q.2 hsecond
      rw [hsecond] at hrun
      cases hrun
      exact ⟨hq, fun i hi => (List.mem_append.1 hi).elim (hreads i) (hrest i)⟩

theorem Within.look {i : ι} (hi : P i) {x : Except ε α} : Within P (look i x) fun _ => True := by
  intro a log hrun
  cases x with
  | error e => cases hrun
  | ok a' =>
    cases hrun
    exact ⟨trivial, fun k hk => List.mem_singleton.1 hk ▸ hi⟩

theorem Within.ite {p : Prop} [Decidable p] {x y : Reads ι ε α} (hx : p → Within P x Q)
    (hy : ¬p → Within P y Q) : Within P (if p then x else y) Q := by
  by_cases hp : p
  · rw [if_pos hp]
    exact hx hp
  · rw [if_neg hp]
    exact hy hp

theorem Within.imp {Q' : α → Prop} {x : Reads ι ε α} (h : Within P x Q) (hQ : ∀ a, Q a → Q' a) :
    Within P x Q' := fun a log hrun => ⟨hQ a (h a log hrun).1, (h a log hrun).2⟩

end ReadLog
