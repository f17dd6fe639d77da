/-!
# Transducers

A transducer reads one letter at a time and emits a word for each.  An interactive program is
such a machine over its input, with the difference that a step of the program can fail: `run`
takes its steps one after the other, and `Represents` is what one step has to keep.

Principal results: `output_append` — a run in two pieces; `Represents.run` — a program whose
steps follow a transducer never fails, and behind every input it has emitted the same output.
-/

set_option autoImplicit false

namespace Transducer

structure Machine (σ α β : Type) where
  next : σ → α → σ
  emit : σ → α → List β

variable {σ α β : Type}

/-- The state behind an input. -/
def Machine.state (M : Machine σ α β) : σ → List α → σ
  | s, [] => s
  | s, a :: as => M.state (M.next s a) as

/-- The output for an input. -/
def Machine.output (M : Machine σ α β) : σ → List α → List β
  | _, [] => []
  | s, a :: as => M.emit s a ++ M.output (M.next s a) as

/-- The words that make up the output. -/
def Machine.words (M : Machine σ α β) : σ → List α → List (List β)
  | _, [] => []
  | s, a :: as => M.emit s a :: M.words (M.next s a) as

section

variable (M : Machine σ α β)

theorem words_flatten : ∀ (as : List α) (s : σ), (M.words s as).flatten = M.output s as
  | [], _ => rfl
  | a :: as, s => by rw [Machine.words, List.flatten_cons, words_flatten as, Machine.output]

theorem words_concat : ∀ (as : List α) (a : α) (s : σ),
    M.words s (as ++ [a]) = M.words s as ++ [M.emit (M.state s as) a]
  | [], _, _ => rfl
  | b :: as, a, s => by
    rw [List.cons_append, Machine.words, words_concat as, Machine.words, List.cons_append]
    rfl

theorem state_append : ∀ (as bs : List α) (s : σ),
    M.state s (as ++ bs) = M.state (M.state s as) bs
  | [], _, _ => rfl
  | a :: as, bs, s => state_append as bs (M.next s a)

theorem output_append : ∀ (as bs : List α) (s : σ),
    M.output s (as ++ bs) = M.output s as ++ M.output (M.state s as) bs
  | [], _, _ => rfl
  | a :: as, bs, s => by
    rw [List.cons_append, Machine.output, output_append as bs, Machine.output, List.append_assoc]
    rfl

end

/-! ## Programs -/

variable {γ ε ι : Type}

/-- The steps of a program, one input after the other. -/
def run (step : γ → ι → Except ε γ) : γ → List ι → Except ε γ
  | g, [] => .ok g
  | g, i :: is => do
      let g ← step g i
      run step g is

theorem run_append (step : γ → ι → Except ε γ) : ∀ (is js : List ι) {g g' : γ},
    run step g is = .ok g' → run step g (is ++ js) = run step g' js
  | [], _, _, _, h => by
    cases h
    rfl
  | i :: is, js, g, g', h => by
    cases hstep : step g i with
    | error err =>
      rw [run, hstep] at h
      cases h
    | ok g₁ =>
      rw [run, hstep] at h
      rw [List.cons_append, run, hstep]
      exact run_append step is js h

/-- `Rep g s out`: the program state `g` stands for `s` with the output `out` behind it.  A legal
    input takes the program to a state that stands for the next one; `letter` is what the machine
    sees of an input. -/
def Represents (step : γ → ι → Except ε γ) (M : Machine σ α β) (letter : ι → α)
    (Legal : ι → Prop) (Rep : γ → σ → List β → Prop) : Prop :=
  ∀ g s out i, Rep g s out → Legal i →
    ∃ g', step g i = .ok g' ∧ Rep g' (M.next s (letter i)) (out ++ M.emit s (letter i))

/-- **Every run of the program is a run of the transducer.** -/
theorem Represents.run {step : γ → ι → Except ε γ} {M : Machine σ α β} {letter : ι → α}
    {Legal : ι → Prop} {Rep : γ → σ → List β → Prop} (h : Represents step M letter Legal Rep) :
    ∀ (is : List ι) {g : γ} {s : σ} {out : List β}, Rep g s out → (∀ i ∈ is, Legal i) →
      ∃ g', run step g is = .ok g' ∧
        Rep g' (M.state s (is.map letter)) (out ++ M.output s (is.map letter))
  | [], g, s, out, hrep, _ => ⟨g, rfl, (List.append_nil out).symm ▸ hrep⟩
  | i :: is, g, s, out, hrep, hlegal => by
    obtain ⟨hi, his⟩ := List.forall_mem_cons.mp hlegal
    obtain ⟨g', hstep, hrep'⟩ := h g s out i hrep hi
    obtain ⟨g'', hrun, hrep''⟩ := Represents.run h is hrep' his
    refine ⟨g'', ?_, ?_⟩
    · rw [Transducer.run, hstep]
      exact hrun
    · rw [List.map_cons, Machine.output, ← List.append_assoc]
      exact hrep''

end Transducer
