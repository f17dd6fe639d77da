/-!
# The words of a text

The maximal non-empty runs of a list without separators, as the non-empty pieces of
`List.splitOnP`.

* `words_sep`, `words_token` — a separator in front is skipped, a run in front is the first word.
* `exists_seps`, `exists_token` — every text starts so.
-/

set_option autoImplicit false

namespace Words

variable {α : Type} (sep : α → Bool)

def words (s : List α) : List (List α) := (s.splitOnP sep).filter (!·.isEmpty)

/-- `w` is a run of which the text behind it takes no part. -/
structure IsToken (w rest : List α) : Prop where
  nonempty : w ≠ []
  run : ∀ c ∈ w, sep c = false
  ended : ∀ c ∈ rest.head?, sep c = true

variable {sep}

@[simp] theorem words_nil : words sep [] = [] := rfl

theorem words_sep {c : α} (hc : sep c = true) (s : List α) : words sep (c :: s) = words sep s := by
  rw [words, List.splitOnP_cons_eq_if_modifyHead, if_pos hc, List.filter_cons_of_neg (by simp)]
  rfl

theorem words_seps {p : List α} (hp : ∀ c ∈ p, sep c = true) (s : List α) :
    words sep (p ++ s) = words sep s := by
  induction p with
  | nil => rfl
  | cons c p ih =>
    obtain ⟨hc, hp⟩ := List.forall_mem_cons.mp hp
    rw [List.cons_append, words_sep hc, ih hp]

theorem words_token {w rest : List α} (h : IsToken sep w rest) :
    words sep (w ++ rest) = w :: words sep rest := by
  have hkeep : ∀ ws : List (List α),
      (w :: ws).filter (!·.isEmpty) = w :: ws.filter (!·.isEmpty) := fun ws =>
    List.filter_cons_of_pos (by simp [h.nonempty])
  cases rest with
  | nil =>
    rw [List.append_nil, words, List.splitOnP_eq_singleton h.run, hkeep]
    rfl
  | cons c rest =>
    have hc : sep c = true := h.ended c rfl
    rw [words_sep hc, words, List.splitOnP_append_cons_of_forall_mem h.run c hc, hkeep]
    rfl

/-- The separators in front of a text, and what is behind them. -/
theorem exists_seps : ∀ s : List α, ∃ p rest, s = p ++ rest ∧ (∀ c ∈ p, sep c = true) ∧
    ∀ c ∈ rest.head?, sep c = false
  | [] => ⟨[], [], rfl, nofun, nofun⟩
  | c :: s => by
    cases hc : sep c with
    | false => exact ⟨[], c :: s, rfl, nofun, by rintro _ ⟨⟩; exact hc⟩
    | true =>
      obtain ⟨p, rest, hs, hp, hrest⟩ := exists_seps s
      exact ⟨c :: p, rest, by rw [hs, List.cons_append], List.forall_mem_cons.mpr ⟨hc, hp⟩, hrest⟩

/-- The run in front of a text that does not start with a separator. -/
theorem exists_token : ∀ {s : List α}, s ≠ [] → (∀ c ∈ s.head?, sep c = false) →
    ∃ w rest, s = w ++ rest ∧ IsToken sep w rest
  | [c], _, hs => ⟨[c], [], rfl, by simp, by simpa using hs, nofun⟩
  | c :: c' :: s, _, hs => by
    have hc : sep c = false := hs c rfl
    cases hc' : sep c' with
    | true => exact ⟨[c], c' :: s, rfl, by simp, by simpa using hc, by rintro _ ⟨⟩; exact hc'⟩
    | false =>
      obtain ⟨w, rest, hw, htoken⟩ := @exists_token (c' :: s) (by simp) (by rintro _ ⟨⟩; exact hc')
      refine ⟨c :: w, rest, by rw [hw, List.cons_append], by simp, ?_, htoken.ended⟩
      exact List.forall_mem_cons.mpr ⟨hc, htoken.run⟩

end Words
