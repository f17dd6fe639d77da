/-!
# Merges

`Merge xs ys zs`: the events `zs` are those of two sources, each in its own order.  A merge
grows at its end, the way a system records what happens, and whole blocks of one source can be
added at once.

Principal results: `append_left`, `append_right` — a block of one source; `length_eq`, `mem_or` —
nothing is lost, nothing comes from elsewhere.
-/

set_option autoImplicit false

namespace Merging

variable {α : Type}

inductive Merge : List α → List α → List α → Prop where
  | nil : Merge [] [] []
  | left {xs ys zs : List α} (x : α) : Merge xs ys zs → Merge (xs ++ [x]) ys (zs ++ [x])
  | right {xs ys zs : List α} (y : α) : Merge xs ys zs → Merge xs (ys ++ [y]) (zs ++ [y])

variable {xs ys zs : List α}

theorem append_left : ∀ (as : List α) {xs zs : List α}, Merge xs ys zs →
    Merge (xs ++ as) ys (zs ++ as)
  | [], xs, zs, h => by
    rw [List.append_nil, List.append_nil]
    exact h
  | a :: as, xs, zs, h => by
    rw [List.append_cons, List.append_cons zs]
    exact append_left as (h.left a)

theorem append_right : ∀ (bs : List α) {ys zs : List α}, Merge xs ys zs →
    Merge xs (ys ++ bs) (zs ++ bs)
  | [], ys, zs, h => by
    rw [List.append_nil, List.append_nil]
    exact h
  | b :: bs, ys, zs, h => by
    rw [List.append_cons, List.append_cons zs]
    exact append_right bs (h.right b)

theorem length_eq (h : Merge xs ys zs) : zs.length = xs.length + ys.length := by
  induction h with
  | nil => rfl
  | left x h ih =>
    rw [List.length_append, ih, List.length_append, List.length_singleton, Nat.add_right_comm]
  | right y h ih =>
    rw [List.length_append, ih, List.length_append, List.length_singleton, Nat.add_assoc]

theorem mem_or (h : Merge xs ys zs) : ∀ z ∈ zs, z ∈ xs ∨ z ∈ ys := by
  induction h with
  | nil => exact nofun
  | left x h ih =>
    intro z hz
    rcases List.mem_append.mp hz with hz | hz
    · exact (ih z hz).imp_left (List.mem_append_left _)
    · exact Or.inl (List.mem_append_right _ hz)
  | right y h ih =>
    intro z hz
    rcases List.mem_append.mp hz with hz | hz
    · exact (ih z hz).imp_right (List.mem_append_left _)
    · exact Or.inr (List.mem_append_right _ hz)

/-- One silent source. -/
theorem eq_of_nil_right (h : Merge xs ys zs) (hys : ys = []) : zs = xs := by
  induction h with
  | nil => rfl
  | left x h ih => rw [ih hys]
  | right y h ih => simp at hys

end Merging
