import Mathlib.Logic.Function.Basic

/-!
# Ring buffers

A bounded queue kept in an array with a read index and a write index, both below the
capacity, that are advanced with one wrap at the end.  One slot stays empty, so that equal
indices mean an empty queue.

* `contents` — the queued elements, oldest first.
* `contents_push` — a push below capacity appends at the back.
* `contents_eq_nil`, `contents_pop` — the queue is empty exactly when the indices are
  equal, and otherwise its first element is the one under the read index.
* `contents_push_wrap`, `foldl_pushWrap` — a push into the last slot makes the indices equal
  and so empties the queue; of any number of pushes the last few below capacity remain.
-/

set_option autoImplicit false

namespace RingBuffer

variable {α : Type}

/-- The index after `i` in an array of `cap` cells. -/
def next (cap i : Nat) : Nat := if i + 1 = cap then 0 else i + 1

/-- The index `k` places after `i`; a single wrap, for `i < cap` and `k ≤ cap`. -/
def offset (cap i k : Nat) : Nat := if i + k < cap then i + k else i + k - cap

/-- The number of queued elements. -/
def used (cap rpos wpos : Nat) : Nat := if rpos ≤ wpos then wpos - rpos else wpos + cap - rpos

/-- The queued elements in order of arrival. -/
def contents (cap : Nat) (buf : Nat → α) (rpos wpos : Nat) : List α :=
  (List.range (used cap rpos wpos)).map fun k => buf (offset cap rpos k)

theorem next_lt {cap i : Nat} (h : i < cap) : next cap i < cap := by
  unfold next
  split <;> omega

theorem length_contents (cap : Nat) (buf : Nat → α) (rpos wpos : Nat) :
    (contents cap buf rpos wpos).length = used cap rpos wpos := by
  simp [contents]

theorem used_lt {cap rpos wpos : Nat} (hr : rpos < cap) (hw : wpos < cap) :
    used cap rpos wpos < cap := by
  unfold used
  split <;> omega

theorem used_next {cap rpos wpos : Nat} (hr : rpos < cap) (hw : wpos < cap)
    (hroom : used cap rpos wpos + 1 < cap) :
    used cap rpos (next cap wpos) = used cap rpos wpos + 1 := by
  unfold used next at *
  split at hroom <;> split <;> split <;> omega

/-- The write index is the place just behind the queued elements. -/
theorem offset_used {cap rpos wpos : Nat} (hr : rpos < cap) (hw : wpos < cap) :
    offset cap rpos (used cap rpos wpos) = wpos := by
  unfold offset used
  split <;> split <;> omega

theorem offset_ne_write {cap rpos wpos k : Nat} (hr : rpos < cap)
    (hk : k < used cap rpos wpos) : offset cap rpos k ≠ wpos := by
  unfold offset
  unfold used at hk
  split at hk <;> split <;> omega

/-- Overwriting the cell under the write index does not touch a queued element. -/
theorem contents_write {cap rpos : Nat} (hr : rpos < cap) (buf : Nat → α) (wpos : Nat) (x : α) :
    contents cap (Function.update buf wpos x) rpos wpos = contents cap buf rpos wpos := by
  unfold contents
  apply List.map_congr_left
  intro k hk
  exact Function.update_of_ne (offset_ne_write hr (List.mem_range.1 hk)) x buf

/-- **A push appends at the back**, as long as one slot stays free. -/
theorem contents_push {cap rpos wpos : Nat} (hr : rpos < cap) (hw : wpos < cap)
    (hroom : used cap rpos wpos + 1 < cap) (buf : Nat → α) (x : α) :
    contents cap (Function.update buf wpos x) rpos (next cap wpos) =
      contents cap buf rpos wpos ++ [x] := by
  have hold := contents_write hr buf wpos x
  unfold contents at hold ⊢
  rw [used_next hr hw hroom, List.range_succ, List.map_append, hold]
  simp [offset_used hr hw]

theorem used_eq_zero {cap rpos wpos : Nat} (hr : rpos < cap) :
    used cap rpos wpos = 0 ↔ rpos = wpos := by
  unfold used
  split <;> omega

theorem contents_eq_nil {cap rpos wpos : Nat} (hr : rpos < cap) (buf : Nat → α) :
    contents cap buf rpos wpos = [] ↔ rpos = wpos := by
  rw [← List.length_eq_zero_iff, length_contents, used_eq_zero hr]

theorem used_pop {cap rpos wpos : Nat} (hr : rpos < cap) (hw : wpos < cap) (hne : rpos ≠ wpos) :
    used cap rpos wpos = used cap (next cap rpos) wpos + 1 := by
  unfold used next
  split <;> split <;> split <;> omega

theorem offset_next {cap rpos k : Nat} (hk : k + 1 < cap) :
    offset cap rpos (k + 1) = offset cap (next cap rpos) k := by
  unfold offset next
  split <;> split <;> split <;> omega

/-- **A pop takes the oldest element.** -/
theorem contents_pop {cap rpos wpos : Nat} (hr : rpos < cap) (hw : wpos < cap) (hne : rpos ≠ wpos)
    (buf : Nat → α) :
    contents cap buf rpos wpos = buf rpos :: contents cap buf (next cap rpos) wpos := by
  have hlt := used_lt hr hw
  rw [used_pop hr hw hne] at hlt
  unfold contents
  rw [used_pop hr hw hne, List.range_succ_eq_map, List.map_cons, List.map_map]
  congr 1
  · unfold offset
    rw [if_pos (by omega), Nat.add_zero]
  · apply List.map_congr_left
    intro k hk
    have hk' := List.mem_range.1 hk
    exact congrArg buf (offset_next (by omega))

/-! ## Pushes without a test for room -/

/-- What a push without a test does to the queue: the last slot overruns it. -/
def pushWrap (cap : Nat) (q : List α) (x : α) : List α :=
  if q.length + 1 = cap then [] else q ++ [x]

/-- **A push without a test for room** appends, or empties the queue. -/
theorem contents_push_wrap {cap rpos wpos : Nat} (hr : rpos < cap) (hw : wpos < cap)
    (buf : Nat → α) (x : α) :
    contents cap (Function.update buf wpos x) rpos (next cap wpos) =
      pushWrap cap (contents cap buf rpos wpos) x := by
  have hlt := used_lt hr hw
  unfold pushWrap
  rw [length_contents]
  split
  · rename_i hfull
    rw [contents_eq_nil hr]
    unfold used at hfull
    unfold next
    split at hfull <;> split <;> omega
  · exact contents_push hr hw (by omega) buf x

theorem length_pushWrap_lt {cap : Nat} {q : List α} (h : q.length < cap) (x : α) :
    (pushWrap cap q x).length < cap := by
  unfold pushWrap
  split
  · simp only [List.length_nil]
    omega
  · simp only [List.length_append, List.length_singleton]
    omega

/-- **Of any number of pushes the elements behind the last overrun remain.** -/
theorem foldl_pushWrap {cap : Nat} : ∀ (xs : List α) {q : List α}, q.length < cap →
    xs.foldl (pushWrap cap) q = (q ++ xs).drop (cap * ((q.length + xs.length) / cap))
  | [], q, h => by
    rw [List.length_nil, Nat.add_zero, Nat.div_eq_of_lt h]
    simp
  | x :: xs, q, h => by
    have ih := foldl_pushWrap xs (length_pushWrap_lt h x)
    rw [List.foldl_cons, ih]
    unfold pushWrap
    by_cases hfull : q.length + 1 = cap
    · -- the elements up to `x` are one more overrun
      have hcount : (q.length + (x :: xs).length) / cap = xs.length / cap + 1 := by
        rw [List.length_cons, show q.length + (xs.length + 1) = xs.length + cap by omega]
        exact Nat.add_div_right _ (by omega)
      have hfront : q ++ x :: xs = (q ++ [x]) ++ xs := by simp
      have hlength : (q ++ [x]).length = cap := by simpa using hfull
      rw [if_pos hfull, hcount, hfront, Nat.mul_succ, Nat.add_comm (cap * _) cap,
        ← List.drop_drop, List.drop_left' hlength]
      simp
    · rw [if_neg hfull, List.append_assoc, List.singleton_append, List.length_append,
        List.length_singleton, List.length_cons, Nat.add_assoc, Nat.add_comm 1]

end RingBuffer
