import Mathlib.Data.Nat.ModEq

/-!
# Tables of tables

Address translation by a tree of tables.  A page has `P` bytes and a table `N` entries; an
address picks an entry at each level, from the top down, and the rest is the offset in the page.
Writing is allowed where every entry on the way allows it.

`Maps k t start w` says that the table `t` maps its whole range of `P * N ^ k` bytes to the
memory from `start` on, in order.  Principal results: `maps_page`, `maps_table` — such a table,
from the bottom up; `translate_entry`, `translate_hole` — one entry of a table that is not.
-/

set_option autoImplicit false

namespace Paging

variable {τ : Type} (P N : Nat) (look : τ → Nat → Option (τ × Bool)) (base : τ → Nat)

/-- The index at level `k`, with `k` levels below it. -/
def index (k la : Nat) : Nat := la / (P * N ^ k) % N

/-- From a table with `k` levels down to a page. -/
def follow : Nat → τ → Nat → Option (τ × Bool)
  | 0, t, _ => some (t, true)
  | k + 1, t, la =>
      (look t (index P N k la)).bind fun e =>
        (follow k e.1 la).map fun r => (r.1, e.2 && r.2)

/-- The address that is meant, and whether it can be written. -/
def translate (k : Nat) (t : τ) (la : Nat) : Option (Nat × Bool) :=
  (follow P N look k t la).map fun r => (base r.1 + la % P, r.2)

def Maps (k : Nat) (t : τ) (start : Nat) (w : Bool) : Prop :=
  ∀ la, translate P N look base k t la = some (start + la % (P * N ^ k), w)

variable {P N look base} {k : Nat} {t t' : τ} {start la : Nat} {w w' : Bool}

theorem translate_succ : translate P N look base (k + 1) t la =
    (look t (index P N k la)).bind fun e =>
      (translate P N look base k e.1 la).map fun r => (r.1, e.2 && r.2) := by
  unfold translate
  rw [follow]
  cases look t (index P N k la) with
  | none => rfl
  | some e =>
    rw [Option.bind_some, Option.bind_some]
    cases follow P N look k e.1 la with
    | none => rfl
    | some r => rfl

/-- No entry, no memory. -/
theorem translate_hole (h : look t (index P N k la) = none) :
    translate P N look base (k + 1) t la = none := by
  rw [translate_succ, h]
  rfl

/-- **One entry**: the range behind it. -/
theorem translate_entry (h : look t (index P N k la) = some (t', w))
    (hmaps : Maps P N look base k t' start w') :
    translate P N look base (k + 1) t la = some (start + la % (P * N ^ k), w && w') := by
  rw [translate_succ, h, Option.bind_some, hmaps la]
  rfl

theorem maps_page (t : τ) : Maps P N look base 0 t (base t) true := by
  intro la
  rw [pow_zero, mul_one]
  rfl

/-- **A table whose entries map one range after the other.** -/
theorem maps_table (hN : 0 < N)
    (h : ∀ i < N, ∃ t', look t i = some (t', w) ∧
      Maps P N look base k t' (start + i * (P * N ^ k)) w') :
    Maps P N look base (k + 1) t start (w && w') := by
  intro la
  obtain ⟨t', hlook, hmaps⟩ := h (index P N k la) (Nat.mod_lt _ hN)
  have hsplit : la % (P * N ^ (k + 1)) =
      la % (P * N ^ k) + P * N ^ k * index P N k la := by
    rw [pow_succ, ← mul_assoc]
    exact Nat.mod_mul
  rw [translate_entry hlook hmaps, hsplit, Nat.mul_comm (P * N ^ k)]
  congr 2
  omega

end Paging
