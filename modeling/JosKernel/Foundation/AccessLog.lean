import Mathlib.Logic.Function.Basic
import Mathlib.Data.List.Nodup

/-!
# Memories that record their accesses

A memory with the list of the addresses that were read and the list of what was stored where.
`Ran P ws m m'` says what a run from `m` to `m'` did: it read addresses of `P` only, and it
stored `ws` in this order.

* `Ran.load`, `Ran.store`, `Ran.trans`, `Ran.mono` — how runs are put together.
* `Ran.frame` — memory that is not stored to stays.
* `Ran.stored` — what is stored once is there afterwards.
-/

set_option autoImplicit false

namespace AccessLog

structure Traced (A V : Type) where
  mem : A → V
  reads : List A
  writes : List (A × V)

variable {A V : Type}

def Traced.load (m : Traced A V) (a : A) : V × Traced A V :=
  (m.mem a, { m with reads := m.reads ++ [a] })

variable [DecidableEq A]

def Traced.store (m : Traced A V) (a : A) (v : V) : Traced A V :=
  { m with mem := Function.update m.mem a v, writes := m.writes ++ [(a, v)] }

/-- The memory after some stores. -/
def replay : List (A × V) → (A → V) → A → V
  | [], mem => mem
  | w :: ws, mem => replay ws (Function.update mem w.1 w.2)

structure Ran (P : A → Prop) (ws : List (A × V)) (m m' : Traced A V) : Prop where
  reads : ∃ rs, m'.reads = m.reads ++ rs ∧ ∀ a ∈ rs, P a
  writes : m'.writes = m.writes ++ ws
  mem : m'.mem = replay ws m.mem

/-! ## Stores one after the other -/

theorem replay_append : ∀ (ws ws' : List (A × V)) (mem : A → V),
    replay (ws ++ ws') mem = replay ws' (replay ws mem)
  | [], _, _ => rfl
  | w :: ws, ws', mem => by
    rw [List.cons_append, replay, replay, replay_append ws ws']

theorem replay_frame : ∀ {ws : List (A × V)} (mem : A → V) {a : A}, a ∉ ws.map Prod.fst →
    replay ws mem a = mem a
  | [], _, _, _ => rfl
  | w :: ws, mem, a, h => by
    rw [List.map_cons, List.mem_cons, not_or] at h
    rw [replay, replay_frame _ h.2, Function.update_of_ne h.1]

/-- A store is not overwritten if no address is stored to twice. -/
theorem replay_of_mem : ∀ {ws : List (A × V)} (mem : A → V), (ws.map Prod.fst).Nodup →
    ∀ w ∈ ws, replay ws mem w.1 = w.2
  | w' :: ws, mem, h, w, hw => by
    rw [List.map_cons, List.nodup_cons] at h
    rw [replay]
    rcases List.mem_cons.1 hw with rfl | hw
    · rw [replay_frame _ h.1, Function.update_self]
    · exact replay_of_mem _ h.2 w hw

/-! ## Runs -/

variable {P Q : A → Prop} {ws ws' : List (A × V)} {m m' m'' : Traced A V}

theorem Ran.refl (P : A → Prop) (m : Traced A V) : Ran P [] m m :=
  ⟨⟨[], (List.append_nil _).symm, nofun⟩, (List.append_nil _).symm, rfl⟩

theorem Ran.load {a : A} (h : P a) (m : Traced A V) : Ran P [] m (m.load a).2 :=
  ⟨⟨[a], rfl, fun _ hb => List.mem_singleton.1 hb ▸ h⟩, (List.append_nil _).symm, rfl⟩

theorem Ran.store (P : A → Prop) (m : Traced A V) (a : A) (v : V) :
    Ran P [(a, v)] m (m.store a v) :=
  ⟨⟨[], (List.append_nil _).symm, nofun⟩, rfl, rfl⟩

theorem Ran.trans (h : Ran P ws m m') (h' : Ran P ws' m' m'') : Ran P (ws ++ ws') m m'' := by
  obtain ⟨rs, hrs, hin⟩ := h.reads
  obtain ⟨rs', hrs', hin'⟩ := h'.reads
  refine ⟨⟨rs ++ rs', ?_, fun a ha => ?_⟩, ?_, ?_⟩
  · rw [hrs', hrs, List.append_assoc]
  · exact (List.mem_append.1 ha).elim (hin a) (hin' a)
  · rw [h'.writes, h.writes, List.append_assoc]
  · rw [h'.mem, h.mem, replay_append]

theorem Ran.mono (hPQ : ∀ a, P a → Q a) (h : Ran P ws m m') : Ran Q ws m m' := by
  obtain ⟨rs, hrs, hin⟩ := h.reads
  exact ⟨⟨rs, hrs, fun a ha => hPQ a (hin a ha)⟩, h.writes, h.mem⟩

theorem Ran.frame (h : Ran P ws m m') {a : A} (ha : a ∉ ws.map Prod.fst) :
    m'.mem a = m.mem a := by
  rw [h.mem, replay_frame m.mem ha]

theorem Ran.stored (h : Ran P ws m m') (hws : (ws.map Prod.fst).Nodup) :
    ∀ w ∈ ws, m'.mem w.1 = w.2 := by
  rw [h.mem]
  exact replay_of_mem m.mem hws

end AccessLog
