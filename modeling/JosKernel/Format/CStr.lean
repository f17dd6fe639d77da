import JosKernel.Foundation.CInt

/-!
# NUL-terminated strings and pointers into them

A `CStr` is the content of a NUL-terminated string.  A `Cursor` is a `const char *` into such
a string: the bytes before it, nearest first, and the bytes from it on, the terminator
included.  Moving or reading outside `0 .. n` is a `Fault`, so a run without a fault has read
only inside the string.

* `Cursor.next`, `Cursor.prev` — `*p++` and `--p`.
* `strnlen` — `lib/string.c`.
-/

set_option autoImplicit false

namespace Jos

/-- The content of a NUL-terminated string. -/
structure CStr where
  bytes : List Byte
  nul_free : (0 : Byte) ∉ bytes
  deriving DecidableEq

/-- A C string literal. -/
def CStr.ofString (s : String) : CStr :=
  ⟨(s.toList.map fun c => BitVec.ofNat 8 c.toNat).filter (· ≠ 0), by simp⟩

/-- A C character constant. -/
def char (c : Char) : Byte := BitVec.ofNat 8 c.toNat

/-- What stops a run of the formatter. -/
inductive Fault where
  /-- a pointer left its string -/
  | outside
  /-- the argument list has no argument of the type that was asked for -/
  | badArg
  /-- the step budget of the model was too small -/
  | fuel
  deriving DecidableEq, Repr

/-- A pointer into a string. -/
structure Cursor where
  before : List Byte
  after : List Byte
  deriving DecidableEq, Repr

/-- The pointer to the first byte. -/
def CStr.start (s : CStr) : Cursor := ⟨[], s.bytes ++ [0]⟩

/-- `*p++`. -/
def Cursor.next : Cursor → Except Fault (Byte × Cursor)
  | ⟨_, []⟩ => .error .outside
  | ⟨before, c :: after⟩ => .ok (c, ⟨c :: before, after⟩)

/-- `--p`. -/
def Cursor.prev : Cursor → Except Fault Cursor
  | ⟨[], _⟩ => .error .outside
  | ⟨c :: before, after⟩ => .ok ⟨before, c :: after⟩

/-- The loop of `strnlen` with `n` bytes counted so far. -/
def strnlenLoop : List Byte → Nat → Int → Int
  | [], _, n => n
  | _ :: _, 0, n => n
  | _ :: s, size + 1, n => strnlenLoop s size (int32 (n + 1))

/-- `strnlen`. -/
def strnlen (s : CStr) (size : Nat) : Int := strnlenLoop s.bytes size 0

/-- What `strnlen` counts. -/
theorem strnlenLoop_eq : ∀ (s : List Byte) (size : Nat) (n : Int), IsInt32 n →
    strnlenLoop s size n = int32 (n + min s.length size)
  | [], _, n, h => by simp [strnlenLoop, int32_of_range h]
  | _ :: _, 0, n, h => by simp [strnlenLoop, int32_of_range h]
  | _ :: s, size + 1, n, _ => by
    rw [strnlenLoop, strnlenLoop_eq s size _ (int32_isInt32 _), int32_add_left]
    congr 1
    simp only [List.length_cons]
    omega

theorem bind_ok {ε α β : Type} {x : Except ε α} {f : α → Except ε β} {b : β} :
    (x >>= f) = .ok b ↔ ∃ a, x = .ok a ∧ f a = .ok b := by
  cases x with
  | error e =>
    constructor
    · intro h
      cases h
    · rintro ⟨_, h, _⟩
      cases h
  | ok a =>
    constructor
    · intro h
      exact ⟨a, rfl, h⟩
    · rintro ⟨_, h, h'⟩
      cases h
      exact h'

theorem map_ok {α β : Type} (f : α → β) (a : α) :
    (Except.ok a : Except Fault α).map f = .ok (f a) := rfl

theorem bind_map {α β γ : Type} (x : Except Fault α) (f : α → β) (g : β → Except Fault γ) :
    (x.map f >>= g) = x >>= fun a => g (f a) := by
  cases x <;> rfl

theorem map_bind {α β γ : Type} (x : Except Fault α) (f : α → Except Fault β) (h : β → γ) :
    (x >>= f).map h = x >>= fun a => (f a).map h := by
  cases x <;> rfl

end Jos
