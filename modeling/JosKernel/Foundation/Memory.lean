import Mathlib.Logic.Function.Basic
import JosKernel.Foundation.CInt

/-!
# Byte memory

A memory is a function from addresses to bytes.  `writeBytes mem a bs` stores a block of
bytes from address `a` on.

* `writeBytes_apply` — the stored bytes inside the block, the old memory elsewhere.
* `writeBytes_append` — two adjacent blocks are one.
* `patches_apply` — after a sequence of patches, the last one that covers an address counts.
-/

set_option autoImplicit false

/-- A byte memory. -/
abbrev Memory := Nat → Byte

def writeBytes (mem : Memory) (a : Nat) : List Byte → Memory
  | [] => mem
  | b :: bs => writeBytes (Function.update mem a b) (a + 1) bs

theorem writeBytes_of_lt : ∀ (bs : List Byte) (mem : Memory) {a x : Nat}, x < a →
    writeBytes mem a bs x = mem x
  | [], _, _, _, _ => rfl
  | b :: bs, mem, a, x, h => by
    rw [writeBytes, writeBytes_of_lt bs _ (by omega), Function.update_of_ne (by omega)]

theorem writeBytes_of_ge : ∀ (bs : List Byte) (mem : Memory) {a x : Nat}, a + bs.length ≤ x →
    writeBytes mem a bs x = mem x
  | [], _, _, _, _ => rfl
  | b :: bs, mem, a, x, h => by
    rw [List.length_cons] at h
    rw [writeBytes, writeBytes_of_ge bs _ (by omega), Function.update_of_ne (by omega)]

theorem writeBytes_getElem : ∀ (bs : List Byte) (mem : Memory) (a : Nat) {i : Nat}
    (h : i < bs.length), writeBytes mem a bs (a + i) = bs[i]
  | b :: bs, mem, a, 0, _ => by
    rw [writeBytes, writeBytes_of_lt bs _ (by omega)]
    exact Function.update_self ..
  | b :: bs, mem, a, i + 1, h => by
    rw [writeBytes, show a + (i + 1) = a + 1 + i by omega]
    exact writeBytes_getElem bs _ (a + 1) (by simpa using h)

/-- The bytes of a memory with a block stored. -/
theorem writeBytes_apply (mem : Memory) (a : Nat) (bs : List Byte) (x : Nat) :
    writeBytes mem a bs x = if h : a ≤ x ∧ x - a < bs.length then bs[x - a] else mem x := by
  split
  · rename_i h
    have := writeBytes_getElem bs mem a h.2
    rwa [show a + (x - a) = x by omega] at this
  · by_cases hlt : x < a
    · exact writeBytes_of_lt bs mem hlt
    · exact writeBytes_of_ge bs mem (by omega)

theorem writeBytes_append : ∀ (bs cs : List Byte) (mem : Memory) (a : Nat),
    writeBytes mem a (bs ++ cs) = writeBytes (writeBytes mem a bs) (a + bs.length) cs
  | [], _, _, _ => rfl
  | b :: bs, cs, mem, a => by
    rw [List.cons_append, writeBytes, writeBytes, writeBytes_append bs cs, List.length_cons,
      show a + 1 + bs.length = a + (bs.length + 1) by omega]

/-! ## Patches -/

/-- A set of stored bytes: `none` where nothing is stored. -/
abbrev Patch := Nat → Option Byte

def patch (p : Patch) (mem : Memory) : Memory := fun x => (p x).getD (mem x)

def patches (ps : List Patch) (mem : Memory) : Memory := ps.foldl (fun mem p => patch p mem) mem

/-- The last patch that covers an address decides its byte. -/
theorem patches_apply (ps : List Patch) (mem : Memory) (x : Nat) :
    patches ps mem x = ((ps.filterMap fun p => p x).getLast?).getD (mem x) := by
  induction ps generalizing mem with
  | nil => rfl
  | cons p ps ih =>
    show patches ps (patch p mem) x = _
    rw [ih, patch, List.filterMap_cons]
    cases hp : p x with
    | none => rfl
    | some b =>
      simp only
      rw [List.getLast?_cons, Option.getD_some, Option.getD_some]

/-! ## Little-endian numbers -/

def le16 (mem : Memory) (a : Nat) : Nat := (mem a).toNat + 256 * (mem (a + 1)).toNat

def le32 (mem : Memory) (a : Nat) : Nat := le16 mem a + 65536 * le16 mem (a + 2)

theorem le16_lt (mem : Memory) (a : Nat) : le16 mem a < 65536 := by
  have h0 := (mem a).isLt
  have h1 := (mem (a + 1)).isLt
  unfold le16
  omega

theorem le32_lt (mem : Memory) (a : Nat) : le32 mem a < 4294967296 := by
  have h0 := le16_lt mem a
  have h1 := le16_lt mem (a + 2)
  unfold le32
  omega

theorem le16_congr {mem mem' : Memory} {a b : Nat}
    (h : ∀ i < 2, mem (a + i) = mem' (b + i)) : le16 mem a = le16 mem' b := by
  have h0 : mem a = mem' b := h 0 (by omega)
  rw [le16, le16, h0, h 1 (by omega)]

theorem le32_congr {mem mem' : Memory} {a b : Nat}
    (h : ∀ i < 4, mem (a + i) = mem' (b + i)) : le32 mem a = le32 mem' b := by
  have h0 : le16 mem a = le16 mem' b := le16_congr fun i hi => h i (by omega)
  have h2 : le16 mem (a + 2) = le16 mem' (b + 2) := le16_congr fun i hi => by
    rw [Nat.add_assoc, Nat.add_assoc]
    exact h (2 + i) (by omega)
  rw [le32, le32, h0, h2]
