import Mathlib.Logic.Function.Basic
import JosKernel.Foundation.CInt

/-!
# String instructions

The x86 `rep movs` and `rep stos` over a byte memory with 32-bit addresses.  A unit of 1 or 4
bytes is read before it is written; the direction flag says whether the pointers go up or down
behind it.

`copy n d s mem` is the simultaneous copy of `n` bytes and `fill n d b mem` the simultaneous
store of one byte.  Principal results: `repMovs_up` — a copy upwards is the simultaneous one if
the destination does not start inside the source behind its beginning; `repMovs_down` — so is a
copy downwards if the destination starts behind the source; `repStos_up` — a store upwards fills
the block if all bytes of the unit are the same.
-/

set_option autoImplicit false

namespace RepString

/-- Memory and direction flag. -/
structure Machine where
  mem : Word → Byte
  df : Bool

/-- `n` bytes from `s` on are copied to `d` at once. -/
def copy (n : Nat) (d s : Word) (mem : Word → Byte) : Word → Byte := fun a =>
  if (a - d).toNat < n then mem (s + (a - d)) else mem a

/-- A pointer behind a unit of `w` bytes. -/
def advance (w : Nat) (df : Bool) (p : Word) : Word :=
  if df then p - BitVec.ofNat 32 w else p + BitVec.ofNat 32 w

/-- `rep movsb` (`w = 1`) and `rep movsl` (`w = 4`) with the count in `ecx`. -/
def repMovs (w : Nat) : Nat → Word → Word → Machine → Machine
  | 0, _, _, m => m
  | ecx + 1, edi, esi, m =>
      repMovs w ecx (advance w m.df edi) (advance w m.df esi) { m with mem := copy w edi esi m.mem }

/-- The `w` low bytes of a register are stored, the lowest first. -/
def storeReg (w : Nat) (d eax : Word) (mem : Word → Byte) : Word → Byte := fun a =>
  if (a - d).toNat < w then (eax >>> (8 * (a - d).toNat)).setWidth 8 else mem a

/-- `rep stosb` (`w = 1`) and `rep stosl` (`w = 4`) with the count in `ecx`. -/
def repStos (w : Nat) (eax : Word) : Nat → Word → Machine → Machine
  | 0, _, m => m
  | ecx + 1, edi, m =>
      repStos w eax ecx (advance w m.df edi) { m with mem := storeReg w edi eax m.mem }

/-- `n` bytes from `d` on are set to `b` at once. -/
def fill (n : Nat) (d : Word) (b : Byte) (mem : Word → Byte) : Word → Byte := fun a =>
  if (a - d).toNat < n then b else mem a

def std (m : Machine) : Machine := { m with df := true }

def cld (m : Machine) : Machine := { m with df := false }

@[simp] theorem repMovs_df (w : Nat) : ∀ (k : Nat) (d s : Word) (m : Machine),
    (repMovs w k d s m).df = m.df
  | 0, _, _, _ => rfl
  | k + 1, _, _, _ => repMovs_df w k _ _ _

@[simp] theorem repStos_df (w : Nat) (eax : Word) : ∀ (k : Nat) (d : Word) (m : Machine),
    (repStos w eax k d m).df = m.df
  | 0, _, _ => rfl
  | k + 1, _, _ => repStos_df w eax k _ _

/-- The words of a block whose length is a multiple of four. -/
theorem four_mul_words {n : Word} (h : n % 4#32 = 0#32) : 4 * (n / 4#32).toNat = n.toNat := by
  have hn : (n % 4#32).toNat = 0 := congrArg BitVec.toNat h
  rw [BitVec.toNat_umod] at hn
  rw [BitVec.toNat_udiv]
  exact Nat.mul_div_cancel' (Nat.dvd_of_mod_eq_zero hn)

/-- The offset of a byte of a block. -/
theorem offset_of_lt {i n : Word} (h : i < n) (d : Word) :
    d + i - d = i ∧ (d + i - d).toNat < n.toNat := by
  constructor <;> bv_omega

/-- An address that is no byte of a block. -/
theorem offset_outside {a d n : Word} (h : ∀ i < n, a ≠ d + i) : ¬(a - d).toNat < n.toNat :=
  fun hlt => h (a - d) (by bv_omega) (by bv_omega)

/-! ## The simultaneous copy -/

theorem copy_zero (d s : Word) (mem : Word → Byte) : copy 0 d s mem = mem := by
  funext a
  exact if_neg (Nat.not_lt_zero _)

/-- A copy of a block that does not wrap, address by address. -/
theorem copy_apply {D n : Nat} (hD : D + n ≤ 4294967296) (S : Nat) (mem : Word → Byte) (a : Word) :
    copy n (BitVec.ofNat 32 D) (BitVec.ofNat 32 S) mem a =
      if D ≤ a.toNat ∧ a.toNat < D + n then mem (BitVec.ofNat 32 (S + (a.toNat - D)))
      else mem a := by
  have ha := a.isLt
  unfold copy
  by_cases hin : D ≤ a.toNat ∧ a.toNat < D + n
  · have hoff : a - BitVec.ofNat 32 D = BitVec.ofNat 32 (a.toNat - D) := by
      apply BitVec.eq_of_toNat_eq
      rw [BitVec.toNat_sub, BitVec.toNat_ofNat, BitVec.toNat_ofNat]
      omega
    have hval : (BitVec.ofNat 32 (a.toNat - D)).toNat = a.toNat - D := by
      rw [BitVec.toNat_ofNat]
      omega
    rw [if_pos hin, hoff, hval, if_pos (by omega), BitVec.ofNat_add]
  · have hout : ¬(a - BitVec.ofNat 32 D).toNat < n := by
      rw [BitVec.toNat_sub, BitVec.toNat_ofNat]
      omega
    rw [if_neg hin, if_neg hout]

/-- The bytes behind a simultaneous copy. -/
theorem copy_spec (d s n : Word) (mem : Word → Byte) :
    (∀ i < n, copy n.toNat d s mem (d + i) = mem (s + i)) ∧
      ∀ a, (∀ i < n, a ≠ d + i) → copy n.toNat d s mem a = mem a := by
  constructor
  · intro i hi
    obtain ⟨hoff, hin⟩ := offset_of_lt hi d
    unfold copy
    rw [if_pos hin, hoff]
  · intro a ha
    exact if_neg (offset_outside ha)

/-! ## Copies in units -/

theorem ofNat_up (p w : Nat) :
    advance w false (BitVec.ofNat 32 p) = BitVec.ofNat 32 (p + w) :=
  (BitVec.ofNat_add p w).symm

theorem ofNat_down (p w : Nat) :
    advance w true (BitVec.ofNat 32 (p + w)) = BitVec.ofNat 32 p := by
  show BitVec.ofNat 32 (p + w) - BitVec.ofNat 32 w = _
  rw [BitVec.ofNat_add, BitVec.add_sub_cancel]

/-- A unit and the block behind it, if the block's source is not in the unit. -/
theorem copy_above {D S n w : Nat} (hD : D + (n + w) ≤ 4294967296) (hS : S + (n + w) ≤ 4294967296)
    (hsafe : D ≤ S ∨ S + (n + w) ≤ D) (mem : Word → Byte) :
    copy n (BitVec.ofNat 32 (D + w)) (BitVec.ofNat 32 (S + w))
        (copy w (BitVec.ofNat 32 D) (BitVec.ofNat 32 S) mem) =
      copy (n + w) (BitVec.ofNat 32 D) (BitVec.ofNat 32 S) mem := by
  funext a
  have hunit : ∀ x : Word, copy w (BitVec.ofNat 32 D) (BitVec.ofNat 32 S) mem x = _ :=
    copy_apply (by omega) S mem
  rw [copy_apply (by omega), copy_apply hD]
  by_cases hblock : D + w ≤ a.toNat ∧ a.toNat < D + w + n
  · -- the byte comes from behind the unit's destination, or from in front of it
    have hsrc : S + w + (a.toNat - (D + w)) = S + (a.toNat - D) := by omega
    have hval : (BitVec.ofNat 32 (S + (a.toNat - D))).toNat = S + (a.toNat - D) := by
      rw [BitVec.toNat_ofNat]
      omega
    rw [if_pos hblock, if_pos (by omega), hsrc, hunit, hval, if_neg (by omega)]
  · rw [if_neg hblock, hunit]
    by_cases hlow : D ≤ a.toNat ∧ a.toNat < D + w
    · rw [if_pos hlow, if_pos (by omega)]
    · rw [if_neg hlow, if_neg (by omega)]

/-- A unit and the block in front of it, if the block's source is not in the unit. -/
theorem copy_below {D S n w : Nat} (hD : D + (n + w) ≤ 4294967296) (hS : S + (n + w) ≤ 4294967296)
    (hsafe : S ≤ D) (mem : Word → Byte) :
    copy n (BitVec.ofNat 32 D) (BitVec.ofNat 32 S)
        (copy w (BitVec.ofNat 32 (D + n)) (BitVec.ofNat 32 (S + n)) mem) =
      copy (n + w) (BitVec.ofNat 32 D) (BitVec.ofNat 32 S) mem := by
  funext a
  have hunit : ∀ x : Word, copy w (BitVec.ofNat 32 (D + n)) (BitVec.ofNat 32 (S + n)) mem x = _ :=
    copy_apply (by omega) (S + n) mem
  rw [copy_apply (by omega), copy_apply hD]
  by_cases hblock : D ≤ a.toNat ∧ a.toNat < D + n
  · have hval : (BitVec.ofNat 32 (S + (a.toNat - D))).toNat = S + (a.toNat - D) := by
      rw [BitVec.toNat_ofNat]
      omega
    rw [if_pos hblock, if_pos (by omega), hunit, hval, if_neg (by omega)]
  · rw [if_neg hblock, hunit]
    by_cases hhigh : D + n ≤ a.toNat ∧ a.toNat < D + n + w
    · rw [if_pos hhigh, if_pos (by omega), show S + n + (a.toNat - (D + n)) = S + (a.toNat - D) by
        omega]
    · rw [if_neg hhigh, if_neg (by omega)]

/-- **A copy upwards** is simultaneous unless the destination starts inside the source, behind
    its beginning. -/
theorem repMovs_up (w : Nat) : ∀ (k : Nat) {D S : Nat} {m : Machine}, m.df = false →
    D + w * k ≤ 4294967296 → S + w * k ≤ 4294967296 → (D ≤ S ∨ S + w * k ≤ D) →
    (repMovs w k (BitVec.ofNat 32 D) (BitVec.ofNat 32 S) m).mem =
      copy (w * k) (BitVec.ofNat 32 D) (BitVec.ofNat 32 S) m.mem
  | 0, D, S, m, _, _, _, _ => (copy_zero _ _ _).symm
  | k + 1, D, S, m, hdf, hD, hS, hsafe => by
    rw [Nat.mul_succ] at hD hS hsafe ⊢
    rw [repMovs, hdf, ofNat_up, ofNat_up,
      repMovs_up w k rfl (by omega) (by omega) (by omega)]
    exact copy_above hD hS hsafe m.mem

/-- **A copy downwards** is simultaneous if the destination does not start in front of the
    source. -/
theorem repMovs_down (w : Nat) : ∀ (k : Nat) {D S : Nat} {m : Machine}, m.df = true →
    D + w * k ≤ 4294967296 → S + w * k ≤ 4294967296 → S ≤ D →
    (repMovs w k (BitVec.ofNat 32 (D + w * k) - BitVec.ofNat 32 w)
        (BitVec.ofNat 32 (S + w * k) - BitVec.ofNat 32 w) m).mem =
      copy (w * k) (BitVec.ofNat 32 D) (BitVec.ofNat 32 S) m.mem
  | 0, D, S, m, _, _, _, _ => (copy_zero _ _ _).symm
  | k + 1, D, S, m, hdf, hD, hS, hsafe => by
    have hstart : ∀ p : Nat, BitVec.ofNat 32 (p + w * (k + 1)) - BitVec.ofNat 32 w =
        BitVec.ofNat 32 (p + w * k) := fun p => by
      rw [Nat.mul_succ, ← Nat.add_assoc]
      exact ofNat_down (p + w * k) w
    rw [hstart, hstart, repMovs, hdf]
    rw [Nat.mul_succ] at hD hS ⊢
    refine (repMovs_down w k rfl (by omega) (by omega) hsafe).trans ?_
    exact copy_below hD hS hsafe m.mem

/-! ## Stores in units -/

theorem fill_zero (d : Word) (b : Byte) (mem : Word → Byte) : fill 0 d b mem = mem := by
  funext a
  exact if_neg (Nat.not_lt_zero _)

/-- The bytes behind a store. -/
theorem fill_spec (d n : Word) (b : Byte) (mem : Word → Byte) :
    (∀ i < n, fill n.toNat d b mem (d + i) = b) ∧
      ∀ a, (∀ i < n, a ≠ d + i) → fill n.toNat d b mem a = mem a := by
  constructor
  · intro i hi
    exact if_pos (offset_of_lt hi d).2
  · intro a ha
    exact if_neg (offset_outside ha)

/-- A unit of equal bytes. -/
theorem storeReg_eq_fill {w : Nat} {eax : Word} {b : Byte}
    (h : ∀ i < w, (eax >>> (8 * i)).setWidth 8 = b) (d : Word) (mem : Word → Byte) :
    storeReg w d eax mem = fill w d b mem := by
  funext a
  unfold storeReg fill
  split
  · rename_i hlt
    exact h _ hlt
  · rfl

/-- A unit and the block behind it. -/
theorem fill_above {n w : Nat} (h : n + w ≤ 4294967296) (d : Word) (b : Byte)
    (mem : Word → Byte) :
    fill n (d + BitVec.ofNat 32 w) b (fill w d b mem) = fill (n + w) d b mem := by
  funext a
  have ha := (a - d).isLt
  have hsub : a - (d + BitVec.ofNat 32 w) = a - d - BitVec.ofNat 32 w := by bv_omega
  have hoff : (a - d - BitVec.ofNat 32 w).toNat =
      (4294967296 - w % 4294967296 + (a - d).toNat) % 4294967296 := by
    rw [BitVec.toNat_sub, BitVec.toNat_ofNat]
  unfold fill
  rw [hsub, hoff]
  by_cases hw : (a - d).toNat < w
  · rw [if_pos hw, ite_self, if_pos (by omega)]
  · rw [if_neg hw]
    by_cases hn : (a - d).toNat < n + w
    · rw [if_pos hn, if_pos (by omega)]
    · rw [if_neg hn, if_neg (by omega)]

/-- **A store upwards** fills the block if all bytes of the unit are the same. -/
theorem repStos_up {w : Nat} {eax : Word} {b : Byte}
    (h : ∀ i < w, (eax >>> (8 * i)).setWidth 8 = b) :
    ∀ (k : Nat) (d : Word) {m : Machine}, m.df = false → w * k ≤ 4294967296 →
      (repStos w eax k d m).mem = fill (w * k) d b m.mem
  | 0, d, m, _, _ => (fill_zero d b m.mem).symm
  | k + 1, d, m, hdf, hk => by
    rw [Nat.mul_succ] at hk ⊢
    rw [repStos, hdf, storeReg_eq_fill h, repStos_up h k _ rfl (by omega)]
    exact fill_above hk d b m.mem

end RepString
