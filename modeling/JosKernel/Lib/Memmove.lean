import JosKernel.Foundation.RepString

/-!
# Copying memory

`memmove` of `lib/string.c` in both versions: with the string instructions, and the C loops
that stand in their place where `ASM` is not set.  Pointers are compared as unsigned numbers,
their alignment is tested on signed ones.

* `memmove_mem`, `portableMemmove_mem` — each version is the simultaneous copy of the block.
* `memmove_correct` — the bytes after a copy, the two versions and `memcpy` side by side.
-/

set_option autoImplicit false

namespace Jos

open RepString

/-- The registers are loaded for whole words: `(int)s%4 == 0 && (int)d%4 == 0 && n%4 == 0`. -/
def wordwise (s d n : Word) : Bool :=
  s.toInt.tmod 4 = 0 ∧ d.toInt.tmod 4 = 0 ∧ n % 4#32 = 0#32

def memmove (dst src n : Word) (m : Machine) : Word × Machine :=
  let s := src
  let d := dst
  if s < d ∧ s + n > d then
    let s := s + n
    let d := d + n
    if wordwise s d n then
      (dst, cld (repMovs 4 (n / 4#32).toNat (d - 4#32) (s - 4#32) (std m)))
    else (dst, cld (repMovs 1 n.toNat (d - 1#32) (s - 1#32) (std m)))
  else if wordwise s d n then (dst, repMovs 4 (n / 4#32).toNat d s (cld m))
  else (dst, repMovs 1 n.toNat d s (cld m))

/-- `while (n-- > 0) *--d = *--s;` -/
def copyDown : Nat → Word → Word → (Word → Byte) → Word → Byte
  | 0, _, _, mem => mem
  | n + 1, d, s, mem =>
      copyDown n (d - 1#32) (s - 1#32) (Function.update mem (d - 1#32) (mem (s - 1#32)))

/-- `while (n-- > 0) *d++ = *s++;` -/
def copyUp : Nat → Word → Word → (Word → Byte) → Word → Byte
  | 0, _, _, mem => mem
  | n + 1, d, s, mem => copyUp n (d + 1#32) (s + 1#32) (Function.update mem d (mem s))

/-- `memmove` of the `#else` branch. -/
def portableMemmove (dst src n : Word) (mem : Word → Byte) : Word × (Word → Byte) :=
  let s := src
  let d := dst
  if s < d ∧ s + n > d then (dst, copyDown n.toNat (d + n) (s + n) mem)
  else (dst, copyUp n.toNat d s mem)

def memcpy (dst src n : Word) (m : Machine) : Word × Machine := memmove dst src n m

/-! ## The C loops are byte-wise string instructions -/

theorem update_eq_copy (d s : Word) (mem : Word → Byte) :
    Function.update mem d (mem s) = copy 1 d s mem := by
  funext a
  unfold copy
  by_cases ha : a = d
  · subst ha
    rw [Function.update_self, BitVec.sub_self, if_pos (by decide), BitVec.add_zero]
  · have hout : ¬(a - d).toNat < 1 := by bv_omega
    rw [Function.update_of_ne ha, if_neg hout]

theorem copyUp_eq : ∀ (n : Nat) (d s : Word) (mem : Word → Byte),
    copyUp n d s mem = (repMovs 1 n d s ⟨mem, false⟩).mem
  | 0, _, _, _ => rfl
  | n + 1, d, s, mem => by
    rw [copyUp, update_eq_copy, copyUp_eq n]
    rfl

theorem copyDown_eq : ∀ (n : Nat) (d s : Word) (mem : Word → Byte),
    copyDown n d s mem = (repMovs 1 n (d - 1#32) (s - 1#32) ⟨mem, true⟩).mem
  | 0, _, _, _ => rfl
  | n + 1, d, s, mem => by
    rw [copyDown, update_eq_copy, copyDown_eq n]
    rfl

/-! ## Both versions are the simultaneous copy -/

/-- The block in units of `w` bytes. -/
theorem units_up {w k : Nat} {d s n : Word} (hk : w * k = n.toNat)
    (hd : d.toNat + n.toNat ≤ 4294967296) (hs : s.toNat + n.toNat ≤ 4294967296)
    (hdir : ¬(s < d ∧ s + n > d)) (mem : Word → Byte) :
    (repMovs w k d s ⟨mem, false⟩).mem = copy n.toNat d s mem := by
  have hsafe : d.toNat ≤ s.toNat ∨ s.toNat + w * k ≤ d.toNat := by
    -- the end of the source is the address 0 if the block reaches the end of memory
    by_contra hover
    apply hdir
    have hlt : s.toNat + n.toNat < 4294967296 := by omega
    constructor <;> bv_omega
  have hup := repMovs_up w k (m := ⟨mem, false⟩) rfl (hk ▸ hd) (hk ▸ hs) hsafe
  rw [BitVec.ofNat_toNat, BitVec.ofNat_toNat, BitVec.setWidth_eq, BitVec.setWidth_eq, hk] at hup
  exact hup

/-- The block in units of `w` bytes from its end. -/
theorem units_down {w k : Nat} {d s n : Word} (hk : w * k = n.toNat)
    (hd : d.toNat + n.toNat ≤ 4294967296) (hs : s.toNat + n.toNat ≤ 4294967296)
    (hdir : s < d) (mem : Word → Byte) :
    (repMovs w k (d + n - BitVec.ofNat 32 w) (s + n - BitVec.ofNat 32 w) ⟨mem, true⟩).mem =
      copy n.toNat d s mem := by
  have hend : ∀ p : Word, BitVec.ofNat 32 (p.toNat + n.toNat) = p + n := fun p => by
    rw [BitVec.ofNat_add, BitVec.ofNat_toNat, BitVec.ofNat_toNat, BitVec.setWidth_eq,
      BitVec.setWidth_eq]
  have hle : s.toNat ≤ d.toNat := by bv_omega
  have hdown := repMovs_down w k (m := ⟨mem, true⟩) rfl (hk ▸ hd) (hk ▸ hs) hle
  rw [hk, hend, hend, BitVec.ofNat_toNat, BitVec.ofNat_toNat, BitVec.setWidth_eq,
    BitVec.setWidth_eq] at hdown
  exact hdown

theorem words_of_wordwise {s d n : Word} (h : wordwise s d n = true) :
    4 * (n / 4#32).toNat = n.toNat :=
  four_mul_words (of_decide_eq_true h).2.2

theorem memmove_mem {dst src n : Word} (hd : dst.toNat + n.toNat ≤ 4294967296)
    (hs : src.toNat + n.toNat ≤ 4294967296) (m : Machine) :
    (memmove dst src n m).2.mem = copy n.toNat dst src m.mem := by
  unfold memmove
  dsimp only
  by_cases hdir : src < dst ∧ src + n > dst
  · rw [if_pos hdir]
    by_cases hw : wordwise (src + n) (dst + n) n = true
    · rw [if_pos hw]
      exact units_down (words_of_wordwise hw) hd hs hdir.1 m.mem
    · rw [if_neg hw]
      exact units_down (Nat.one_mul _) hd hs hdir.1 m.mem
  · rw [if_neg hdir]
    by_cases hw : wordwise src dst n = true
    · rw [if_pos hw]
      exact units_up (words_of_wordwise hw) hd hs hdir m.mem
    · rw [if_neg hw]
      exact units_up (Nat.one_mul _) hd hs hdir m.mem

theorem portableMemmove_mem {dst src n : Word} (hd : dst.toNat + n.toNat ≤ 4294967296)
    (hs : src.toNat + n.toNat ≤ 4294967296) (mem : Word → Byte) :
    portableMemmove dst src n mem = (dst, copy n.toNat dst src mem) := by
  unfold portableMemmove
  dsimp only
  by_cases hdir : src < dst ∧ src + n > dst
  · rw [if_pos hdir, copyDown_eq]
    exact congrArg (Prod.mk dst) (units_down (Nat.one_mul _) hd hs hdir.1 mem)
  · rw [if_neg hdir, copyUp_eq]
    exact congrArg (Prod.mk dst) (units_up (Nat.one_mul _) hd hs hdir mem)

/-- The destination is returned, and the direction flag is left clear. -/
theorem memmove_frame (dst src n : Word) (m : Machine) :
    (memmove dst src n m).1 = dst ∧ (memmove dst src n m).2.df = false := by
  unfold memmove
  dsimp only
  split
  · split
    · exact ⟨rfl, rfl⟩
    · exact ⟨rfl, rfl⟩
  · split
    · exact ⟨rfl, repMovs_df 4 _ _ _ _⟩
    · exact ⟨rfl, repMovs_df 1 _ _ _ _⟩

/-- **`memmove` copies overlapping blocks**: byte `i` of the destination is the old byte `i` of
    the source, every other byte is the old one; the version without the string instructions
    leaves the same memory, and `memcpy` is the same function. -/
theorem memmove_correct {dst src n : Word} (hd : dst.toNat + n.toNat ≤ 4294967296)
    (hs : src.toNat + n.toNat ≤ 4294967296) (m : Machine) :
    (memmove dst src n m).1 = dst ∧ (memmove dst src n m).2.df = false ∧
      (∀ i < n, (memmove dst src n m).2.mem (dst + i) = m.mem (src + i)) ∧
      (∀ a, (∀ i < n, a ≠ dst + i) → (memmove dst src n m).2.mem a = m.mem a) ∧
      portableMemmove dst src n m.mem = (dst, (memmove dst src n m).2.mem) ∧
      memcpy = memmove := by
  have hframe := memmove_frame dst src n m
  have hspec := copy_spec dst src n m.mem
  rw [memmove_mem hd hs]
  exact ⟨hframe.1, hframe.2, hspec.1, hspec.2, portableMemmove_mem hd hs m.mem, rfl⟩

/-- Two words move up by one word at the end of memory, where `s + n` is `0xFFFFFFFC`. -/
theorem memmove_correct_top :
    (memmove 0xFFFFFFF8#32 0xFFFFFFF4#32 8#32 ⟨BitVec.setWidth 8, false⟩).2.mem 0xFFFFFFFC#32 =
      0xF8#8 :=
  (@memmove_correct 0xFFFFFFF8#32 0xFFFFFFF4#32 8#32 (by decide) (by decide)
    ⟨BitVec.setWidth 8, false⟩).2.2.1 4#32 (by decide)

end Jos
