import JosKernel.Foundation.RepString

/-!
# Filling memory

`memset` of `lib/string.c` in both versions: with the string instructions, and the C loop that
stands in its place where `ASM` is not set.  The first takes the low byte of its `int` four
times into a word and stores whole words where it can; the second counts in an `int`.

* `memset_mem`, `portableMemset_mem` — each version sets every byte of the block at once.
* `memset_correct` — the bytes behind `memset`, and the two versions side by side.
* `clearBss_spec` — what `i386_init` does before anything else.
* `portableMemset_large` — a block of more than `2^31` bytes, where the loop stores nothing.
-/

set_option autoImplicit false

namespace Jos

open RepString

/-- `c &= 0xFF; c = (c<<24)|(c<<16)|(c<<8)|c;` -/
def replicated (c : Word) : Word :=
  let c := c &&& 0xFF#32
  (c <<< 24) ||| (c <<< 16) ||| (c <<< 8) ||| c

/-- `memset`, for a machine that is as it was (`same`) or has executed `cld; rep stos`, given the
    unit, `eax`, `ecx` and `edi`. -/
def memsetBy {μ : Type} (same : μ) (stos : Nat → Word → Nat → Word → μ) (v c n : Word) : μ :=
  if n = 0#32 then same
  else if v.toInt.tmod 4 = 0 ∧ n % 4#32 = 0#32 then stos 4 (replicated c) (n / 4#32).toNat v
  else stos 1 c n.toNat v

def memset (v c n : Word) (m : Machine) : Word × Machine :=
  (v, memsetBy m (fun w eax ecx edi => repStos w eax ecx edi (cld m)) v c n)

/-- `while (--m >= 0) *p++ = c;` -/
def fillLoop (c m p : Word) (mem : Word → Byte) : Word → Byte :=
  if 0 ≤ (m - 1#32).toInt then
    fillLoop c (m - 1#32) (p + 1#32) (Function.update mem p (c.setWidth 8))
  else mem
termination_by m.toNat
decreasing_by
  rename_i h
  by_cases hm : m = 0#32
  · subst hm
    exact absurd h (by decide)
  · bv_omega

/-- `memset` of the `#else` branch. -/
def portableMemset (v c n : Word) (mem : Word → Byte) : Word × (Word → Byte) :=
  (v, fillLoop c n v mem)

/-! ## The string instructions -/

theorem getLsbD_lowByte (c : Word) (j : Nat) :
    (c &&& 0xFF#32).getLsbD j = (c.getLsbD j && decide (j < 8)) := by
  have hmask : (0xFF#32).getLsbD j = decide (j < 8) := by
    rw [show 0xFF#32 = (BitVec.allOnes 8).setWidth 32 by decide, BitVec.getLsbD_setWidth,
      BitVec.getLsbD_allOnes]
    grind
  rw [BitVec.getLsbD_and, hmask]

/-- All bytes of the replicated word are the low byte. -/
theorem replicated_byte (c : Word) :
    ∀ i < 4, (replicated c >>> (8 * i)).setWidth 8 = c.setWidth 8 := by
  intro i hi
  ext k hk
  rw [BitVec.getElem_setWidth, BitVec.getElem_setWidth, BitVec.getLsbD_ushiftRight]
  unfold replicated
  simp only [BitVec.getLsbD_or, BitVec.getLsbD_shiftLeft, getLsbD_lowByte]
  obtain rfl | rfl | rfl | rfl : i = 0 ∨ i = 1 ∨ i = 2 ∨ i = 3 := by omega
  -- bit `8 * i + k` is set by the shift by `8 * i` alone
  all_goals grind

/-- The low byte as a unit. -/
theorem lowByte_unit (c : Word) : ∀ i < 1, (c >>> (8 * i)).setWidth 8 = c.setWidth 8 := by
  intro i hi
  rw [Nat.lt_one_iff.1 hi]
  rfl

theorem memset_mem (v c n : Word) (m : Machine) :
    (memset v c n m).2.mem = fill n.toNat v (c.setWidth 8) m.mem := by
  have hn := n.isLt
  unfold memset memsetBy
  by_cases hz : n = 0#32
  · rw [if_pos hz, hz]
    exact (fill_zero v _ m.mem).symm
  · rw [if_neg hz]
    by_cases hw : v.toInt.tmod 4 = 0 ∧ n % 4#32 = 0#32
    · have hlen := four_mul_words hw.2
      rw [if_pos hw]
      refine (repStos_up (replicated_byte c) _ v rfl (by omega)).trans ?_
      rw [hlen]
      rfl
    · rw [if_neg hw]
      refine (repStos_up (lowByte_unit c) _ v rfl (by omega)).trans ?_
      rw [Nat.one_mul]
      rfl

/-- The pointer is returned, and the direction flag is clear unless the block is empty. -/
theorem memset_frame (v c n : Word) (m : Machine) :
    (memset v c n m).1 = v ∧ (n ≠ 0#32 → (memset v c n m).2.df = false) := by
  refine ⟨rfl, fun hn => ?_⟩
  unfold memset memsetBy
  rw [if_neg hn]
  split
  · exact repStos_df 4 _ _ _ _
  · exact repStos_df 1 _ _ _ _

/-! ## The C loop -/

theorem update_eq_fill (d : Word) (b : Byte) (mem : Word → Byte) :
    Function.update mem d b = fill 1 d b mem := by
  funext a
  unfold fill
  by_cases ha : a = d
  · subst ha
    rw [Function.update_self, BitVec.sub_self, if_pos (by decide)]
  · have hout : ¬(a - d).toNat < 1 := by bv_omega
    rw [Function.update_of_ne ha, if_neg hout]

/-- The loop with a counter that is not negative. -/
theorem fillLoop_eq (c : Word) : ∀ (k : Nat), k ≤ 2147483648 → ∀ (p : Word) (mem : Word → Byte),
    fillLoop c (BitVec.ofNat 32 k) p mem = fill k p (c.setWidth 8) mem
  | 0, _, p, mem => by
    rw [fillLoop, if_neg (by decide), fill_zero]
  | k + 1, hk, p, mem => by
    have hpred : BitVec.ofNat 32 (k + 1) - 1#32 = BitVec.ofNat 32 k := by
      rw [BitVec.ofNat_add, BitVec.add_sub_cancel]
    have hsign : 0 ≤ (BitVec.ofNat 32 k).toInt := by
      rw [BitVec.toInt_eq_toNat_cond, BitVec.toNat_ofNat]
      omega
    rw [fillLoop, hpred, if_pos hsign, fillLoop_eq c k (by omega), update_eq_fill]
    exact fill_above (by omega) p _ mem

theorem portableMemset_mem (v c : Word) {n : Word} (hn : n.toNat ≤ 2147483648)
    (mem : Word → Byte) :
    portableMemset v c n mem = (v, fill n.toNat v (c.setWidth 8) mem) := by
  have hloop := fillLoop_eq c n.toNat hn v mem
  rw [BitVec.ofNat_toNat, BitVec.setWidth_eq] at hloop
  rw [portableMemset, hloop]

/-- Beyond `2^31` bytes the counter starts negative. -/
theorem portableMemset_large (v c : Word) {n : Word} (hn : 2147483648 < n.toNat)
    (mem : Word → Byte) : portableMemset v c n mem = (v, mem) := by
  have hsign : ¬0 ≤ (n - 1#32).toInt := by
    rw [BitVec.toInt_eq_toNat_cond]
    bv_omega
  rw [portableMemset, fillLoop, if_neg hsign]

/-! ## Both versions -/

theorem lowByte_value (c : Word) : ((c.setWidth 8).toNat : Int) = c.toInt % 256 := by
  rw [BitVec.toNat_setWidth, BitVec.toInt_eq_toNat_cond]
  split <;> omega

/-- **`memset` is a fill byte by byte**: each byte of the block is the `int` modulo 256, every
    other byte is the old one, and the loop with the signed counter leaves the same memory where
    the length is no negative `int`. -/
theorem memset_correct (v c n : Word) (m : Machine) :
    (memset v c n m).1 = v ∧
      (∀ i < n, ((memset v c n m).2.mem (v + i)).toNat = c.toInt % 256) ∧
      (∀ a, (∀ i < n, a ≠ v + i) → (memset v c n m).2.mem a = m.mem a) ∧
      (n.toNat < 2147483648 → portableMemset v c n m.mem = (v, (memset v c n m).2.mem)) := by
  obtain ⟨hin, hout⟩ := fill_spec v n (c.setWidth 8) m.mem
  rw [memset_mem]
  refine ⟨(memset_frame v c n m).1, fun i hi => ?_, hout, fun hn =>
    portableMemset_mem v c (Nat.le_of_lt hn) m.mem⟩
  rw [hin i hi]
  exact lowByte_value c

/-- Two words at an address with the sign bit, filled with a negative `int`. -/
theorem memset_correct_words :
    ((memset 0xF0100000#32 0xFFFFFF85#32 8#32 ⟨fun _ => 0#8, false⟩).2.mem 0xF0100007#32).toNat =
        (0x85 : Int) ∧
      portableMemset 0xF0100000#32 0xFFFFFF85#32 8#32 (fun _ => 0#8) =
        (0xF0100000#32, (memset 0xF0100000#32 0xFFFFFF85#32 8#32 ⟨fun _ => 0#8, false⟩).2.mem) := by
  have h := memset_correct 0xF0100000#32 0xFFFFFF85#32 8#32 ⟨fun _ => 0#8, false⟩
  exact ⟨h.2.1 7#32 (by decide), h.2.2.2 (by decide)⟩

/-! ## The uninitialised data of the kernel -/

/-- `memset(__bss_start, 0, end - __bss_start)` of `i386_init`. -/
def clearBss (bss_start stop : Word) (m : Machine) : Machine :=
  (memset bss_start 0#32 (stop - bss_start) m).2

/-- Every static variable without a value starts out zero, and nothing else is touched. -/
theorem clearBss_spec {bss_start stop : Word} (h : bss_start ≤ stop) (m : Machine) (a : Word) :
    (clearBss bss_start stop m).mem a =
      if bss_start ≤ a ∧ a < stop then 0#8 else m.mem a := by
  have hblock : (a - bss_start).toNat < (stop - bss_start).toNat ↔
      bss_start ≤ a ∧ a < stop := by
    bv_omega
  rw [clearBss, memset_mem]
  exact if_congr hblock rfl rfl

end Jos
