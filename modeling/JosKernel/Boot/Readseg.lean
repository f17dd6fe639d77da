import JosKernel.Boot.Disk

/-!
# Loading exactly the requested bytes

`readsegCalls` is the loop of `readseg` with its calls of `readsect` written down instead of
made; the loop makes them one after the other.  They name consecutive sectors, so the sectors
stay below `2^28` and the task file selects each of them.

Principal result: `readseg_loads` — an aligned request arrives byte for byte.
-/

set_option autoImplicit false

namespace Jos

/-- The registers select this sector of drive 0, in LBA mode. -/
def Ata.Selects (t : Ata) (sector : Nat) : Prop := t.lba = sector ∧ t.device &&& 0x50 = 0x40

instance (t : Ata) (sector : Nat) : Decidable (t.Selects sector) :=
  inferInstanceAs (Decidable (_ ∧ _))

/-- The loop of `readseg`: the destination and the sector of each call of `readsect`. -/
def readsegCalls : Nat → Nat → Nat → Nat → Option (List (Nat × Nat))
  | 0, _, _, _ => none
  | fuel + 1, pa, end_pa, offset =>
      if pa < end_pa then
        (readsegCalls fuel ((pa + SECTSIZE) % 4294967296) end_pa
          ((offset + 1) % 4294967296)).map ((pa, offset) :: ·)
      else some []

/-- The calls of `readsect` in `readseg`. -/
def sectorCalls (pa count offset : Nat) : Option (List (Nat × Nat)) :=
  readsegCalls (8388608 + 1) (pa - pa % SECTSIZE) ((pa + count) % 4294967296)
    (offset / SECTSIZE + 1)

variable (disk : Disk)

def readsects (calls : List (Nat × Nat)) (m : Pc) : Pc :=
  calls.foldl (fun m c => readsect disk c.1 c.2 m) m

/-- The loop makes its calls and nothing else. -/
theorem readsegLoop_calls : ∀ (fuel pa end_pa offset : Nat) (m : Pc),
    readsegLoop disk fuel pa end_pa offset m =
      (readsegCalls fuel pa end_pa offset).map fun calls => readsects disk calls m
  | 0, _, _, _, _ => rfl
  | fuel + 1, pa, end_pa, offset, m => by
    rw [readsegLoop_succ, readsegCalls]
    split
    · rw [readsegLoop_calls fuel, Option.map_map]
      rfl
    · rfl

theorem readseg_calls (pa count offset : Nat) (m : Pc) :
    readseg disk pa count offset m =
      (sectorCalls pa count offset).map fun calls => readsects disk calls m :=
  readsegLoop_calls disk _ _ _ _ m

/-- The calls go through consecutive sectors. -/
theorem readsegCalls_eq : ∀ (fuel pa end_pa offset : Nat), end_pa ≤ 4294966784 →
    offset + (end_pa - pa + 511) / 512 ≤ 268435455 → (end_pa - pa + 511) / 512 < fuel →
    readsegCalls fuel pa end_pa offset =
      some ((List.range ((end_pa - pa + 511) / 512)).map fun i => (pa + 512 * i, offset + i))
  | 0, _, _, _, _, _, h => absurd h (Nat.not_lt_zero _)
  | fuel + 1, pa, end_pa, offset, hend, hoffset, hfuel => by
    rw [readsegCalls, SECTSIZE_eq]
    by_cases hlt : pa < end_pa
    · have hcount : (end_pa - pa + 511) / 512 = (end_pa - (pa + 512) + 511) / 512 + 1 := by omega
      rw [if_pos hlt, Nat.mod_eq_of_lt (by omega), Nat.mod_eq_of_lt (by omega),
        readsegCalls_eq fuel (pa + 512) end_pa (offset + 1) hend (by omega) (by omega), hcount,
        List.range_succ_eq_map, List.map_cons, List.map_map, Option.map_some]
      congr 2
      apply List.map_congr_left
      intro i _
      simp only [Function.comp_apply, Prod.mk.injEq]
      omega
    · rw [if_neg hlt, show (end_pa - pa + 511) / 512 = 0 by omega]
      rfl

/-- The address bytes of a sector below `2^28` select it. -/
theorem program_selects {sector : Nat} (h : sector < 268435456) (t : Ata) :
    (t.program disk sector).Selects sector := by
  have hhigh : sector >>> 24 < 16 := by
    rw [Nat.shiftRight_eq_div_pow]
    omega
  obtain ⟨hlba, hmode⟩ := device_spec (sector >>> 24) hhigh
  have hsector : (t.program disk sector).lba =
      (BitVec.ofNat 8 sector).toNat + 256 * (BitVec.ofNat 8 (sector >>> 8)).toNat +
        65536 * (BitVec.ofNat 8 (sector >>> 16)).toNat +
        16777216 * ((BitVec.ofNat 8 (sector >>> 24 ||| 0xE0) : Byte) &&& 0x0F).toNat := rfl
  refine ⟨?_, hmode⟩
  rw [hsector, hlba, toNat_low, toNat_low, toNat_low]
  simp only [Nat.shiftRight_eq_div_pow]
  omega

/-- The sectors that `readseg` asks for have numbers of 28 bits. -/
theorem sectorCalls_lt {pa count offset : Nat} (hend : pa + count ≤ 4294966784)
    (hoffset : offset < 4294967296) :
    ∃ calls, sectorCalls pa count offset = some calls ∧ ∀ c ∈ calls, c.2 < 268435456 := by
  have hcalls := readsegCalls_eq (8388608 + 1) (pa - pa % 512) (pa + count) (offset / 512 + 1)
    (by omega) (by omega) (by omega)
  refine ⟨(List.range ((pa + count - (pa - pa % 512) + 511) / 512)).map
    fun i => (pa - pa % 512 + 512 * i, offset / 512 + 1 + i), ?_, ?_⟩
  · rw [sectorCalls, SECTSIZE_eq, Nat.mod_eq_of_lt (show pa + count < 4294967296 by omega)]
    exact hcalls
  · intro c hc
    obtain ⟨i, hi, rfl⟩ := List.mem_map.mp hc
    have := List.mem_range.mp hi
    show offset / 512 + 1 + i < 268435456
    omega

/-- **`readseg` loads exactly the requested bytes**, from sectors that the controller is able
to name. -/
theorem readseg_loads {pa count offset : Nat} (hmod : pa % SECTSIZE = offset % SECTSIZE)
    (hend : pa + count ≤ 4294967296 - SECTSIZE) (hoffset : offset < 4294967296) (m : Pc) :
    ∃ calls m', sectorCalls pa count offset = some calls ∧
      readseg disk pa count offset m = some m' ∧ m' = readsects disk calls m ∧
      (∀ c ∈ calls, c.2 < 268435456 ∧ ∀ t : Ata, (t.program disk c.2).Selects c.2) ∧
      (∀ k < count, m'.mem (pa + k) = image disk (offset + k)) ∧
      ∀ x, x < pa / SECTSIZE * SECTSIZE ∨
          (pa + count + (SECTSIZE - 1)) / SECTSIZE * SECTSIZE ≤ x → m'.mem x = m.mem x := by
  simp only [SECTSIZE_eq] at *
  have hlast : pa + count ≤ 4294966784 := by omega
  obtain ⟨calls, hcalls, hlt⟩ := sectorCalls_lt hlast hoffset
  obtain ⟨m', hrun, hmem⟩ := readseg_spec disk hlast hoffset m
  have hfold : m' = readsects disk calls m := by
    have h := readseg_calls disk pa count offset m
    rw [hrun, hcalls] at h
    exact Option.some.inj h
  refine ⟨calls, m', hcalls, hrun, hfold, ?_, ?_, ?_⟩
  · intro c hc
    exact ⟨hlt c hc, program_selects disk (hlt c hc)⟩
  · intro k hk
    have hcover : Covers pa count (pa + k) := by
      unfold Covers
      omega
    rw [hmem, if_pos hcover]
    congr 1
    omega
  · intro x hx
    have hfar : ¬Covers pa count x := by
      unfold Covers
      omega
    rw [hmem, if_neg hfar]

/-- 700 bytes at `0x1100a5` from offset `0x10a5`, on a machine that is all zeros. -/
theorem readseg_loads_unaligned :
    ∃ m', readseg (fun k => BitVec.ofNat 8 k) 0x1100a5 700 0x10a5
        ⟨fun _ => 0, ⟨0, 0, 0, 0, 0, []⟩⟩ = some m' ∧
      ∀ k < 700, m'.mem (0x1100a5 + k) = image (fun k => BitVec.ofNat 8 k) (0x10a5 + k) := by
  obtain ⟨_, m', -, hrun, -, -, hmem, -⟩ := readseg_loads (fun k => BitVec.ofNat 8 k)
    (show 0x1100a5 % SECTSIZE = 0x10a5 % SECTSIZE by decide)
    (show 0x1100a5 + 700 ≤ 4294967296 - SECTSIZE by decide) (by decide)
    ⟨fun _ => 0, ⟨0, 0, 0, 0, 0, []⟩⟩
  exact ⟨m', hrun, hmem⟩

end Jos
