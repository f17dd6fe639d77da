import JosKernel.Boot.Disk

/-!
# The boot loader

`bootmain` of `boot/main.c`: it reads the first page of the kernel image to the scratch page
at `ELFHDR`, loads the segments that the program headers there ask for, and jumps to the
entry point.  Every load rounds to whole sectors on both sides.

Principal results: `bootmain_loads` — the memory at the jump is the sequence of the loads of
the image's headers; `boot_intact_iff` — the segments are intact exactly when a load does not
round down over different bytes of an earlier segment.
-/

set_option autoImplicit false

namespace Jos

def ELFHDR : Nat := 0x10000
def ELF_MAGIC : Nat := 0x464C457F

/-- The fields of `struct Elf` that the loader reads. -/
structure Elf where
  e_magic : Nat
  e_entry : Nat
  e_phoff : Nat
  e_phnum : Nat
  deriving DecidableEq

/-- The fields of `struct Proghdr` that the loader reads, and `p_filesz`. -/
structure Proghdr where
  p_offset : Nat
  p_pa : Nat
  p_filesz : Nat
  p_memsz : Nat
  deriving DecidableEq

def elfAt (mem : Memory) (a : Nat) : Elf :=
  ⟨le32 mem a, le32 mem (a + 24), le32 mem (a + 28), le16 mem (a + 44)⟩

def proghdrAt (mem : Memory) (a : Nat) : Proghdr :=
  ⟨le32 mem (a + 4), le32 mem (a + 12), le32 mem (a + 16), le32 mem (a + 20)⟩

/-- `sizeof(struct Proghdr)`. -/
def PROGHDR_SIZE : Nat := 32

theorem PROGHDR_SIZE_eq : PROGHDR_SIZE = 32 := rfl

section

variable {μ : Type} (mem : μ → Memory) (readsect : Nat → Nat → μ → Option μ)

/-- `for (; ph < eph; ph++)`, for a machine with its memory and its `readsect`. -/
def loadSegmentsBy : Nat → Nat → Nat → μ → Option μ
  | 0, _, _, _ => none
  | fuel + 1, ph, eph, m =>
      if ph < eph then do
        let p := proghdrAt (mem m) ph
        let m ← readsegBy readsect p.p_pa p.p_memsz p.p_offset m
        loadSegmentsBy fuel ((ph + PROGHDR_SIZE) % 4294967296) eph m
      else some m

/-- `bootmain`: the machine, and the address of the jump unless the image is bad.  There are
    less than 65536 headers. -/
def bootmainBy (m : μ) : Option (μ × Option Nat) := do
  -- read 1st page off disk
  let m ← readsegBy readsect ELFHDR (SECTSIZE * 8) 0 m
  let hdr := elfAt (mem m) ELFHDR
  if hdr.e_magic ≠ ELF_MAGIC then some (m, none)
  else do
    let ph := (ELFHDR + hdr.e_phoff) % 4294967296
    let eph := (ph + PROGHDR_SIZE * hdr.e_phnum) % 4294967296
    let m ← loadSegmentsBy mem readsect 65536 ph eph m
    some (m, some (elfAt (mem m) ELFHDR).e_entry)

end

variable (disk : Disk)

/-- `bootmain` with a disk that is always ready, and its loop. -/
def loadSegments : Nat → Nat → Nat → Pc → Option Pc :=
  loadSegmentsBy Pc.mem fun dst offset m => some (readsect disk dst offset m)

def bootmain : Pc → Option (Pc × Option Nat) :=
  bootmainBy Pc.mem fun dst offset m => some (readsect disk dst offset m)

theorem loadSegments_succ (fuel ph eph : Nat) (m : Pc) :
    loadSegments disk (fuel + 1) ph eph m =
      if ph < eph then
        (readseg disk (proghdrAt m.mem ph).p_pa (proghdrAt m.mem ph).p_memsz
          (proghdrAt m.mem ph).p_offset m).bind
          (loadSegments disk fuel ((ph + PROGHDR_SIZE) % 4294967296) eph)
      else some m := rfl

theorem bootmain_of_scratch {m m₀ : Pc} (h : readseg disk ELFHDR (SECTSIZE * 8) 0 m = some m₀) :
    bootmain disk m =
      if (elfAt m₀.mem ELFHDR).e_magic ≠ ELF_MAGIC then some (m₀, none)
      else
        (loadSegments disk 65536 ((ELFHDR + (elfAt m₀.mem ELFHDR).e_phoff) % 4294967296)
          (((ELFHDR + (elfAt m₀.mem ELFHDR).e_phoff) % 4294967296 +
            PROGHDR_SIZE * (elfAt m₀.mem ELFHDR).e_phnum) % 4294967296) m₀).bind
          fun m => some (m, some (elfAt m.mem ELFHDR).e_entry) := by
  unfold bootmain bootmainBy
  rw [readseg] at h
  rw [h]
  rfl

/-! ## The loads of an image -/

/-- A table of program headers. -/
def proghdrs (img : Memory) : Nat → Nat → List Proghdr
  | _, 0 => []
  | a, n + 1 => proghdrAt img a :: proghdrs img (a + PROGHDR_SIZE) n

/-- The program headers of a kernel image. -/
def headers (img : Memory) : List Proghdr :=
  proghdrs img (elfAt img 0).e_phoff (elfAt img 0).e_phnum

/-- The image byte that a load brings to an address. -/
def Proghdr.source (p : Proghdr) (x : Nat) : Nat :=
  p.p_offset / 512 * 512 + (x - p.p_pa / 512 * 512)

/-- The bytes that the load of a segment stores. -/
def Proghdr.load (img : Memory) (p : Proghdr) : Patch := fun x =>
  if Covers p.p_pa p.p_memsz x then some (img (p.source x)) else none

/-- An image for which the loader is meant.  The segments lie above the scratch page, in
    increasing order and disjoint, and rounding a segment up to a sector does not wrap. -/
structure WellFormed (img : Memory) : Prop where
  magic : (elfAt img 0).e_magic = ELF_MAGIC
  table : (elfAt img 0).e_phoff + PROGHDR_SIZE * (elfAt img 0).e_phnum ≤ 4096
  filesz : ∀ p ∈ headers img, p.p_filesz ≤ p.p_memsz
  congruent : ∀ p ∈ headers img, p.p_pa % 512 = p.p_offset % 512
  above : ∀ p ∈ headers img, 0x11000 ≤ p.p_pa
  roundUp : ∀ p ∈ headers img, (p.p_pa + p.p_memsz + 511) / 512 * 512 < 4294967296
  increasing : (headers img).Pairwise fun p q => p.p_pa + p.p_memsz ≤ q.p_pa

/-- The scratch page still holds the first page of the image. -/
def Scratch (mem : Memory) : Prop := ∀ k < 4096, mem (ELFHDR + k) = image disk k

theorem Scratch.elfAt {mem : Memory} (h : Scratch disk mem) :
    elfAt mem ELFHDR = Jos.elfAt (image disk) 0 := by
  unfold Jos.elfAt
  congr 1
  · exact le32_congr fun i hi => by simpa using h i (by omega)
  · exact le32_congr fun i hi => by
      rw [Nat.add_assoc, h _ (by omega), Nat.zero_add]
  · exact le32_congr fun i hi => by
      rw [Nat.add_assoc, h _ (by omega), Nat.zero_add]
  · exact le16_congr fun i hi => by
      rw [Nat.add_assoc, h _ (by omega), Nat.zero_add]

theorem Scratch.proghdrAt {mem : Memory} (h : Scratch disk mem) {k : Nat} (hk : k + 32 ≤ 4096) :
    proghdrAt mem (ELFHDR + k) = Jos.proghdrAt (image disk) k := by
  unfold Jos.proghdrAt
  congr 1
  all_goals
    refine le32_congr fun i hi => ?_
    rw [Nat.add_assoc, Nat.add_assoc, h _ (by omega), Nat.add_assoc]

/-- A segment above the scratch page leaves it alone. -/
theorem Scratch.load {mem : Memory} (h : Scratch disk mem) {p : Proghdr} (hp : 0x11000 ≤ p.p_pa) :
    Scratch disk (patch (p.load (image disk)) mem) := by
  intro k hk
  have hno : ¬Covers p.p_pa p.p_memsz (ELFHDR + k) := by
    unfold Covers ELFHDR
    omega
  rw [patch, Proghdr.load, if_neg hno]
  exact h k hk

theorem readseg_load {p : Proghdr} (hend : p.p_pa + p.p_memsz ≤ 4294966784)
    (hoffset : p.p_offset < 4294967296) (m : Pc) :
    ∃ ata, readseg disk p.p_pa p.p_memsz p.p_offset m =
      some ⟨patch (p.load (image disk)) m.mem, ata⟩ := by
  obtain ⟨⟨mem', ata⟩, hrun, hmem⟩ := readseg_spec disk hend hoffset m
  refine ⟨ata, hrun.trans ?_⟩
  congr 2
  funext x
  refine (hmem x).trans ?_
  rw [patch, Proghdr.load]
  split <;> rfl

/-- The first page of the image is copied to the scratch page. -/
theorem readseg_scratch (m : Pc) :
    ∃ m', readseg disk ELFHDR (SECTSIZE * 8) 0 m = some m' ∧ Scratch disk m'.mem := by
  obtain ⟨m', hrun, hmem⟩ := @readseg_spec disk ELFHDR (SECTSIZE * 8) 0
    (by decide) (by decide) m
  refine ⟨m', hrun, fun k hk => ?_⟩
  rw [hmem, if_pos (by unfold Covers ELFHDR SECTSIZE; omega),
    show 0 / 512 * 512 + (ELFHDR + k - ELFHDR / 512 * 512) = k by unfold ELFHDR; omega]

/-- **The loop stores the segments of a table in the scratch page**, in its order. -/
theorem loadSegments_spec : ∀ (n fuel k : Nat) (m : Pc), n < fuel → k + 32 * n ≤ 4096 →
    (∀ p ∈ proghdrs (image disk) k n, 0x11000 ≤ p.p_pa ∧ p.p_pa + p.p_memsz ≤ 4294966784) →
    Scratch disk m.mem →
    ∃ m', loadSegments disk fuel (ELFHDR + k) (ELFHDR + k + 32 * n) m = some m' ∧
      m'.mem = patches ((proghdrs (image disk) k n).map (Proghdr.load (image disk))) m.mem ∧
      Scratch disk m'.mem
  | _, 0, _, _, h, _, _, _ => absurd h (Nat.not_lt_zero _)
  | 0, fuel + 1, k, m, _, _, _, hscratch => by
    rw [loadSegments_succ, if_neg (by omega)]
    exact ⟨m, rfl, rfl, hscratch⟩
  | n + 1, fuel + 1, k, m, hfuel, htable, hfit, hscratch => by
    obtain ⟨⟨habove, hend⟩, hrest⟩ := List.forall_mem_cons.mp hfit
    obtain ⟨ata, hrun⟩ := readseg_load disk hend (le32_lt _ _) m
    obtain ⟨m', hloop, hpatch, hscratch'⟩ := loadSegments_spec n fuel (k + 32)
      ⟨patch ((proghdrAt (image disk) k).load (image disk)) m.mem, ata⟩ (by omega) (by omega) hrest
      (hscratch.load disk habove)
    refine ⟨m', ?_, hpatch, hscratch'⟩
    have hnext : (ELFHDR + k + PROGHDR_SIZE) % 4294967296 = ELFHDR + (k + 32) := by
      unfold ELFHDR PROGHDR_SIZE
      omega
    have hstop : ELFHDR + k + 32 * (n + 1) = ELFHDR + (k + 32) + 32 * n := by omega
    rw [loadSegments_succ, if_pos (by omega), hscratch.proghdrAt disk (by omega), hnext, hstop]
    exact (congrArg (Option.bind · _) hrun).trans hloop

/-- **The memory at the jump is the sequence of the loads**, in the order of the headers. -/
theorem bootmain_loads (wf : WellFormed (image disk)) (m : Pc) :
    ∃ m' mem, bootmain disk m = some (m', some (elfAt (image disk) 0).e_entry) ∧
      m'.mem = patches ((headers (image disk)).map (Proghdr.load (image disk))) mem := by
  obtain ⟨m0, hfirst, hscratch⟩ := readseg_scratch disk m
  have htable := wf.table
  have hphnum : (elfAt (image disk) 0).e_phnum < 65536 := le16_lt _ _
  obtain ⟨m', hloop, hpatch, hscratch'⟩ := loadSegments_spec disk
    (elfAt (image disk) 0).e_phnum 65536 (elfAt (image disk) 0).e_phoff m0 hphnum htable
    (fun p hp => ⟨wf.above p hp, by have := wf.roundUp p hp; omega⟩) hscratch
  refine ⟨m', m0.mem, ?_, hpatch⟩
  have hph : (ELFHDR + (elfAt (image disk) 0).e_phoff) % 4294967296 =
      ELFHDR + (elfAt (image disk) 0).e_phoff := by
    rw [PROGHDR_SIZE_eq] at htable
    unfold ELFHDR
    omega
  have heph : (ELFHDR + (elfAt (image disk) 0).e_phoff +
      PROGHDR_SIZE * (elfAt (image disk) 0).e_phnum) % 4294967296 =
      ELFHDR + (elfAt (image disk) 0).e_phoff + 32 * (elfAt (image disk) 0).e_phnum := by
    rw [PROGHDR_SIZE_eq] at htable ⊢
    unfold ELFHDR
    omega
  rw [bootmain_of_scratch disk hfirst, hscratch.elfAt, if_neg (not_not.mpr wf.magic)]
  simp only [hph, heph, hloop, Option.bind_some, hscratch'.elfAt]

/-! ## Which segments stay intact -/

/-- The last of these segments that starts in the sector of `x`: its load rounds down over `x`. -/
def lastStarting (later : List Proghdr) (x : Nat) : Option Proghdr :=
  (later.filter fun p => p.p_pa / 512 = x / 512).getLast?

/-- Every segment has its bytes of the image. -/
def Intact (img mem : Memory) : Prop :=
  ∀ p ∈ headers img, ∀ x, p.p_pa ≤ x → x < p.p_pa + p.p_filesz →
    mem x = img (p.p_offset + (x - p.p_pa))

/-- Where later segments start in a sector of a segment, the image sector that the last of them
    starts in has the bytes of the segment. -/
def SectorsAgree (img : Memory) : Prop :=
  ∀ earlier p later, headers img = earlier ++ p :: later →
    ∀ x, p.p_pa ≤ x → x < p.p_pa + p.p_filesz →
      ∀ q, lastStarting later x = some q → img (q.source x) = img (p.p_offset + (x - p.p_pa))

variable {img : Memory}

/-- A later segment stores a byte in front of it exactly if it starts in its sector. -/
theorem filterMap_load : ∀ {later : List Proghdr} {x : Nat}, (∀ q ∈ later, x < q.p_pa) →
    ((later.map (Proghdr.load img)).filterMap fun f => f x) =
      (later.filter fun q => q.p_pa / 512 = x / 512).map fun q => img (q.source x)
  | [], _, _ => rfl
  | q :: later, x, h => by
    obtain ⟨hq, hlater⟩ := List.forall_mem_cons.mp h
    have ih := filterMap_load hlater
    rw [List.map_cons, List.filterMap_cons, List.filter_cons, ih, Proghdr.load]
    by_cases hsector : q.p_pa / 512 = x / 512
    · have hcov : Covers q.p_pa q.p_memsz x := by
        unfold Covers
        omega
      rw [if_pos hcov, if_pos (decide_eq_true hsector)]
      rfl
    · have hcov : ¬Covers q.p_pa q.p_memsz x := by
        unfold Covers
        omega
      rw [if_neg hcov, if_neg (by simpa using hsector)]

/-- A byte of a segment's file part at the jump. -/
theorem loads_byte (wf : WellFormed img) {earlier later : List Proghdr} {p : Proghdr}
    (hsplit : headers img = earlier ++ p :: later) {x : Nat} (h0 : p.p_pa ≤ x)
    (h1 : x < p.p_pa + p.p_filesz) (mem : Memory) :
    patches ((headers img).map (Proghdr.load img)) mem x =
      ((lastStarting later x).map fun q => img (q.source x)).getD
        (img (p.p_offset + (x - p.p_pa))) := by
  have hp : p ∈ headers img := by
    rw [hsplit]
    simp
  have hfile := wf.filesz p hp
  have hcongr := wf.congruent p hp
  have hafter : ∀ q ∈ later, x < q.p_pa := by
    intro q hq
    have hinc := wf.increasing
    rw [hsplit, List.pairwise_append] at hinc
    have := List.rel_of_pairwise_cons hinc.2.1 hq
    omega
  have hcov : Covers p.p_pa p.p_memsz x := by
    unfold Covers
    omega
  have hsource : p.source x = p.p_offset + (x - p.p_pa) := by
    unfold Proghdr.source
    omega
  have hload : p.load img x = some (img (p.p_offset + (x - p.p_pa))) := by
    rw [Proghdr.load, if_pos hcov, hsource]
  rw [patches_apply, hsplit, List.map_append, List.filterMap_append, List.map_cons,
    List.filterMap_cons, hload]
  simp only
  rw [filterMap_load hafter, List.getLast?_append, List.getLast?_cons, List.getLast?_map]
  rfl

theorem loads_intact_iff (wf : WellFormed img) (mem : Memory) :
    Intact img (patches ((headers img).map (Proghdr.load img)) mem) ↔ SectorsAgree img := by
  constructor
  · intro hintact earlier p later hsplit x h0 h1 q hq
    have hbyte := loads_byte wf hsplit h0 h1 mem
    rw [hq] at hbyte
    have hp : p ∈ headers img := by
      rw [hsplit]
      simp
    exact hbyte.symm.trans (hintact p hp x h0 h1)
  · intro hagree p hp x h0 h1
    obtain ⟨earlier, later, hsplit⟩ := List.append_of_mem hp
    rw [loads_byte wf hsplit h0 h1 mem]
    cases hq : lastStarting later x with
    | none => rfl
    | some q => exact hagree earlier p later hsplit x h0 h1 q hq

/-- **The segments are intact at the jump exactly when rounding down does no harm.** -/
theorem boot_intact_iff (wf : WellFormed (image disk)) (m : Pc) :
    ∃ m', bootmain disk m = some (m', some (elfAt (image disk) 0).e_entry) ∧
      (Intact (image disk) m'.mem ↔ SectorsAgree (image disk)) := by
  obtain ⟨m', mem, hrun, hmem⟩ := bootmain_loads disk wf m
  exact ⟨m', hrun, by rw [hmem, loads_intact_iff wf]⟩

/-! ## Two segments that share a sector -/

def littleEndian (w : Nat) : List Byte :=
  [BitVec.ofNat 8 w, BitVec.ofNat 8 (w >>> 8), BitVec.ofNat 8 (w >>> 16), BitVec.ofNat 8 (w >>> 24)]

/-- An ELF header and two program headers; the second segment starts in the middle of the sector
    that the first one starts in, and at another sector of the image. -/
def sharedHeaders : List Byte :=
  ([0x464C457F, 0, 0, 0, 0, 0, 0x100000, 52, 0, 0, 0, 2, 0] ++
    [1, 0x1000, 0, 0x100000, 0x100, 0x100, 0, 0] ++
    [1, 0x2100, 0, 0x100100, 0x100, 0x100, 0, 0]).flatMap littleEndian

def sharedDisk : Disk := fun a =>
  if a < 4608 then sharedHeaders.getD (a - 512) 0 else if a < 8704 then 1 else 2

theorem headers_shared : headers (image sharedDisk) =
    [⟨0x1000, 0x100000, 0x100, 0x100⟩, ⟨0x2100, 0x100100, 0x100, 0x100⟩] := by decide

theorem wellFormed_shared : WellFormed (image sharedDisk) := by
  constructor
  case magic => decide
  case table => decide
  all_goals
    rw [headers_shared]
    decide

def blankPc : Pc := ⟨fun _ => 0, ⟨0, 0, 0, 0, 0, []⟩⟩

theorem boot_intact_iff_shared :
    ∃ m', bootmain sharedDisk blankPc = some (m', some 0x100000) ∧
      (Intact (image sharedDisk) m'.mem ↔ SectorsAgree (image sharedDisk)) :=
  boot_intact_iff sharedDisk wellFormed_shared blankPc

/-- The second load rounds down over the first segment. -/
theorem shared_not_intact :
    WellFormed (image sharedDisk) ∧ ∃ m', bootmain sharedDisk blankPc = some (m', some 0x100000) ∧
      ¬Intact (image sharedDisk) m'.mem := by
  obtain ⟨m', mem, hrun, hmem⟩ := bootmain_loads sharedDisk wellFormed_shared blankPc
  refine ⟨wellFormed_shared, m', hrun, ?_⟩
  rw [hmem, loads_intact_iff wellFormed_shared]
  intro hagree
  exact absurd (hagree [] _ _ headers_shared 0x100000 (by decide) (by decide) _ rfl) (by decide)

end Jos
