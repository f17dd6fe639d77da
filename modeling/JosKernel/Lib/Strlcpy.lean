import JosKernel.Foundation.AccessLog
import JosKernel.Lib.CString

/-!
# Bounded copies

`strncpy` and `strlcpy` of `lib/string.c` over a memory with 32-bit addresses that records its
accesses.  `strncpy` counts up and pads, `strlcpy` counts down in front of each test, and both
count what `strnlen` counts.

* `strncpyLoop_ran`, `strlcpyLoop_ran` — what each loop stores, and that it reads the string
  alone.
* `strnlen_apart` — `strnlen` cannot overflow if there is room for the copy beside the string.
* `bounded_copies` — the two routines behind a call, and the string they leave.
-/

set_option autoImplicit false

namespace Jos

open AccessLog

/-- `for (i = 0; i < size; i++)` with `size - i` rounds left. -/
def strncpyLoop : Nat → Word → Word → Traced Word Byte → Traced Word Byte
  | 0, _, _, m => m
  | left + 1, dst, src, m =>
      let (c, m) := m.load src
      let (c', m) := (m.store dst c).load src
      -- If strlen(src) < size, null-pad 'dst' out to 'size' chars
      strncpyLoop left (dst + 1#32) (if c' ≠ 0 then src + 1#32 else src) m

def strncpy (dst src size : Word) (m : Traced Word Byte) : Word × Traced Word Byte :=
  let ret := dst
  (ret, strncpyLoop size.toNat dst src m)

/-- `while (--size > 0 && *src != '\0') *dst++ = *src++;` with the value of `--size`. -/
def strlcpyLoop : Nat → Word → Word → Traced Word Byte → Word × Traced Word Byte
  | 0, dst, _, m => (dst, m)
  | size + 1, dst, src, m =>
      let (c, m) := m.load src
      if c ≠ 0 then
        let (c, m) := m.load src
        strlcpyLoop size (dst + 1#32) (src + 1#32) (m.store dst c)
      else (dst, m)

def strlcpy (dst src size : Word) (m : Traced Word Byte) : Word × Traced Word Byte :=
  let dst_in := dst
  if size > 0 then
    let (dst, m) := strlcpyLoop (size - 1#32).toNat dst src m
    (dst - dst_in, m.store dst 0)
  else (dst - dst_in, m)

/-! ## Blocks of memory -/

/-- `n` addresses from `p` on. -/
def addrs : Word → Nat → List Word
  | _, 0 => []
  | p, n + 1 => p :: addrs (p + 1#32) n

/-- The bytes from `p` on with their addresses. -/
def block : Word → List Byte → List (Word × Byte)
  | _, [] => []
  | p, b :: bs => (p, b) :: block (p + 1#32) bs

/-- The memory holds the bytes from `p` on. -/
def BytesAt (mem : Word → Byte) (p : Word) (bs : List Byte) : Prop :=
  ∀ w ∈ block p bs, mem w.1 = w.2

theorem block_addrs : ∀ (p : Word) (bs : List Byte), (block p bs).map Prod.fst = addrs p bs.length
  | _, [] => rfl
  | p, b :: bs => by
    rw [block, List.map_cons, block_addrs (p + 1#32) bs]
    rfl

theorem block_append : ∀ (p : Word) (bs cs : List Byte),
    block p (bs ++ cs) = block p bs ++ block (p + BitVec.ofNat 32 bs.length) cs
  | p, [], cs => by
    rw [List.length_nil, BitVec.add_zero]
    rfl
  | p, b :: bs, cs => by
    have hnext : p + 1#32 + BitVec.ofNat 32 bs.length = p + BitVec.ofNat 32 (bs.length + 1) := by
      rw [BitVec.add_assoc, BitVec.add_comm 1#32, BitVec.ofNat_add]
    rw [List.cons_append, block, block, block_append (p + 1#32) bs cs, hnext]
    rfl

theorem mem_addrs {a : Word} : ∀ {p : Word} {n : Nat}, a ∈ addrs p n ↔ (a - p).toNat < n
  | _, 0 => iff_of_false List.not_mem_nil (Nat.not_lt_zero _)
  | p, n + 1 => by
    rw [addrs, List.mem_cons, mem_addrs]
    bv_omega

/-- A block that is not longer than the memory has no address twice. -/
theorem addrs_nodup : ∀ (p : Word) {n : Nat}, n ≤ 4294967296 → (addrs p n).Nodup
  | _, 0, _ => List.nodup_nil
  | p, n + 1, h => by
    rw [addrs, List.nodup_cons, mem_addrs]
    refine ⟨?_, addrs_nodup (p + 1#32) (by omega)⟩
    bv_omega

theorem addrs_mono {a p : Word} {n k : Nat} (hk : n ≤ k) (h : a ∈ addrs p n) : a ∈ addrs p k :=
  mem_addrs.2 (Nat.lt_of_lt_of_le (mem_addrs.1 h) hk)

theorem bytesAt_cons {mem : Word → Byte} {p : Word} {b : Byte} {bs : List Byte} :
    BytesAt mem p (b :: bs) ↔ mem p = b ∧ BytesAt mem (p + 1#32) bs :=
  List.forall_mem_cons

theorem BytesAt.front {mem : Word → Byte} {p : Word} {bs cs : List Byte}
    (h : BytesAt mem p (bs ++ cs)) : BytesAt mem p bs := by
  intro w hw
  refine h w ?_
  rw [block_append]
  exact List.mem_append_left _ hw

/-- A store elsewhere. -/
theorem BytesAt.update {mem : Word → Byte} {p d : Word} {bs : List Byte} (h : BytesAt mem p bs)
    (hd : d ∉ addrs p bs.length) (b : Byte) : BytesAt (Function.update mem d b) p bs := by
  intro w hw
  have hne : w.1 ≠ d := fun heq => hd (by
    rw [← block_addrs, ← heq]
    exact List.mem_map_of_mem hw)
  rw [Function.update_of_ne hne]
  exact h w hw

/-! ## The loops -/

/-- The copy and its source do not overlap. -/
def Apart (D : Word) (n : Nat) (S : Word) (k : Nat) : Prop := ∀ a ∈ addrs D n, a ∉ addrs S k

theorem Apart.tail {D S : Word} {n k : Nat} (h : Apart D (n + 1) S (k + 1)) :
    Apart (D + 1#32) n (S + 1#32) k := fun a ha hs =>
  h a (List.mem_cons_of_mem D ha) (List.mem_cons_of_mem S hs)

/-- The first `n` bytes of a string, filled up with zeros. -/
def padded (s : List Byte) (n : Nat) : List Byte :=
  s.take n ++ List.replicate (n - s.length) 0

theorem padded_length (s : List Byte) (n : Nat) : (padded s n).length = n := by
  rw [padded, List.length_append, List.length_take, List.length_replicate]
  omega

theorem padded_nil (n : Nat) : padded [] (n + 1) = 0 :: padded [] n := by
  rw [padded, padded, List.take_nil, List.take_nil]
  rfl

theorem padded_cons (b : Byte) (s : List Byte) (n : Nat) :
    padded (b :: s) (n + 1) = b :: padded s n := by
  rw [padded, List.take_succ_cons, List.length_cons, Nat.add_sub_add_right]
  rfl

/-- One round of `strncpy` where the destination is not the byte that is read again. -/
theorem strncpyLoop_round {D S : Word} (h : S ≠ D) (left : Nat) (m : Traced Word Byte) :
    strncpyLoop (left + 1) D S m =
      strncpyLoop left (D + 1#32) (if m.mem S ≠ 0 then S + 1#32 else S)
        (((m.load S).2.store D (m.mem S)).load S).2 := by
  have hagain : Function.update m.mem D (m.mem S) S = m.mem S := Function.update_of_ne h _ _
  rw [strncpyLoop]
  simp only [Traced.load, Traced.store, hagain]

theorem strncpyLoop_ran : ∀ (n : Nat) (D S : Word) {s : List Byte} {m : Traced Word Byte},
    (0 : Byte) ∉ s → BytesAt m.mem S (s ++ [0]) → Apart D n S (s.length + 1) →
    Ran (· ∈ addrs S (s.length + 1)) (block D (padded s n)) m (strncpyLoop n D S m)
  | 0, _, _, _, m, _, _, _ => by
    rw [padded, List.take_zero, Nat.zero_sub]
    exact Ran.refl _ m
  | n + 1, D, S, s, m, hs, hsrc, hapart => by
    have hS : S ∈ addrs S (s.length + 1) := List.mem_cons_self
    have hD : D ∉ addrs S (s.length + 1) := hapart D List.mem_cons_self
    have hne : S ≠ D := fun heq => hD (heq ▸ hS)
    have hround := ((Ran.load hS m).trans (Ran.store _ (m.load S).2 D (m.mem S))).trans
      (Ran.load hS ((m.load S).2.store D (m.mem S)))
    have hsrc' : BytesAt (((m.load S).2.store D (m.mem S)).load S).2.mem S (s ++ [0]) :=
      hsrc.update (by rwa [List.length_append]) _
    rw [strncpyLoop_round hne]
    cases s with
    | nil =>
      -- the terminator is read again and again
      have hzero : m.mem S = 0 := (bytesAt_cons.1 hsrc).1
      have hrest := strncpyLoop_ran n (D + 1#32) S hs hsrc'
        fun a ha => hapart a (List.mem_cons_of_mem D ha)
      rw [if_neg (not_not.2 hzero), padded_nil, block, ← hzero]
      exact hround.trans hrest
    | cons b s =>
      have hb : m.mem S = b := (bytesAt_cons.1 hsrc).1
      have hrest := strncpyLoop_ran n (D + 1#32) (S + 1#32) (nul_free_tail hs)
        (bytesAt_cons.1 hsrc').2 hapart.tail
      rw [if_pos (hb ▸ ne_zero_of_nul_free hs), padded_cons, block, ← hb]
      exact hround.trans (hrest.mono fun a => List.mem_cons_of_mem S)

theorem strlcpyLoop_ran : ∀ (n : Nat) (D S : Word) {s : List Byte} {m : Traced Word Byte},
    (0 : Byte) ∉ s → BytesAt m.mem S (s ++ [0]) → Apart D n S (s.length + 1) →
    (strlcpyLoop n D S m).1 = D + BitVec.ofNat 32 (s.take n).length ∧
      Ran (· ∈ addrs S (s.length + 1)) (block D (s.take n)) m (strlcpyLoop n D S m).2
  | 0, D, _, s, m, _, _, _ => by
    rw [List.take_zero]
    exact ⟨(BitVec.add_zero D).symm, Ran.refl _ m⟩
  | n + 1, D, S, [], m, _, hsrc, _ => by
    have hzero : m.mem S = 0 := (bytesAt_cons.1 hsrc).1
    have hstop : strlcpyLoop (n + 1) D S m = (D, (m.load S).2) := if_neg (not_not.2 hzero)
    rw [hstop]
    exact ⟨(BitVec.add_zero D).symm, Ran.load List.mem_cons_self m⟩
  | n + 1, D, S, b :: s, m, hs, hsrc, hapart => by
    obtain ⟨hb, hrest⟩ := bytesAt_cons.1 hsrc
    have hS : S ∈ addrs S (s.length + 2) := List.mem_cons_self
    have hD : D ∉ addrs S (s.length + 2) := hapart D List.mem_cons_self
    have hmore : strlcpyLoop (n + 1) D S m = strlcpyLoop n (D + 1#32) (S + 1#32)
        ((((m.load S).2.load S).2).store D (m.mem S)) := if_pos (hb ▸ ne_zero_of_nul_free hs)
    have hround := ((Ran.load hS m).trans (Ran.load hS (m.load S).2)).trans
      (Ran.store _ ((m.load S).2.load S).2 D (m.mem S))
    have hsrc' : BytesAt (((m.load S).2.load S).2.store D (m.mem S)).mem (S + 1#32) (s ++ [0]) :=
      (bytesAt_cons.1 (hsrc.update (by rwa [List.length_append]) _)).2
    obtain ⟨hdst, hran⟩ := strlcpyLoop_ran n (D + 1#32) (S + 1#32) (nul_free_tail hs) hsrc'
      hapart.tail
    rw [hmore, List.take_succ_cons, block, ← hb]
    refine ⟨?_, hround.trans (hran.mono fun a => List.mem_cons_of_mem S)⟩
    rw [hdst, List.length_cons, BitVec.ofNat_add, BitVec.add_assoc, BitVec.add_comm 1#32]

/-! ## What is left of a copy -/

/-- Exactly `count` bytes are stored, `bs` from `D` on, and the string at `S` is all that is
    read. -/
structure Copied (D S : Word) (s : CStr) (count : Nat) (bs : List Byte)
    (m m' : Traced Word Byte) : Prop where
  length : bs.length = count
  writes : m'.writes = m.writes ++ block D bs
  reads : ∃ rs, m'.reads = m.reads ++ rs ∧ ∀ a ∈ rs, a ∈ addrs S (s.bytes.length + 1)
  stored : BytesAt m'.mem D bs
  others : ∀ a, a ∉ addrs D count → m'.mem a = m.mem a

theorem Copied.of_ran {D S : Word} {s : CStr} {bs : List Byte} {m m' : Traced Word Byte}
    (hlen : bs.length ≤ 4294967296)
    (h : Ran (· ∈ addrs S (s.bytes.length + 1)) (block D bs) m m') :
    Copied D S s bs.length bs m m' := by
  refine ⟨rfl, h.writes, h.reads, h.stored ?_, fun a ha => h.frame ?_⟩
  · rw [block_addrs]
    exact addrs_nodup D hlen
  · rw [block_addrs]
    exact ha

theorem Apart.mono {D S : Word} {n n' k : Nat} (h : Apart D n S k) (hn : n' ≤ n) :
    Apart D n' S k := fun a ha => h a (addrs_mono hn ha)

/-- Both blocks fit into the memory side by side. -/
theorem Apart.fits {D S : Word} {n k : Nat} (h : Apart D (n + 1) S (k + 1)) :
    n + k + 2 ≤ 4294967296 := by
  have hD : ¬(D - S).toNat < k + 1 := fun hlt => h D List.mem_cons_self (mem_addrs.2 hlt)
  have hS : ¬(S - D).toNat < n + 1 := fun hlt => h S (mem_addrs.2 hlt) List.mem_cons_self
  bv_omega

/-- `strnlen` cannot overflow if there is room for the copy beside the string. -/
theorem strnlen_apart {D S : Word} {s : CStr} {n : Nat}
    (h : Apart D n S (s.bytes.length + 1)) : strnlen s n = (min s.bytes.length n : Nat) := by
  have hsmall : 2 * min s.bytes.length n < 4294967296 := by
    cases n with
    | zero => omega
    | succ n =>
      have := h.fits
      omega
  rw [strnlen, strnlenLoop_eq s.bytes n 0 (by unfold IsInt32; omega)]
  unfold int32
  omega

theorem padded_counted (s : List Byte) (n : Nat) :
    padded s n = s.take (min s.length n) ++ List.replicate (n - min s.length n) 0 := by
  have hrest : n - s.length = n - min s.length n := by omega
  rw [padded, List.take_eq_take_min, Nat.min_comm n, hrest]

/-- A zero behind the padding ends the string where the padding starts. -/
theorem padded_append (s : CStr) (n : Nat) :
    padded s.bytes n ++ [0] = (s.cut n).cells ++ List.replicate (n - s.bytes.length) 0 := by
  rw [padded, List.append_assoc, ← List.replicate_succ', List.replicate_succ, CStr.cells,
    List.append_assoc]
  rfl

section Copies

variable {D S size : Word} {s : CStr} {m : Traced Word Byte}

theorem strncpy_ran (hsrc : BytesAt m.mem S s.cells)
    (hapart : Apart D size.toNat S (s.bytes.length + 1)) :
    Ran (· ∈ addrs S (s.bytes.length + 1)) (block D (padded s.bytes size.toNat)) m
      (strncpy D S size m).2 :=
  strncpyLoop_ran size.toNat D S s.nul_free hsrc hapart

theorem strlcpy_ran (hsize : size ≠ 0#32) (hsrc : BytesAt m.mem S s.cells)
    (hapart : Apart D size.toNat S (s.bytes.length + 1)) :
    (strlcpy D S size m).1 = BitVec.ofNat 32 (s.cut (size - 1#32).toNat).bytes.length ∧
      Ran (· ∈ addrs S (s.bytes.length + 1)) (block D (s.cut (size - 1#32).toNat).cells) m
        (strlcpy D S size m).2 := by
  have hpos : size > 0 := by bv_omega
  obtain ⟨hdst, hran⟩ := strlcpyLoop_ran (size - 1#32).toNat D S s.nul_free hsrc
    (hapart.mono (by bv_omega))
  have hcall : strlcpy D S size m =
      ((strlcpyLoop (size - 1#32).toNat D S m).1 - D,
        (strlcpyLoop (size - 1#32).toNat D S m).2.store
          (strlcpyLoop (size - 1#32).toNat D S m).1 0) := if_pos hpos
  rw [hcall, hdst, CStr.cells, block_append]
  refine ⟨?_, hran.trans (Ran.store _ _ _ 0)⟩
  rw [BitVec.add_comm, BitVec.add_sub_cancel]
  rfl

/-- `dst[size - 1] = 0` behind a `strncpy` of `size - 1` bytes. -/
theorem strncpy_terminated (hsize : size ≠ 0#32) (hsrc : BytesAt m.mem S s.cells)
    (hapart : Apart D size.toNat S (s.bytes.length + 1)) :
    BytesAt ((strncpy D S (size - 1#32) m).2.store (D + (size - 1#32)) 0).mem D
      (s.cut (size - 1#32).toNat).cells := by
  have hran := (strncpy_ran hsrc (hapart.mono (by bv_omega))).trans
    (Ran.store _ (strncpy D S (size - 1#32) m).2 (D + (size - 1#32)) 0)
  have hblock : block D (padded s.bytes (size - 1#32).toNat) ++ [(D + (size - 1#32), 0)] =
      block D (padded s.bytes (size - 1#32).toNat ++ [0]) := by
    rw [block_append, padded_length, BitVec.ofNat_toNat, BitVec.setWidth_eq]
    rfl
  rw [hblock] at hran
  have hlen : (padded s.bytes (size - 1#32).toNat ++ [0]).length ≤ 4294967296 := by
    rw [List.length_append, padded_length]
    exact (size - 1#32).isLt
  have hstored := (Copied.of_ran hlen hran).stored
  rw [padded_append] at hstored
  exact hstored.front

/-- **The bounded copies**: `strncpy` stores `size` bytes, what `strnlen` counts and zeros behind
    it; `strlcpy` stores what `strnlen` counts of one byte less and a terminator, and returns that
    count.  Both leave the same string, and neither reads behind the terminator of the source. -/
theorem bounded_copies (hsrc : BytesAt m.mem S s.cells)
    (hapart : Apart D size.toNat S (s.bytes.length + 1)) :
    (∃ n : Nat, strnlen s size.toNat = n ∧ (strncpy D S size m).1 = D ∧
      Copied D S s size.toNat (s.bytes.take n ++ List.replicate (size.toNat - n) 0) m
        (strncpy D S size m).2) ∧
    (size = 0#32 → strlcpy D S size m = (0#32, m)) ∧
    (size ≠ 0#32 → ∃ n : Nat, strnlen s (size - 1#32).toNat = n ∧ n + 1 ≤ size.toNat ∧
      (strlcpy D S size m).1.toNat = n ∧
      Copied D S s (n + 1) (s.bytes.take n ++ [0]) m (strlcpy D S size m).2 ∧
      ∃ t : CStr, BytesAt (strlcpy D S size m).2.mem D t.cells ∧
        BytesAt ((strncpy D S (size - 1#32) m).2.store (D + (size - 1#32)) 0).mem D t.cells) := by
  refine ⟨⟨_, strnlen_apart hapart, rfl, ?_⟩, fun hsize => ?_, fun hsize => ?_⟩
  · have hlen := padded_length s.bytes size.toNat
    have hcopied := Copied.of_ran (by rw [hlen]; exact Nat.le_of_lt size.isLt)
      (strncpy_ran hsrc hapart)
    rw [hlen] at hcopied
    rw [← padded_counted]
    exact hcopied
  · subst hsize
    rw [strlcpy, if_neg (by decide), BitVec.sub_self]
  · have hpred : (size - 1#32).toNat + 1 = size.toNat := by bv_omega
    have hcut : s.bytes.take (min s.bytes.length (size - 1#32).toNat) =
        (s.cut (size - 1#32).toNat).bytes := by
      rw [Nat.min_comm, ← List.take_eq_take_min]
      rfl
    have hcount : (s.cut (size - 1#32).toNat).bytes.length =
        min s.bytes.length (size - 1#32).toNat := by
      rw [Nat.min_comm]
      exact List.length_take
    have hcells : (s.cut (size - 1#32).toNat).cells.length =
        min s.bytes.length (size - 1#32).toNat + 1 := by
      rw [CStr.cells, List.length_append, hcount]
      rfl
    obtain ⟨hret, hran⟩ := strlcpy_ran hsize hsrc hapart
    have hcopied := Copied.of_ran (by have := size.isLt; omega) hran
    rw [hcells] at hcopied
    refine ⟨_, strnlen_apart (hapart.mono (by omega)), by omega, ?_, ?_, _, hcopied.stored,
      strncpy_terminated hsize hsrc hapart⟩
    · rw [hret, hcount, BitVec.toNat_ofNat]
      have := size.isLt
      omega
    · rw [hcut]
      exact hcopied

end Copies

/-- Two bytes of room for a string of two, in front of which the copy starts. -/
theorem bounded_copies_full :
    let m : Traced Word Byte :=
      ⟨fun a => if a = 0x100#32 then 0x61#8 else if a = 0x101#32 then 0x62#8 else 0#8, [], []⟩
    (∃ n : Nat, strnlen ⟨[0x61#8, 0x62#8], by decide⟩ 1 = n ∧
        (strlcpy 0xFE#32 0x100#32 2#32 m).1.toNat = n) ∧
      (strncpy 0xFE#32 0x100#32 2#32 m).1 = 0xFE#32 := by
  intro m
  have hsrc : BytesAt m.mem 0x100#32 (CStr.cells ⟨[0x61#8, 0x62#8], by decide⟩) :=
    bytesAt_cons.2 ⟨rfl, bytesAt_cons.2 ⟨rfl, bytesAt_cons.2 ⟨rfl, nofun⟩⟩⟩
  have hapart : Apart 0xFE#32 2 0x100#32 3 := fun a ha hs => by
    rw [mem_addrs] at ha hs
    bv_omega
  obtain ⟨⟨-, -, hncpy, -⟩, -, hlcpy⟩ := @bounded_copies 0xFE#32 0x100#32 2#32
    ⟨[0x61#8, 0x62#8], by decide⟩ m hsrc hapart
  obtain ⟨n, hcount, -, hret, -⟩ := hlcpy (by decide)
  exact ⟨⟨n, hcount, hret⟩, hncpy⟩

end Jos
