import JosKernel.Format.Text
import JosKernel.Monitor.Readline

/-!
# The line that `readline` returns

A line editor appends characters and takes the last one back.  `readline` tests for an erase
key and a character to erase at once, so that a DEL at the empty line goes on to the test for
a character and is stored; a backspace there is no character and is ignored.

Principal results: `readline_stores` — what the buffer holds, for every sequence of keys;
`Compared.step` — how the stored line differs from the edited one after every key;
`readline_edits_iff` — the two agree if the stray DELs have cancelled each other.
-/

set_option autoImplicit false

namespace Jos

/-! ## The keys of a line -/

/-- Backspace or DEL. -/
def IsErase (c : Int) : Prop := c = (char '\x08').toInt ∨ c = (char '\x7f').toInt

/-- A key that ends the line. -/
def IsEnd (c : Int) : Prop := c = (char '\n').toInt ∨ c = (char '\r').toInt

instance (c : Int) : Decidable (IsErase c) := inferInstanceAs (Decidable (_ ∨ _))

instance (c : Int) : Decidable (IsEnd c) := inferInstanceAs (Decidable (_ ∨ _))

/-- The keys in front of the first one that ends the line. -/
def lineKeys (cs : List Int) : List Int := cs.takeWhile fun c => ¬IsEnd c

/-- A key of a line editor: an erase key takes the last character back if there is one, any
    other character is appended if there is room. -/
def editKey (s : List Byte) (c : Int) : List Byte :=
  if IsErase c then s.dropLast
  else if c ≥ (char ' ').toInt ∧ (s.length : Int) < BUFLEN - 1 then s ++ [BitVec.ofInt 8 c]
  else s

/-- The line behind a sequence of keys. -/
def editLine (cs : List Int) : List Byte := cs.foldl editKey []

/-- A key of `readline`. -/
def storeKey (s : List Byte) (c : Int) : List Byte :=
  if IsErase c ∧ s ≠ [] then s.dropLast
  else if c ≥ (char ' ').toInt ∧ (s.length : Int) < BUFLEN - 1 then s ++ [BitVec.ofInt 8 c]
  else s

/-- What `readline` holds behind a sequence of keys. -/
def storedLine (cs : List Int) : List Byte := cs.foldl storeKey []

/-! ## What the buffer holds -/

/-- The first `i` characters of the buffer are `s`; outside it is the memory `outside`. -/
structure Held (outside buf : Int → Byte) (i : Int) (s : List Byte) : Prop where
  length : i = s.length
  bound : (s.length : Int) ≤ BUFLEN - 1
  bytes : ∀ (k : Nat) (hk : k < s.length), buf k = s[k]
  nul_free : (0 : Byte) ∉ s
  frame : ∀ a, ¬(0 ≤ a ∧ a < BUFLEN) → buf a = outside a

/-- A buffer starts with the string `s`, in which no byte is zero. -/
structure IsString (buf : Int → Byte) (s : List Byte) : Prop where
  bytes : ∀ (k : Nat) (hk : k < s.length), buf k = s[k]
  terminator : buf s.length = 0
  nul_free : (0 : Byte) ∉ s

/-- A buffer starts with one string only. -/
theorem IsString.unique {buf : Int → Byte} {s t : List Byte} (hs : IsString buf s)
    (ht : IsString buf t) : s = t := by
  have hle : ∀ {s t : List Byte}, IsString buf s → IsString buf t → t.length ≤ s.length := by
    intro s t hs ht
    by_contra hlt
    have hzero : (0 : Byte) = t[s.length] := hs.terminator.symm.trans (ht.bytes _ (by omega))
    exact ht.nul_free (hzero ▸ List.getElem_mem _)
  refine List.ext_getElem (Nat.le_antisymm (hle ht hs) (hle hs ht)) fun k h1 h2 => ?_
  rw [← hs.bytes k h1, ← ht.bytes k h2]

section

variable {outside buf : Int → Byte} {i : Int} {s : List Byte}

theorem Held.erase (h : Held outside buf i s) (hs : s ≠ []) :
    Held outside buf (i - 1) s.dropLast := by
  obtain ⟨hlen, hbound, hbytes, hnul, hframe⟩ := h
  have hpos := List.length_pos_iff.mpr hs
  constructor
  · rw [List.length_dropLast]
    omega
  · rw [List.length_dropLast]
    omega
  · intro k hk
    rw [List.length_dropLast] at hk
    rw [hbytes k (by omega), List.getElem_dropLast]
  · exact fun hmem => hnul (List.dropLast_subset s hmem)
  · exact hframe

theorem Held.append (h : Held outside buf i s) (hroom : (s.length : Int) < BUFLEN - 1) {b : Byte}
    (hb : b ≠ 0) : Held outside (Function.update buf i b) (i + 1) (s ++ [b]) := by
  obtain ⟨hlen, -, hbytes, hnul, hframe⟩ := h
  have hbuf : BUFLEN = 1024 := rfl
  have hlength : (s ++ [b]).length = s.length + 1 := List.length_append
  constructor
  · omega
  · omega
  · intro k hk
    by_cases hlast : k = s.length
    · subst hlast
      rw [hlen, Function.update_self, List.getElem_concat_length rfl]
    · have hlt : k < s.length := by omega
      rw [Function.update_of_ne (by omega), hbytes k hlt, List.getElem_append_left hlt]
  · intro hmem
    rcases List.mem_append.mp hmem with hmem | hmem
    · exact hnul hmem
    · exact hb (List.mem_singleton.mp hmem).symm
  · intro a ha
    rw [Function.update_of_ne (by omega), hframe a ha]

/-- `buf[i] = 0`. -/
theorem Held.terminate (h : Held outside buf i s) :
    IsString (Function.update buf i 0) s ∧
      ∀ a, ¬(0 ≤ a ∧ a < BUFLEN) → Function.update buf i 0 a = outside a := by
  obtain ⟨hlen, hbound, hbytes, hnul, hframe⟩ := h
  have hbuf : BUFLEN = 1024 := rfl
  refine ⟨⟨fun k hk => ?_, ?_, hnul⟩, fun a ha => ?_⟩
  · rw [Function.update_of_ne (by omega), hbytes k hk]
  · rw [hlen, Function.update_self]
  · rw [Function.update_of_ne (by omega), hframe a ha]

variable {δ : Type} {d : Device δ} {e : Editor δ}

@[simp] theorem echo_buf (c : Int) (e : Editor δ) : (e.echo d c).buf = e.buf := by
  unfold Editor.echo
  split <;> rfl

@[simp] theorem echo_i (c : Int) (e : Editor δ) : (e.echo d c).i = e.i := by
  unfold Editor.echo
  split <;> rfl

/-- One key that does not end the line. -/
theorem Held.step (h : Held outside e.buf e.i s) {c : Int} (h0 : 1 ≤ c) (h1 : c ≤ 255)
    (hc : ¬IsEnd c) :
    ∃ e', readlineStep d c e = .ok (.more e') ∧ Held outside e'.buf e'.i (storeKey s c) := by
  have hlen := h.length
  unfold readlineStep storeKey
  rw [if_neg (show ¬c < 0 by omega)]
  by_cases herase : IsErase c ∧ s ≠ []
  · have hi : e.i > 0 := by
      have := List.length_pos_iff.mpr herase.2
      omega
    rw [if_pos herase, if_pos ⟨herase.1, hi⟩]
    refine ⟨_, rfl, ?_⟩
    simp only [echo_buf, echo_i]
    exact h.erase herase.2
  · have hnot : ¬((c = (char '\x08').toInt ∨ c = (char '\x7f').toInt) ∧ e.i > 0) := by
      rintro ⟨hkey, hi⟩
      refine herase ⟨hkey, fun hs => ?_⟩
      rw [hs, List.length_nil] at hlen
      omega
    rw [if_neg herase, if_neg hnot]
    by_cases hchar : c ≥ (char ' ').toInt ∧ (s.length : Int) < BUFLEN - 1
    · rw [if_pos hchar, if_pos (by rw [hlen]; exact hchar)]
      refine ⟨_, rfl, ?_⟩
      simp only [echo_buf, echo_i]
      exact h.append hchar.2 (byte_ne_zero (by omega) (by omega))
    · rw [if_neg hchar, if_neg (by rw [hlen]; exact hchar)]
      exact ⟨e, if_neg hc, h⟩

/-- The key that ends the line. -/
theorem Held.enter (h : Held outside e.buf e.i s) {c : Int} (hc : IsEnd c) :
    ∃ e', readlineStep d c e = .ok (.line e') ∧ IsString e'.buf s ∧
      ∀ a, ¬(0 ≤ a ∧ a < BUFLEN) → e'.buf a = outside a := by
  have hcode : c = 10 ∨ c = 13 := hc
  have herase : ¬((c = (char '\x08').toInt ∨ c = (char '\x7f').toInt) ∧ e.i > 0) := by
    rintro ⟨hkey, -⟩
    have hkey : c = 8 ∨ c = 127 := hkey
    omega
  have hchar : ¬(c ≥ (char ' ').toInt ∧ e.i < BUFLEN - 1) := by
    rintro ⟨hkey, -⟩
    have hkey : c ≥ 32 := hkey
    omega
  unfold readlineStep
  rw [if_neg (show ¬c < 0 by omega), if_neg herase, if_neg hchar]
  refine ⟨_, if_pos hc, ?_⟩
  simp only [echo_buf, echo_i]
  exact h.terminate

/-- Every sequence of keys with an end. -/
theorem Held.loop : ∀ (cs : List Int) {e : Editor δ} {s : List Byte},
    Held outside e.buf e.i s → (∀ c ∈ cs, 1 ≤ c ∧ c ≤ 255) → (∃ c ∈ cs, IsEnd c) →
    ∃ e', readlineLoop d cs e = .ok (.line e') ∧
      IsString e'.buf ((lineKeys cs).foldl storeKey s) ∧
      ∀ a, ¬(0 ≤ a ∧ a < BUFLEN) → e'.buf a = outside a
  | [], _, _, _, _, hend => by
    obtain ⟨_, hmem, -⟩ := hend
    cases hmem
  | c :: cs, e, s, h, hcs, hend => by
    obtain ⟨⟨h0, h1⟩, hrest⟩ := List.forall_mem_cons.mp hcs
    rw [readlineLoop]
    by_cases hc : IsEnd c
    · obtain ⟨e', hstep, hline⟩ := h.enter hc
      have hkeys : lineKeys (c :: cs) = [] := List.takeWhile_cons_of_neg (by simpa using hc)
      rw [hstep, hkeys]
      exact ⟨e', rfl, hline⟩
    · obtain ⟨e', hstep, hheld⟩ := h.step h0 h1 hc
      have hkeys : lineKeys (c :: cs) = c :: lineKeys cs :=
        List.takeWhile_cons_of_pos (by simpa using hc)
      have hend' : ∃ c' ∈ cs, IsEnd c' := by
        obtain ⟨c', hmem, hc'⟩ := hend
        rcases List.mem_cons.mp hmem with rfl | hmem
        · exact absurd hc' hc
        · exact ⟨c', hmem, hc'⟩
      rw [hstep, hkeys]
      exact Held.loop cs hheld hrest hend'

end

section

variable {δ : Type} (d : Device δ)

/-- `readline` over the results of `getchar`; `buf` is the memory around its static buffer. -/
def readline (prompt : Option CStr) (buf : Int → Byte) (m : Console δ) (cs : List Int) :
    Except Fault (Reading δ) := do
  let e ← readlineStart d prompt buf m
  readlineLoop d cs e

theorem readlineStart_held (prompt : Option CStr) (buf : Int → Byte) (m : Console δ) :
    ∃ e, readlineStart d prompt buf m = .ok e ∧ Held buf e.buf e.i [] := by
  have hheld : Held buf buf 0 [] := ⟨rfl, by decide, nofun, nofun, fun _ _ => rfl⟩
  cases prompt with
  | none => exact ⟨⟨m, buf, 0, iscons 0⟩, rfl, hheld⟩
  | some p =>
    unfold readlineStart
    simp only [vcprintf_of_output d (output_string p) m, map_ok]
    exact ⟨_, rfl, hheld⟩

/-- **What `readline` returns**: the keys in front of the end of the line, as it stores them. -/
theorem readline_stores (prompt : Option CStr) (buf : Int → Byte) (m : Console δ) {cs : List Int}
    (hcs : ∀ c ∈ cs, 1 ≤ c ∧ c ≤ 255) (hend : ∃ c ∈ cs, IsEnd c) :
    ∃ e, readline d prompt buf m cs = .ok (.line e) ∧
      IsString e.buf (storedLine (lineKeys cs)) ∧
      ∀ a, ¬(0 ≤ a ∧ a < BUFLEN) → e.buf a = buf a := by
  obtain ⟨e, hstart, hheld⟩ := readlineStart_held d prompt buf m
  obtain ⟨e', hloop, hline⟩ := @Held.loop buf δ d cs e [] hheld hcs hend
  refine ⟨e', ?_, hline⟩
  rw [readline, hstart]
  exact hloop

end

/-! ## The stored line and the edited one -/

/-- The edited line, whether it has been full since it was last empty, and the DELs that came
    at the empty line.  A backspace at the empty line and a line that has been full and is empty
    again start the count anew. -/
structure Strays where
  line : List Byte
  full : Bool
  count : Nat

def Strays.step (u : Strays) (c : Int) : Strays :=
  let line := editKey u.line c
  if u.line = [] ∧ c = (char '\x7f').toInt then ⟨[], false, u.count + 1⟩
  else if u.line = [] ∧ c = (char '\x08').toInt then ⟨[], false, 0⟩
  else if line = [] ∧ u.full = true then ⟨[], false, 0⟩
  else ⟨line, u.full || decide ((line.length : Int) = BUFLEN - 1), u.count⟩

def strays (cs : List Int) : Strays := cs.foldl Strays.step ⟨[], false, 0⟩

/-- How the stored line `s` compares with the edited one. -/
inductive Compared (s : List Byte) (u : Strays) : Prop where
  /-- they are the same -/
  | same (heven : u.count % 2 = 0) (hs : s = u.line)
  /-- a DEL is stored in front of the edited line -/
  | stray (hodd : u.count % 2 = 1) (hfull : u.full = false) (hs : s = 0x7f :: u.line)
  /-- the buffer was full one character earlier than the edited line: since then both have the
      same length -/
  | shifted (hodd : u.count % 2 = 1) (hfull : u.full = true) (hne : u.line ≠ [])
      (hlen : s.length = u.line.length) (hhead : s.head? = some 0x7f)

section

variable {s : List Byte} {u : Strays} {c : Int}

theorem editKey_erase (h : IsErase c) (s : List Byte) : editKey s c = s.dropLast := if_pos h

theorem editKey_char (h : ¬IsErase c) (hc : c ≥ (char ' ').toInt)
    (hroom : (s.length : Int) < BUFLEN - 1) : editKey s c = s ++ [BitVec.ofInt 8 c] := by
  rw [editKey, if_neg h, if_pos ⟨hc, hroom⟩]

/-- Any other key, and any character at a full line. -/
theorem editKey_ignored (h : ¬IsErase c)
    (hno : ¬(c ≥ (char ' ').toInt ∧ (s.length : Int) < BUFLEN - 1)) : editKey s c = s := by
  rw [editKey, if_neg h, if_neg hno]

theorem editKey_bound (hbound : (s.length : Int) ≤ BUFLEN - 1) (c : Int) :
    ((editKey s c).length : Int) ≤ BUFLEN - 1 := by
  unfold editKey
  split
  · rw [List.length_dropLast]
    omega
  · split
    · rw [List.length_append, List.length_singleton]
      omega
    · exact hbound

/-- How long the line is behind a key depends on its length only. -/
theorem editKey_length {t : List Byte} (h : s.length = t.length) (c : Int) :
    (editKey s c).length = (editKey t c).length := by
  unfold editKey
  rw [h]
  split
  · rw [List.length_dropLast, List.length_dropLast, h]
  · split
    · rw [List.length_append, List.length_append, h]
    · exact h

theorem editKey_head {b : Byte} (hhead : s.head? = some b) (hne : editKey s c ≠ []) :
    (editKey s c).head? = some b := by
  unfold editKey at hne ⊢
  split at hne
  · rename_i hc
    have hmore : 1 < s.length := by
      have := List.length_pos_iff.mpr hne
      rw [List.length_dropLast] at this
      omega
    rw [if_pos hc, List.head?_dropLast, if_pos hmore, hhead]
  · rename_i hc
    rw [if_neg hc]
    split
    · rw [List.head?_append, hhead]
      rfl
    · exact hhead

/-- A character in front makes no difference, unless the line is full because of it. -/
theorem editKey_cons {b : Byte} {t : List Byte} (hbound : ((b :: t).length : Int) ≤ BUFLEN - 1)
    (hkey : t = [] → ¬IsErase c) :
    editKey (b :: t) c = b :: editKey t c ∨
      editKey (b :: t) c = b :: t ∧ ((editKey t c).length : Int) = BUFLEN - 1 ∧
        (editKey t c).length = (b :: t).length := by
  rw [List.length_cons] at hbound
  by_cases hc : IsErase c
  · rw [editKey_erase hc, editKey_erase hc, List.dropLast_cons_of_ne_nil fun h => hkey h hc]
    exact Or.inl rfl
  by_cases hchar : c ≥ (char ' ').toInt
  · have hedit := editKey_char hc hchar (show (t.length : Int) < BUFLEN - 1 by omega)
    by_cases hroom : ((b :: t).length : Int) < BUFLEN - 1
    · rw [editKey_char hc hchar hroom, hedit]
      exact Or.inl rfl
    · refine Or.inr ⟨editKey_ignored hc fun h => hroom h.2, ?_⟩
      rw [List.length_cons] at hroom
      rw [hedit, List.length_append, List.length_singleton]
      exact ⟨by omega, rfl⟩
  · rw [editKey_ignored hc fun h => hchar h.1, editKey_ignored hc fun h => hchar h.1]
    exact Or.inl rfl

/-- The two differ in an erase key at the empty line. -/
theorem storeKey_eq_editKey (h : s = [] → ¬IsErase c) : storeKey s c = editKey s c := by
  rw [storeKey, editKey]
  by_cases hc : IsErase c
  · rw [if_pos ⟨hc, fun hs => h hs hc⟩, if_pos hc]
  · rw [if_neg hc, if_neg fun h' => hc h'.1]

theorem storeKey_bound (hbound : (s.length : Int) ≤ BUFLEN - 1) (c : Int) :
    ((storeKey s c).length : Int) ≤ BUFLEN - 1 := by
  by_cases hs : s = []
  · have hbuf : BUFLEN = 1024 := rfl
    rw [hs, storeKey, if_neg fun h => h.2 rfl]
    split
    · rw [List.nil_append, List.length_singleton]
      omega
    · rw [List.length_nil]
      omega
  · rw [storeKey_eq_editKey fun h => absurd h hs]
    exact editKey_bound hbound c

/-! ### The count of DELs -/

theorem Strays.step_del (hline : u.line = []) (hc : c = (char '\x7f').toInt) :
    u.step c = ⟨[], false, u.count + 1⟩ := if_pos ⟨hline, hc⟩

theorem Strays.step_backspace (hline : u.line = []) (hc : c = (char '\x08').toInt) :
    u.step c = ⟨[], false, 0⟩ := by
  have hne : ¬(u.line = [] ∧ c = (char '\x7f').toInt) := by
    rintro ⟨-, h⟩
    exact absurd (hc.symm.trans h) (by decide)
  unfold Strays.step
  rw [if_neg hne, if_pos ⟨hline, hc⟩]

/-- A key that does not start the count anew. -/
theorem Strays.step_of_kept (hkey : u.line = [] → ¬IsErase c)
    (hkept : editKey u.line c = [] → u.full = false) :
    u.step c = ⟨editKey u.line c,
      u.full || decide (((editKey u.line c).length : Int) = BUFLEN - 1), u.count⟩ := by
  have hfull : ¬(editKey u.line c = [] ∧ u.full = true) := fun h => by
    rw [hkept h.1] at h
    exact Bool.false_ne_true h.2
  unfold Strays.step
  rw [if_neg fun h => hkey h.1 (Or.inr h.2), if_neg fun h => hkey h.1 (Or.inl h.2), if_neg hfull]

/-- The line that has been full is empty again. -/
theorem Strays.step_emptied (hkey : u.line = [] → ¬IsErase c) (hline : editKey u.line c = [])
    (hfull : u.full = true) : u.step c = ⟨[], false, 0⟩ := by
  unfold Strays.step
  rw [if_neg fun h => hkey h.1 (Or.inr h.2), if_neg fun h => hkey h.1 (Or.inl h.2),
    if_pos ⟨hline, hfull⟩]

@[simp] theorem Strays.step_line (u : Strays) (c : Int) : (u.step c).line = editKey u.line c := by
  by_cases hkey : u.line = [] ∧ IsErase c
  · rw [editKey_erase hkey.2, hkey.1]
    rcases hkey.2 with hc | hc
    · rw [Strays.step_backspace hkey.1 hc]
      rfl
    · rw [Strays.step_del hkey.1 hc]
      rfl
  · have hkey : u.line = [] → ¬IsErase c := fun h h' => hkey ⟨h, h'⟩
    by_cases hempty : editKey u.line c = [] ∧ u.full = true
    · rw [Strays.step_emptied hkey hempty.1 hempty.2, hempty.1]
    · rw [Strays.step_of_kept hkey fun h => by simpa using fun h' => hempty ⟨h, h'⟩]

/-- A key after which nothing is stray. -/
theorem Strays.step_even (heven : u.count % 2 = 0) (hkey : u.line = [] → ¬IsErase c) :
    (u.step c).count % 2 = 0 := by
  by_cases hempty : editKey u.line c = [] ∧ u.full = true
  · rw [Strays.step_emptied hkey hempty.1 hempty.2]
    rfl
  · rw [Strays.step_of_kept hkey fun h => by simpa using fun h' => hempty ⟨h, h'⟩]
    exact heven

/-- An erase key at the empty edited line. -/
theorem Compared.erase_empty (h : Compared s u) (hline : u.line = []) (hc : IsErase c) :
    Compared (storeKey s c) (u.step c) := by
  cases h with
  | same heven hs =>
    subst hs
    rw [hline]
    rcases hc with rfl | rfl
    · rw [Strays.step_backspace hline rfl]
      exact .same rfl rfl
    · rw [Strays.step_del hline rfl]
      refine .stray ?_ rfl rfl
      simp only
      omega
  | stray hodd hfull hs =>
    have hstore : storeKey s c = [] := by
      rw [hs, hline, storeKey_eq_editKey fun h => absurd h (List.cons_ne_nil _ _),
        editKey_erase hc]
      rfl
    rw [hstore]
    rcases hc with rfl | rfl
    · rw [Strays.step_backspace hline rfl]
      exact .same rfl rfl
    · rw [Strays.step_del hline rfl]
      refine .same ?_ rfl
      simp only
      omega
  | shifted _ _ hne _ _ => exact absurd hline hne

/-- With a stray DEL in front, a key that leaves it there. -/
theorem Compared.step_stray (hodd : u.count % 2 = 1) (hfull : u.full = false)
    (hbound : (((0x7f : Byte) :: u.line).length : Int) ≤ BUFLEN - 1)
    (hkey : u.line = [] → ¬IsErase c) :
    Compared (editKey (0x7f :: u.line) c) (u.step c) := by
  have hnext := editKey_bound hbound c
  rw [Strays.step_of_kept hkey fun _ => hfull, hfull, Bool.false_or]
  rcases editKey_cons hbound hkey with heq | ⟨heq, hfilled, hlen⟩
  · rw [heq, List.length_cons] at hnext
    rw [heq]
    exact .stray hodd (decide_eq_false (by omega)) rfl
  · -- the buffer is full, and the edited line becomes so
    rw [heq]
    have hne : editKey u.line c ≠ [] := fun h => by
      rw [h] at hlen
      cases hlen
    exact .shifted hodd (decide_eq_true hfilled) hne hlen.symm rfl

/-- Since the buffer was full, a key does the same to both lengths. -/
theorem Compared.step_shifted (hodd : u.count % 2 = 1) (hfull : u.full = true)
    (hne : u.line ≠ []) (hlen : s.length = u.line.length) (hhead : s.head? = some 0x7f) (c : Int) :
    Compared (editKey s c) (u.step c) := by
  have hkey : u.line = [] → ¬IsErase c := fun h => absurd h hne
  have hlen' := editKey_length hlen c
  by_cases hempty : editKey u.line c = []
  · rw [hempty] at hlen'
    rw [Strays.step_emptied hkey hempty hfull, List.length_eq_zero_iff.1 hlen']
    exact .same rfl rfl
  · have hmore : editKey s c ≠ [] := fun h => by
      rw [h] at hlen'
      exact hempty (List.length_eq_zero_iff.1 hlen'.symm)
    rw [Strays.step_of_kept hkey fun h => absurd h hempty]
    refine .shifted hodd ?_ hempty hlen' (editKey_head hhead hmore)
    rw [hfull, Bool.true_or]

/-- **One key** keeps track of how the stored line compares with the edited one. -/
theorem Compared.step (h : Compared s u) (hbound : (s.length : Int) ≤ BUFLEN - 1) (c : Int) :
    Compared (storeKey s c) (u.step c) := by
  by_cases hnew : u.line = [] ∧ IsErase c
  · exact h.erase_empty hnew.1 hnew.2
  have hkey : u.line = [] → ¬IsErase c := fun hline hc => hnew ⟨hline, hc⟩
  cases h with
  | same heven hs =>
    rw [hs, storeKey_eq_editKey hkey]
    exact .same (Strays.step_even heven hkey) (Strays.step_line u c).symm
  | stray hodd hfull hs =>
    rw [hs] at hbound ⊢
    rw [storeKey_eq_editKey fun h => absurd h (List.cons_ne_nil _ _)]
    exact Compared.step_stray hodd hfull hbound hkey
  | shifted hodd hfull hne hlen hhead =>
    have hs : s ≠ [] := fun h => by
      rw [h] at hhead
      cases hhead
    rw [storeKey_eq_editKey fun h => absurd h hs]
    exact Compared.step_shifted hodd hfull hne hlen hhead c

end

theorem Compared.run : ∀ (cs : List Int) {s : List Byte} {u : Strays}, Compared s u →
    (s.length : Int) ≤ BUFLEN - 1 → Compared (cs.foldl storeKey s) (cs.foldl Strays.step u)
  | [], _, _, h, _ => h
  | c :: cs, _, _, h, hbound => Compared.run cs (h.step hbound c) (storeKey_bound hbound c)

theorem strays_line (cs : List Int) : (strays cs).line = editLine cs := by
  have hrun : ∀ (cs : List Int) (u : Strays),
      (cs.foldl Strays.step u).line = cs.foldl editKey u.line := by
    intro cs
    induction cs with
    | nil => exact fun _ => rfl
    | cons c cs ih =>
      intro u
      rw [List.foldl_cons, List.foldl_cons, ih, Strays.step_line]
  exact hrun cs _

/-- The characters of an edited line. -/
theorem mem_editLine {cs : List Int} (hcs : ∀ c ∈ cs, 1 ≤ c ∧ c ≤ 255) :
    ∀ b ∈ editLine cs, b ≠ 0 ∧ ¬IsErase b.toNat := by
  have hrun : ∀ (cs : List Int) (s : List Byte), (∀ c ∈ cs, 1 ≤ c ∧ c ≤ 255) →
      (∀ b ∈ s, b ≠ 0 ∧ ¬IsErase b.toNat) → ∀ b ∈ cs.foldl editKey s, b ≠ 0 ∧ ¬IsErase b.toNat := by
    intro cs
    induction cs with
    | nil => exact fun _ _ h => h
    | cons c cs ih =>
      intro s hcs hs
      obtain ⟨⟨h0, h1⟩, hrest⟩ := List.forall_mem_cons.mp hcs
      refine ih (editKey s c) hrest fun b hb => ?_
      unfold editKey at hb
      split at hb
      · exact hs b (List.dropLast_subset s hb)
      · rename_i hc
        split at hb
        · rcases List.mem_append.mp hb with hb | hb
          · exact hs b hb
          · rw [List.mem_singleton.mp hb, byte_toNat (by omega) (by omega)]
            exact ⟨byte_ne_zero (by omega) (by omega), hc⟩
        · exact hs b hb
  exact hrun cs [] hcs nofun

/-- The two lines are the same exactly when the DELs have cancelled each other. -/
theorem storedLine_eq_iff {cs : List Int} (hcs : ∀ c ∈ cs, 1 ≤ c ∧ c ≤ 255) :
    storedLine cs = editLine cs ↔ (strays cs).count % 2 = 0 := by
  have hcompared : Compared (storedLine cs) (strays cs) :=
    Compared.run cs (.same rfl rfl) (by decide)
  cases hcompared with
  | same heven hs =>
    rw [strays_line] at hs
    exact iff_of_true hs heven
  | stray hodd hfull hs =>
    rw [strays_line] at hs
    refine iff_of_false (fun h => ?_) (by omega)
    have hlen := congrArg List.length (hs.symm.trans h)
    rw [List.length_cons] at hlen
    omega
  | shifted hodd hfull hne hlen hhead =>
    refine iff_of_false (fun h => ?_) (by omega)
    rw [h] at hhead
    exact (mem_editLine hcs _ (List.mem_of_mem_head? hhead)).2 (Or.inr (by decide))

/-! ## The line editor -/

section

variable {δ : Type} (d : Device δ)

/-- `readline` returns the edited line, with no erase key in it, and writes only its buffer. -/
def EditsLine (prompt : Option CStr) (buf : Int → Byte) (m : Console δ) (cs : List Int) : Prop :=
  ∃ e, readline d prompt buf m cs = .ok (.line e) ∧ IsString e.buf (editLine (lineKeys cs)) ∧
    (∀ b ∈ editLine (lineKeys cs), ¬IsErase b.toNat) ∧
    ∀ a, ¬(0 ≤ a ∧ a < BUFLEN) → e.buf a = buf a

/-- **`readline` is a line editor exactly when the DELs at the empty line cancel each other.** -/
theorem readline_edits_iff (prompt : Option CStr) (buf : Int → Byte) (m : Console δ)
    (cs : List Int) (hcs : ∀ c ∈ cs, 1 ≤ c ∧ c ≤ 255) (hend : ∃ c ∈ cs, IsEnd c) :
    EditsLine d prompt buf m cs ↔ (strays (lineKeys cs)).count % 2 = 0 := by
  have hkeys : ∀ c ∈ lineKeys cs, 1 ≤ c ∧ c ≤ 255 := fun c hc =>
    hcs c ((List.takeWhile_sublist _).subset hc)
  obtain ⟨e, hrun, hstring, hframe⟩ := readline_stores d prompt buf m hcs hend
  rw [← storedLine_eq_iff hkeys]
  constructor
  · rintro ⟨e', hrun', hstring', -⟩
    rw [hrun] at hrun'
    cases hrun'
    exact hstring.unique hstring'
  · intro heq
    rw [heq] at hstring
    exact ⟨e, hrun, hstring, fun b hb => (mem_editLine hkeys b hb).2, hframe⟩

/-- A DEL behind a character erases it. -/
theorem readline_edits_iff_erased :
    EditsLine readyDevice none (fun _ => 0) lastCell [0x61, 0x7f, 0x62, 0x0d] :=
  (readline_edits_iff readyDevice none (fun _ => 0) lastCell _ (by decide) (by decide)).2
    (by decide)

/-- A DEL at the empty line is stored. -/
theorem del_stored :
    (∀ c ∈ [(0x7f : Int), 0x0d], 1 ≤ c ∧ c ≤ 255) ∧ (∃ c ∈ [(0x7f : Int), 0x0d], IsEnd c) ∧
      ¬EditsLine readyDevice none (fun _ => 0) lastCell [0x7f, 0x0d] := by
  refine ⟨by decide, by decide, ?_⟩
  rintro ⟨e, hrun, hstring, -⟩
  obtain ⟨e', hrun', hstored, -⟩ :=
    @readline_stores _ readyDevice none (fun _ => 0) lastCell [0x7f, 0x0d] (by decide) (by decide)
  rw [hrun] at hrun'
  cases hrun'
  exact absurd (hstring.unique hstored) (by decide)

end

end Jos
