import JosKernel.Console.Decoder
import JosKernel.Console.Input

/-!
# Mouse bytes in the keyboard controller

The console input with the keyboard controller behind it: bytes of the keyboard and of the
mouse arrive in one FIFO, and `kbd_intr` and `cons_getc` empty it through `kbd_proc_data`,
which reports "no data" at a mouse byte and leaves it there.

Two runs are compared, one of them without the mouse bytes.  `Coupled` is what relates them:
the first has read the keyboard bytes in front of the first mouse byte, the second may have
read more.  Principal results: `Coupled.run` — every sequence of events keeps the relation;
`mouse_ignored_iff` — the runs deliver the same characters exactly when no byte behind the
first mouse byte types one.
-/

set_option autoImplicit false

namespace Jos

/-! ## `cons_intr` with `kbd_proc_data` -/

/-- The results of the calls that `cons_intr` makes: up to the first -1. -/
def kbdResults {δ : Type} (d : Device δ) : Nat → Keyboard δ → Except Fault (List Int × Keyboard δ)
  | 0, _ => .error .fuel
  | fuel + 1, k => do
      let (c, k) ← kbdProcData d k
      if c = -1 then .ok ([-1], k)
      else do
        let (cs, k) ← kbdResults d fuel k
        .ok (c :: cs, k)

/-- The keyboard and the console input. -/
structure Bus (ε : Type) where
  kbd : Typing ε
  input : InputRun

/-- A byte arrives in the controller, or the console input is used. -/
inductive BusEvent where
  | arrive (s : Scan)
  | serialIntr (serialProcData : List Int)
  | kbdIntr
  | consGetc (serialProcData : List Int)

variable {ε : Type} (d : Device ε) (serialExists : Bool)

/-- The bytes that are pending. -/
def Bus.pending (b : Bus ε) : List Scan := b.kbd.con.pending

def Bus.step (b : Bus ε) : BusEvent → Except Fault (Bus ε)
  | .arrive s =>
      .ok { b with kbd := { b.kbd with con := b.kbd.con.withPending (b.pending ++ [s]) } }
  | .serialIntr serial =>
      .ok { b with input := b.input.step serialExists (.serialIntr serial) }
  | .kbdIntr => do
      let (cs, kbd) ← kbdResults (i8042 d) (b.pending.length + 1) b.kbd
      .ok ⟨kbd, b.input.step serialExists (.kbdIntr cs)⟩
  | .consGetc serial => do
      let (cs, kbd) ← kbdResults (i8042 d) (b.pending.length + 1) b.kbd
      .ok ⟨kbd, b.input.step serialExists (.consGetc serial cs)⟩

def Bus.run : List BusEvent → Bus ε → Except Fault (Bus ε)
  | [], b => .ok b
  | e :: events, b => do
      let b ← b.step d serialExists e
      Bus.run events b

/-- The console as it starts, with an empty controller. -/
def Bus.init (con : Console (List Scan × ε)) : Bus ε := ⟨⟨con.withPending [], 0⟩, InputRun.init⟩

/-- The characters delivered to the console queue. -/
def Bus.delivered (b : Bus ε) : List Int := characters b.input.results

def BusEvent.isMouse : BusEvent → Bool
  | .arrive s => s.mouse
  | _ => false

/-- The same events without the mouse bytes. -/
def withoutMouse (events : List BusEvent) : List BusEvent := events.filter fun e => !e.isMouse

/-! ## What the keyboard bytes type -/

/-- The character map that the events select. -/
def Split.map (s : Split) : Byte → Byte :=
  if lastMade [0x1D, 0x9D] s.events then ctlmap
  else if lastMade [0x2A, 0x36] s.events then shiftmap
  else normalmap

/-- The byte `b`, behind the bytes `bs`, is the make of a key with a character. -/
def types (bs : List Byte) (b : Byte) : Bool :=
  if b = 0xE0 then false
  else if b.toNat ≥ 0x80 then false
  else ((split bs).byte b).map (if (split bs).pending then b + 0x80 else b) ≠ NO

/-- The keyboard bytes that have arrived, in front of the first mouse byte and behind it. -/
structure Arrived where
  before : List Byte
  behind : List Byte
  mouse : Bool

def Arrived.scan (a : Arrived) (s : Scan) : Arrived :=
  if s.mouse then { a with mouse := true }
  else if a.mouse then { a with behind := a.behind ++ [s.data] }
  else { a with before := a.before ++ [s.data] }

def Arrived.step (a : Arrived) : BusEvent → Arrived
  | .arrive s => a.scan s
  | _ => a

def arrived (events : List BusEvent) : Arrived := events.foldl Arrived.step ⟨[], [], false⟩

/-- No byte behind the first mouse byte types a character. -/
def Silent (a : Arrived) : Prop :=
  ∀ i (hi : i < a.behind.length), types (a.before ++ a.behind.take i) a.behind[i] = false

instance (a : Arrived) : Decidable (Silent a) :=
  inferInstanceAs (Decidable (∀ i (_ : i < a.behind.length), _ = false))

/-! ### The characters of a byte sequence -/

/-- The characters that the decoder makes of a byte sequence. -/
def typed (bs : List Byte) (shift : Word) : List Int := characters (resultsOf bs shift)

theorem resultsOf_append : ∀ (bs cs : List Byte) (shift : Word),
    resultsOf (bs ++ cs) shift = resultsOf bs shift ++ resultsOf cs (shiftAfter bs shift)
  | [], _, _ => rfl
  | b :: bs, cs, shift => by
    rw [List.cons_append, resultsOf, resultsOf_append bs cs]
    rfl

theorem typed_append (bs cs : List Byte) (shift : Word) :
    typed (bs ++ cs) shift = typed bs shift ++ typed cs (shiftAfter bs shift) := by
  unfold typed
  rw [resultsOf_append, characters_append]

theorem shiftAfter_append (bs cs : List Byte) (shift : Word) :
    shiftAfter (bs ++ cs) shift = shiftAfter cs (shiftAfter bs shift) :=
  List.foldl_append

theorem swapCase_eq_zero (c : Int) : swapCase c = 0 ↔ c = 0 := by
  have ha : (char 'a').toNat = 97 := rfl
  have hz : (char 'z').toNat = 122 := rfl
  have hA : (char 'A').toNat = 65 := rfl
  have hZ : (char 'Z').toNat = 90 := rfl
  unfold swapCase
  rw [ha, hz, hA, hZ]
  split
  · omega
  · split <;> omega

/-- Only the map decides whether a key has a character. -/
theorem kbdChar_eq_zero (key : Byte) (shift : Word) :
    kbdChar key shift = 0 ↔ charcode (shift &&& (CTL ||| SHIFT)) key = NO := by
  have hval : ((charcode (shift &&& (CTL ||| SHIFT)) key).toNat : Int) = 0 ↔
      charcode (shift &&& (CTL ||| SHIFT)) key = NO := by
    rw [← BitVec.toNat_inj]
    exact Int.natCast_eq_zero
  unfold kbdChar
  simp only
  split
  · rw [swapCase_eq_zero]
    exact hval
  · exact hval

/-- The maps are selected by the bits for Ctrl and Shift. -/
theorem charcode_map {s : Split} {shift : Word} (h : s.Agrees shift) :
    charcode (shift &&& (CTL ||| SHIFT)) = s.map := by
  have hctl : shift.getLsbD 1 = lastMade [0x1D, 0x9D] s.events := h 1
  have hshift : shift.getLsbD 0 = lastMade [0x2A, 0x36] s.events := h 0
  unfold charcode Split.map
  rw [← hctl, ← hshift, BitVec.and_or_distrib_left]
  have h1 : shift &&& CTL = if shift.getLsbD 1 then CTL else 0 := BitVec.and_twoPow shift 1
  have h0 : shift &&& SHIFT = if shift.getLsbD 0 then SHIFT else 0 := BitVec.and_twoPow shift 0
  rw [h1, h0]
  cases shift.getLsbD 1 <;> cases shift.getLsbD 0 <;> rfl

/-- **A byte yields a character exactly when it types one.** -/
theorem decode_types {bs : List Byte} {shift : Word} (h : (split bs).Agrees shift) (b : Byte) :
    (kbdDecode b shift).1 = 0 ↔ types bs b = false := by
  unfold types kbdDecode
  by_cases hesc : b = 0xE0
  · rw [if_pos hesc, if_pos hesc]
    exact iff_of_true rfl rfl
  rw [if_neg hesc, if_neg hesc]
  by_cases hbreak : b.toNat ≥ 0x80
  · rw [if_pos ((break_iff b).2 hbreak), if_pos hbreak]
    exact iff_of_true rfl rfl
  have hmake : ¬b &&& 0x80 ≠ 0 := fun hb => hbreak ((break_iff b).1 hb)
  have hafter := h.decode b
  rw [kbdDecode, if_neg hesc, if_neg hmake] at hafter
  have hkey := (h.unescaped (Nat.lt_of_not_le hbreak)).1
  have hchar : (kbdPress b shift).1 = kbdChar (kbdUnescape b shift).1 (kbdPress b shift).2 := rfl
  rw [if_neg hmake, if_neg hbreak, hchar, kbdChar_eq_zero, charcode_map hafter, hkey,
    decide_eq_false_iff_not, not_not]

theorem typed_cons (b : Byte) (bs : List Byte) (shift : Word) :
    typed (b :: bs) shift =
      (if (kbdDecode b shift).1 = 0 then [] else [(kbdDecode b shift).1]) ++
        typed bs (kbdDecode b shift).2 := by
  have hrange := kbdDecode_range b shift
  unfold typed characters
  rw [resultsOf, List.filter_cons]
  by_cases hzero : (kbdDecode b shift).1 = 0
  · simp [hzero]
  · have hend : (kbdDecode b shift).1 ≠ -1 := by omega
    simp [hzero, hend]

/-- Bytes deliver no character exactly when none of them types one. -/
theorem typed_eq_nil_iff : ∀ (behind before : List Byte),
    typed behind (shiftAfter before 0) = [] ↔
      ∀ i (hi : i < behind.length), types (before ++ behind.take i) behind[i] = false
  | [], before => by simp [typed, resultsOf]
  | b :: behind, before => by
    have hnext : (kbdDecode b (shiftAfter before 0)).2 = shiftAfter (before ++ [b]) 0 := by
      rw [shiftAfter_append]
      rfl
    have hfirst := decode_types (split_agrees before) b
    have hrest := typed_eq_nil_iff behind (before ++ [b])
    rw [typed_cons, hnext, List.append_eq_nil_iff, hrest]
    constructor
    · rintro ⟨hb, hbehind⟩ i hi
      cases i with
      | zero =>
        rw [List.take_zero, List.append_nil, List.getElem_cons_zero, ← hfirst]
        by_contra hne
        rw [if_neg hne] at hb
        cases hb
      | succ i =>
        have := hbehind i (by simpa using hi)
        rwa [List.append_assoc] at this
    · intro h
      refine ⟨?_, fun i hi => ?_⟩
      · have hb := h 0 (by simp)
        rw [List.take_zero, List.append_nil, List.getElem_cons_zero, ← hfirst] at hb
        rw [if_pos hb]
      · have := h (i + 1) (by simpa using hi)
        rw [List.append_assoc]
        exact this

/-! ## Emptying the controller -/

/-- What cannot be read: nothing, or a mouse byte in front. -/
def Stalled (tail : List Scan) : Prop := ∀ s ∈ tail.head?, s.mouse = true

variable {d}

/-- **`cons_intr` reads the keyboard bytes up to the first mouse byte.** -/
theorem kbdResults_spec {tail : List Scan} (htail : Stalled tail) :
    ∀ (fuel : Nat) (p : List Byte) {k : Typing ε}, k.con.pending = p.map Scan.key ++ tail →
      p.length < fuel →
      ∃ k', kbdResults (i8042 d) fuel k = .ok (resultsOf p k.shift ++ [-1], k') ∧
        k'.shift = shiftAfter p k.shift ∧ k'.con.pending = tail
  | 0, _, _, _, hfuel => absurd hfuel (Nat.not_lt_zero _)
  | fuel + 1, [], k, h, _ => by
    have hend : kbdProcData (i8042 d) k = .ok (-1, k) := by
      cases tail with
      | nil => exact kbdProcData_empty h
      | cons s tail => exact kbdProcData_mouse h (htail s rfl)
    exact ⟨k, bind_ok.mpr ⟨_, hend, rfl⟩, rfl, h⟩
  | fuel + 1, b :: p, k, h, hfuel => by
    obtain ⟨k1, hcall, hshift, hpending⟩ := @kbdProcData_key ε d k _ _ h rfl
    obtain ⟨k2, hcalls, hshift', hpending'⟩ :=
      kbdResults_spec htail fuel p hpending (by simpa using hfuel)
    rw [hshift] at hcalls hshift'
    refine ⟨k2, bind_ok.mpr ⟨_, hcall, ?_⟩, hshift', hpending'⟩
    have hrange := kbdDecode_range b k.shift
    have hgo : (kbdDecode b k.shift).1 ≠ -1 := by omega
    exact (if_neg hgo).trans (bind_ok.mpr ⟨_, hcalls, rfl⟩)

/-- The results up to the first -1 deliver the characters of the bytes. -/
theorem characters_callsMade : ∀ (p : List Byte) (shift : Word),
    characters (callsMade (resultsOf p shift ++ [-1])) = typed p shift
  | [], _ => rfl
  | b :: p, shift => by
    have hrange := kbdDecode_range b shift
    have hgo : (kbdDecode b shift).1 ≠ -1 := by omega
    have ih := characters_callsMade p (kbdDecode b shift).2
    unfold typed characters at ih ⊢
    rw [resultsOf, List.cons_append, callsMade, if_neg hgo, List.filter_cons, List.filter_cons, ih]

/-- The serial characters that an event delivers. -/
def BusEvent.serial : BusEvent → List Int
  | .serialIntr serial => characters (serialCalls serialExists serial)
  | .consGetc serial => characters (serialCalls serialExists serial)
  | _ => []

/-- The events that poll the keyboard. -/
def BusEvent.polls : BusEvent → Bool
  | .kbdIntr => true
  | .consGetc _ => true
  | _ => false

/-- **A poll delivers the serial characters and those of the bytes in front of a mouse byte.** -/
theorem Bus.step_poll {b : Bus ε} {p : List Byte} {tail : List Scan}
    (h : b.pending = p.map Scan.key ++ tail) (htail : Stalled tail) {e : BusEvent}
    (he : e.polls = true) :
    ∃ b', b.step d serialExists e = .ok b' ∧ b'.kbd.shift = shiftAfter p b.kbd.shift ∧
      b'.pending = tail ∧
      b'.delivered = b.delivered ++ (e.serial serialExists ++ typed p b.kbd.shift) := by
  have hfuel : p.length < b.pending.length + 1 := by
    rw [h, List.length_append, List.length_map]
    omega
  obtain ⟨k', hcalls, hshift, hpending⟩ := @kbdResults_spec ε d tail htail _ p b.kbd h hfuel
  cases e with
  | arrive s => cases he
  | serialIntr serial => cases he
  | kbdIntr =>
    refine ⟨_, bind_ok.mpr ⟨_, hcalls, rfl⟩, hshift, hpending, ?_⟩
    show characters (b.input.results ++ callsMade _) = _
    rw [characters_append, characters_callsMade]
    rfl
  | consGetc serial =>
    refine ⟨_, bind_ok.mpr ⟨_, hcalls, rfl⟩, hshift, hpending, ?_⟩
    show characters (b.input.results ++ (serialCalls _ _ ++ callsMade _)) = _
    rw [characters_append, characters_append, characters_callsMade]
    rfl

theorem Bus.step_serial (b : Bus ε) (serial : List Int) :
    ∃ b', b.step d serialExists (.serialIntr serial) = .ok b' ∧ b'.kbd = b.kbd ∧
      b'.delivered = b.delivered ++ characters (serialCalls serialExists serial) :=
  ⟨_, rfl, rfl, characters_append _ _⟩

/-! ## The two runs -/

/-- The run with the mouse bytes and the run without.  The first has read `ks`, and `p` is
    pending in front of the first mouse byte; the second has read `ks` and `x`, and `q` is
    pending. -/
structure Coupled (a : Arrived) (ks p x q : List Byte) (tail : List Scan) (A B : Bus ε) :
    Prop where
  pending : A.pending = p.map Scan.key ++ tail
  stalled : Stalled tail
  mouse : a.mouse = true ↔ tail ≠ []
  behind : a.mouse = false → a.behind = []
  without : B.pending = q.map Scan.key
  before : ks ++ p = a.before
  ahead : x ++ q = p ++ a.behind
  apart : x = [] ∨ p = []
  shift : A.kbd.shift = shiftAfter ks 0
  shiftWithout : B.kbd.shift = shiftAfter x A.kbd.shift
  count : B.delivered.length = A.delivered.length + (typed x A.kbd.shift).length
  same : typed x A.kbd.shift = [] → A.delivered = B.delivered

variable {a : Arrived} {ks p x q : List Byte} {tail : List Scan} {A B : Bus ε}

/-- A bus with one more byte pending. -/
def Bus.receive (b : Bus ε) (s : Scan) : Bus ε :=
  { b with kbd := { b.kbd with con := b.kbd.con.withPending (b.pending ++ [s]) } }

@[simp] theorem Bus.receive_pending (b : Bus ε) (s : Scan) :
    (b.receive s).pending = b.pending ++ [s] := rfl

/-- Before the first mouse byte the two runs are the same. -/
theorem Coupled.unblocked (h : Coupled a ks p x q tail A B) (hmouse : a.mouse = false) :
    tail = [] ∧ x = [] ∧ q = p := by
  have htail : tail = [] := by
    by_contra hne
    rw [h.mouse.2 hne] at hmouse
    cases hmouse
  have hahead := h.ahead
  rw [h.behind hmouse, List.append_nil] at hahead
  have hx : x = [] := by
    rcases h.apart with hx | hp
    · exact hx
    · rw [hp] at hahead
      exact (List.append_eq_nil_iff.1 hahead).1
  rw [hx, List.nil_append] at hahead
  exact ⟨htail, hx, hahead⟩

/-- A keyboard byte in front of the mouse bytes. -/
theorem Coupled.key_before (h : Coupled a ks p x q tail A B) (hmouse : a.mouse = false)
    (data : Byte) :
    Coupled { a with before := a.before ++ [data] } ks (p ++ [data]) x (q ++ [data]) tail
      (A.receive (.key data)) (B.receive (.key data)) := by
  obtain ⟨rfl, rfl, rfl⟩ := h.unblocked hmouse
  constructor
  · rw [Bus.receive_pending, h.pending, List.map_append]
    simp
  · exact h.stalled
  · exact h.mouse
  · exact h.behind
  · rw [Bus.receive_pending, h.without, List.map_append]
    rfl
  · simp [← h.before]
  · simp [h.behind hmouse]
  · exact Or.inl rfl
  · exact h.shift
  · exact h.shiftWithout
  · exact h.count
  · exact h.same

/-- A keyboard byte behind a mouse byte. -/
theorem Coupled.key_behind (h : Coupled a ks p x q tail A B) (hmouse : a.mouse = true)
    (data : Byte) :
    Coupled { a with behind := a.behind ++ [data] } ks p x (q ++ [data]) (tail ++ [Scan.key data])
      (A.receive (.key data)) (B.receive (.key data)) := by
  have htail := h.mouse.1 hmouse
  constructor
  · rw [Bus.receive_pending, h.pending, List.append_assoc]
  · intro s hs
    cases tail with
    | nil => exact absurd rfl htail
    | cons t tail => exact h.stalled s hs
  · simp [hmouse]
  · intro hfalse
    rw [hmouse] at hfalse
    cases hfalse
  · rw [Bus.receive_pending, h.without, List.map_append]
    rfl
  · exact h.before
  · simp [← List.append_assoc, h.ahead]
  · exact h.apart
  · exact h.shift
  · exact h.shiftWithout
  · exact h.count
  · exact h.same

/-- A keyboard byte arrives in both controllers. -/
theorem Coupled.key (h : Coupled a ks p x q tail A B) (data : Byte) :
    ∃ A' B' p' q' tail', A.step d serialExists (.arrive (.key data)) = .ok A' ∧
      B.step d serialExists (.arrive (.key data)) = .ok B' ∧
      Coupled (a.scan (.key data)) ks p' x q' tail' A' B' := by
  have hscan : a.scan (.key data) = if a.mouse then { a with behind := a.behind ++ [data] }
      else { a with before := a.before ++ [data] } := rfl
  rw [hscan]
  by_cases hmouse : a.mouse = true
  · rw [if_pos hmouse]
    exact ⟨_, _, _, _, _, rfl, rfl, h.key_behind hmouse data⟩
  · rw [if_neg hmouse]
    exact ⟨_, _, _, _, _, rfl, rfl, h.key_before (Bool.eq_false_iff.2 hmouse) data⟩

/-- A mouse byte arrives in the first controller only. -/
theorem Coupled.mouseByte (h : Coupled a ks p x q tail A B) {s : Scan} (hs : s.mouse = true) :
    ∃ A', A.step d serialExists (.arrive s) = .ok A' ∧
      Coupled (a.scan s) ks p x q (tail ++ [s]) A' B := by
  refine ⟨A.receive s, rfl, ?_⟩
  have hscan : a.scan s = { a with mouse := true } := if_pos hs
  rw [hscan]
  constructor
  · rw [Bus.receive_pending, h.pending, List.append_assoc]
  · intro t ht
    cases tail with
    | nil =>
      cases ht
      exact hs
    | cons u tail => exact h.stalled t ht
  · simp
  · intro hfalse
    cases hfalse
  · exact h.without
  · exact h.before
  · exact h.ahead
  · exact h.apart
  · exact h.shift
  · exact h.shiftWithout
  · exact h.count
  · exact h.same

/-- The serial port is polled. -/
theorem Coupled.serial (h : Coupled a ks p x q tail A B) (serial : List Int) :
    ∃ A' B', A.step d serialExists (.serialIntr serial) = .ok A' ∧
      B.step d serialExists (.serialIntr serial) = .ok B' ∧ Coupled a ks p x q tail A' B' := by
  obtain ⟨A', hA, hkbdA, hdelA⟩ := @Bus.step_serial ε d serialExists A serial
  obtain ⟨B', hB, hkbdB, hdelB⟩ := @Bus.step_serial ε d serialExists B serial
  refine ⟨A', B', hA, hB, ?_⟩
  constructor
  · rw [Bus.pending, hkbdA]
    exact h.pending
  · exact h.stalled
  · exact h.mouse
  · exact h.behind
  · rw [Bus.pending, hkbdB]
    exact h.without
  · exact h.before
  · exact h.ahead
  · exact h.apart
  · rw [hkbdA, h.shift]
  · rw [hkbdA, hkbdB, h.shiftWithout]
  · rw [hkbdA, hdelA, hdelB, List.length_append, List.length_append, h.count]
    omega
  · intro hnone
    rw [hkbdA] at hnone
    rw [hdelA, hdelB, h.same hnone]

/-- The keyboard is polled: the first run reads up to the mouse byte, the second everything. -/
theorem Coupled.poll (h : Coupled a ks p x q tail A B) {e : BusEvent} (he : e.polls = true) :
    ∃ A' B', A.step d serialExists e = .ok A' ∧ B.step d serialExists e = .ok B' ∧
      Coupled a (ks ++ p) [] a.behind [] tail A' B' := by
  obtain ⟨A', hA, hshiftA, hpendA, hdelA⟩ :=
    @Bus.step_poll ε d serialExists A p tail h.pending h.stalled e he
  have hq : B.pending = q.map Scan.key ++ [] := by rw [h.without, List.append_nil]
  obtain ⟨B', hB, hshiftB, hpendB, hdelB⟩ :=
    @Bus.step_poll ε d serialExists B q [] hq (fun s hs => by cases hs) e he
  -- what the second run has read by now, typed from the state of the first
  have htyped : typed x A.kbd.shift ++ typed q B.kbd.shift =
      typed p A.kbd.shift ++ typed a.behind A'.kbd.shift := by
    rw [h.shiftWithout, hshiftA, ← typed_append, ← typed_append, h.ahead]
  refine ⟨A', B', hA, hB, ?_⟩
  constructor
  · exact hpendA
  · exact h.stalled
  · exact h.mouse
  · exact h.behind
  · exact hpendB
  · rw [List.append_nil, h.before]
  · rw [List.append_nil, List.nil_append]
  · exact Or.inr rfl
  · rw [hshiftA, h.shift, shiftAfter_append]
  · rw [hshiftB, h.shiftWithout, hshiftA, ← shiftAfter_append, ← shiftAfter_append, h.ahead]
  · have hlen := congrArg List.length htyped
    have hcount := h.count
    rw [List.length_append, List.length_append] at hlen
    rw [hdelA, hdelB, List.length_append, List.length_append, List.length_append,
      List.length_append]
    omega
  · intro hnone
    rw [hnone, List.append_nil] at htyped
    have hx : typed x A.kbd.shift = [] := by
      rcases h.apart with hx | hp
      · rw [hx]
        rfl
      · rw [hp] at htyped
        exact (List.append_eq_nil_iff.1 htyped).1
    rw [hx, List.nil_append] at htyped
    rw [hdelA, hdelB, h.same hx, htyped]

/-- The runs are related for some split of what has arrived. -/
def Related (a : Arrived) (A B : Bus ε) : Prop :=
  ∃ ks p x q tail, Coupled a ks p x q tail A B

/-- **One event keeps the relation**; a mouse byte is no event of the second run. -/
theorem Related.step (h : Related a A B) (e : BusEvent) :
    ∃ A' B', A.step d serialExists e = .ok A' ∧ Related (a.step e) A' B' ∧
      (if e.isMouse then B' = B else B.step d serialExists e = .ok B') := by
  obtain ⟨ks, p, x, q, tail, h⟩ := h
  cases e with
  | arrive s =>
    obtain ⟨mouse, data⟩ := s
    cases mouse with
    | true =>
      obtain ⟨A', hA, h'⟩ := @Coupled.mouseByte ε d serialExists _ _ _ _ _ _ _ _ h ⟨true, data⟩ rfl
      exact ⟨A', B, hA, ⟨_, _, _, _, _, h'⟩, rfl⟩
    | false =>
      obtain ⟨A', B', p', q', tail', hA, hB, h'⟩ :=
        @Coupled.key ε d serialExists _ _ _ _ _ _ _ _ h data
      exact ⟨A', B', hA, ⟨_, _, _, _, _, h'⟩, hB⟩
  | serialIntr serial =>
    obtain ⟨A', B', hA, hB, h'⟩ := @Coupled.serial ε d serialExists _ _ _ _ _ _ _ _ h serial
    exact ⟨A', B', hA, ⟨_, _, _, _, _, h'⟩, hB⟩
  | kbdIntr =>
    obtain ⟨A', B', hA, hB, h'⟩ := @Coupled.poll ε d serialExists _ _ _ _ _ _ _ _ h .kbdIntr rfl
    exact ⟨A', B', hA, ⟨_, _, _, _, _, h'⟩, hB⟩
  | consGetc serial =>
    obtain ⟨A', B', hA, hB, h'⟩ :=
      @Coupled.poll ε d serialExists _ _ _ _ _ _ _ _ h (.consGetc serial) rfl
    exact ⟨A', B', hA, ⟨_, _, _, _, _, h'⟩, hB⟩

/-- **Every run keeps the relation.** -/
theorem Related.run : ∀ (events : List BusEvent) {a : Arrived} {A B : Bus ε}, Related a A B →
    ∃ A' B', A.run d serialExists events = .ok A' ∧
      B.run d serialExists (withoutMouse events) = .ok B' ∧
      Related (events.foldl Arrived.step a) A' B'
  | [], _, A, B, h => ⟨A, B, rfl, rfl, h⟩
  | e :: events, _, _, _, h => by
    obtain ⟨A1, B1, hA, h1, hB⟩ := @Related.step ε d serialExists _ _ _ h e
    obtain ⟨A', B', hA', hB', h'⟩ := Related.run events h1
    refine ⟨A', B', bind_ok.mpr ⟨A1, hA, hA'⟩, ?_, h'⟩
    unfold withoutMouse at hB' ⊢
    cases hmouse : e.isMouse with
    | true =>
      rw [hmouse] at hB
      cases hB
      simpa [hmouse] using hB'
    | false =>
      rw [hmouse] at hB
      rw [List.filter_cons_of_pos (by simp [hmouse])]
      exact bind_ok.mpr ⟨B1, hB, hB'⟩

theorem Related.init (con : Console (List Scan × ε)) :
    Related ⟨[], [], false⟩ (Bus.init con) (Bus.init con) := by
  refine ⟨[], [], [], [], [], ?_⟩
  constructor
  · rfl
  · intro s hs
    cases hs
  · simp
  · exact fun _ => rfl
  · rfl
  · rfl
  · rfl
  · exact Or.inl rfl
  · rfl
  · rfl
  · rfl
  · exact fun _ => rfl

/-- When everything from the keyboard is read, the runs deliver the same if no byte behind the
    first mouse byte types a character. -/
theorem Related.drained (h : Related a A B) (hdrained : B.pending = []) :
    A.delivered = B.delivered ↔ Silent a := by
  obtain ⟨ks, p, x, q, tail, h⟩ := h
  have hq : q = [] := by
    have hwithout := h.without
    rw [hdrained] at hwithout
    exact List.map_eq_nil_iff.1 hwithout.symm
  have hahead := h.ahead
  rw [hq, List.append_nil] at hahead
  have hp : p = [] := by
    rcases h.apart with hx | hp
    · rw [hx] at hahead
      exact (List.append_eq_nil_iff.1 hahead.symm).1
    · exact hp
  have hks := h.before
  rw [hp, List.append_nil] at hks
  rw [hp, List.nil_append] at hahead
  have hsame := h.same
  have hcount := h.count
  rw [h.shift, hks, hahead] at hsame hcount
  rw [Silent, ← typed_eq_nil_iff]
  constructor
  · intro heq
    rw [heq] at hcount
    exact List.length_eq_zero_iff.1 (by omega)
  · exact hsame

variable (d)

/-- The two runs from the start of the console. -/
theorem runs_related (con : Console (List Scan × ε)) (events : List BusEvent) :
    ∃ A B, (Bus.init con).run d serialExists events = .ok A ∧
      (Bus.init con).run d serialExists (withoutMouse events) = .ok B ∧
      Related (arrived events) A B :=
  Related.run serialExists events (Related.init con)

/-- The calls are enough to read every keyboard byte, if there is no mouse byte. -/
def Drained (con : Console (List Scan × ε)) (events : List BusEvent) : Prop :=
  ((Bus.init con).run d serialExists (withoutMouse events)).map Bus.pending = .ok []

/-- The mouse bytes make no difference to the characters delivered. -/
def MouseIgnored (con : Console (List Scan × ε)) (events : List BusEvent) : Prop :=
  ((Bus.init con).run d serialExists events).map Bus.delivered =
    ((Bus.init con).run d serialExists (withoutMouse events)).map Bus.delivered

theorem mouseIgnored_iff {con : Console (List Scan × ε)} {events : List BusEvent} {A B : Bus ε}
    (hA : (Bus.init con).run d serialExists events = .ok A)
    (hB : (Bus.init con).run d serialExists (withoutMouse events) = .ok B) :
    MouseIgnored d serialExists con events ↔ A.delivered = B.delivered := by
  rw [MouseIgnored, hA, hB, map_ok, map_ok]
  constructor
  · exact Except.ok.inj
  · intro h
    rw [h]

/-- **Mouse bytes make no difference exactly when no keyboard byte behind the first of them
    types a character.** -/
theorem mouse_ignored_iff (con : Console (List Scan × ε)) (events : List BusEvent)
    (hdrained : Drained d serialExists con events) :
    MouseIgnored d serialExists con events ↔ Silent (arrived events) := by
  obtain ⟨A, B, hA, hB, hrel⟩ := runs_related d serialExists con events
  rw [Drained, hB, map_ok] at hdrained
  rw [mouseIgnored_iff d serialExists hA hB]
  exact hrel.drained (Except.ok.inj hdrained)

/-- A console with an empty controller and a blank screen. -/
def blankConsole : Console (List Scan × Unit) := ⟨⟨([], ()), []⟩, ⟨.cga, fun _ => 0x0720, 0, []⟩⟩

/-- A key press in front of a mouse byte. -/
theorem mouse_ignored_iff_key :
    MouseIgnored readyDevice true blankConsole
      [.arrive (.key 0x1E), .kbdIntr, .arrive ⟨true, 0x08⟩, .consGetc []] :=
  (mouse_ignored_iff readyDevice true blankConsole _ (by rfl)).2 (by decide)

/-- A mouse byte in front of a key press: the key is never read. -/
theorem mouse_blocks_key :
    Drained readyDevice true blankConsole
        [.arrive ⟨true, 0x08⟩, .arrive (.key 0x1E), .kbdIntr] ∧
      ¬MouseIgnored readyDevice true blankConsole
        [.arrive ⟨true, 0x08⟩, .arrive (.key 0x1E), .kbdIntr] := by
  refine ⟨by rfl, fun h => ?_⟩
  have hdelivered : (Except.ok [] : Except Fault (List Int)) = .ok [0x61] := h
  cases hdelivered

end Jos
