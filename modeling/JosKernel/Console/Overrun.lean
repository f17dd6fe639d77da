import JosKernel.Console.Input

/-!
# Overruns of the console input buffer

`cons_intr` stores without a test for room.  The character in the last free cell makes the two
positions equal, and with it everything that is unread is gone: of a burst the characters behind
the last such overrun remain.

Principal results: `consIntrs_unread` — what is unread after any burst; `overrun_iff` — in every
reachable state a burst loses only what does not fit exactly when it fits, or when the last
overrun leaves 511 characters behind it.
-/

set_option autoImplicit false

namespace Jos

open RingBuffer

/-- A burst: several interrupts with no read between them. -/
def consIntrs (procs : List (List Int)) (s : Cons) : Cons :=
  procs.foldl (fun s proc => consIntr proc s) s

/-- The characters that a burst stores. -/
def burst (procs : List (List Int)) : List Byte :=
  procs.flatMap fun proc => bytes (characters (callsMade proc))

/-- The values of successive calls of `cons_getc` before one returns 0, for at most `n` calls and
    without further arrivals. -/
def getcUntilZero (serialExists : Bool) : Nat → Cons → List Int
  | 0, _ => []
  | n + 1, s =>
      let (c, s) := consGetc serialExists [] [] s
      if c = 0 then [] else c :: getcUntilZero serialExists n s

/-! ## What is unread -/

theorem consStore_wrap {s : Cons} (h : s.InBounds) (c : Int) :
    (consStore c s).unread = pushWrap CONSBUFSIZE s.unread (BitVec.ofInt 8 c) :=
  contents_push_wrap h.rpos h.wpos s.buf _

/-- `cons_intr` pushes its characters one by one, whether they fit or not. -/
theorem consIntr_wrap : ∀ (proc : List Int) {s : Cons}, s.InBounds →
    (consIntr proc s).unread =
      (bytes (characters (callsMade proc))).foldl (pushWrap CONSBUFSIZE) s.unread
  | [], s, _ => by simp [consIntr, callsMade, characters, bytes]
  | c :: proc, s, h => by
    unfold consIntr callsMade
    by_cases hend : c = -1
    · simp [hend, characters, bytes]
    · rw [if_neg hend, if_neg hend]
      by_cases hzero : c = 0
      · have hskip : characters (c :: callsMade proc) = characters (callsMade proc) := by
          simp [characters, hzero]
        rw [if_pos hzero, hskip]
        exact consIntr_wrap proc h
      · have hkeep : characters (c :: callsMade proc) = c :: characters (callsMade proc) := by
          simp [characters, hzero, hend]
        rw [if_neg hzero, hkeep, consIntr_wrap proc (consStore_inBounds h c), consStore_wrap h]
        rfl

theorem consIntrs_inBounds : ∀ (procs : List (List Int)) {s : Cons}, s.InBounds →
    (consIntrs procs s).InBounds
  | [], _, h => h
  | proc :: procs, _, h => consIntrs_inBounds procs (consIntr_inBounds proc h)

theorem consIntrs_wrap : ∀ (procs : List (List Int)) {s : Cons}, s.InBounds →
    (consIntrs procs s).unread = (burst procs).foldl (pushWrap CONSBUFSIZE) s.unread
  | [], _, _ => rfl
  | proc :: procs, s, h => by
    have ih := consIntrs_wrap procs (consIntr_inBounds proc h)
    rw [consIntr_wrap proc h, ← List.foldl_append] at ih
    exact ih

theorem Cons.InBounds.length_unread {s : Cons} (h : s.InBounds) :
    s.unread.length < CONSBUFSIZE := by
  unfold Cons.unread
  rw [length_contents]
  exact used_lt h.rpos h.wpos

/-- **What a burst leaves**: the characters behind the last overrun. -/
theorem consIntrs_unread (procs : List (List Int)) {s : Cons} (h : s.InBounds) :
    (consIntrs procs s).unread = (s.unread ++ burst procs).drop
      (CONSBUFSIZE * ((s.unread.length + (burst procs).length) / CONSBUFSIZE)) := by
  rw [consIntrs_wrap procs h, foldl_pushWrap _ h.length_unread]

/-- The reads return what is unread, up to the first call that finds nothing. -/
theorem getcUntilZero_eq (ex : Bool) : ∀ (n : Nat) {s : Cons}, s.InBounds →
    (∀ b ∈ s.unread, b ≠ 0) → bytes (getcUntilZero ex n s) = s.unread.take n
  | 0, _, _, _ => by simp [getcUntilZero, bytes]
  | n + 1, s, h, hnz => by
    have hpoll : consGetc ex [] [] s = consTake s := by cases ex <;> rfl
    unfold getcUntilZero
    rw [hpoll]
    rcases consTake_unread h with ⟨hnil, htake⟩ | ⟨b, rest, hcons, hc, hrest⟩
    · rw [htake, hnil]
      simp [bytes]
    · have hb : (b.toNat : Int) ≠ 0 := fun h0 =>
        hnz b (by rw [hcons]; exact List.mem_cons_self)
          (BitVec.eq_of_toNat_eq (Int.natCast_eq_zero.1 h0))
      have hnz' : ∀ x ∈ (consTake s).2.unread, x ≠ 0 := by
        intro x hx
        rw [hrest] at hx
        exact hnz x (by rw [hcons]; exact List.mem_cons_of_mem b hx)
      have ih := getcUntilZero_eq ex n (consTake_inBounds h) hnz'
      simp only [hc, if_neg hb]
      rw [hcons, List.take_succ_cons, ← hrest, ← ih]
      simp [bytes]

/-! ## Reachable states -/

/-- No NUL is unread. -/
structure Cons.Sound (s : Cons) : Prop where
  inBounds : s.InBounds
  nonzero : ∀ b ∈ s.unread, b ≠ 0

theorem mem_burst_ne_zero {procs : List (List Int)}
    (h : ∀ proc ∈ procs, ∀ c ∈ proc, -1 ≤ c ∧ c ≤ 255) : ∀ b ∈ burst procs, b ≠ 0 := by
  intro b hb
  obtain ⟨proc, hproc, hb⟩ := List.mem_flatMap.1 hb
  obtain ⟨c, hc, rfl⟩ := List.mem_map.1 hb
  have hrange := @InputEvent.characters_range true (.kbdIntr proc) (h proc hproc) c hc
  exact byte_ne_zero hrange.1 hrange.2

theorem Cons.Sound.intrs {s : Cons} (h : s.Sound) {procs : List (List Int)}
    (hprocs : ∀ proc ∈ procs, ∀ c ∈ proc, -1 ≤ c ∧ c ≤ 255) : (consIntrs procs s).Sound := by
  refine ⟨consIntrs_inBounds procs h.inBounds, fun b hb => ?_⟩
  rw [consIntrs_unread procs h.inBounds] at hb
  rcases List.mem_append.1 (List.mem_of_mem_drop hb) with hb | hb
  · exact h.nonzero b hb
  · exact mem_burst_ne_zero hprocs b hb

theorem Cons.Sound.take {s : Cons} (h : s.Sound) : (consTake s).2.Sound := by
  refine ⟨consTake_inBounds h.inBounds, ?_⟩
  rcases consTake_unread h.inBounds with ⟨-, htake⟩ | ⟨b, rest, hcons, -, hrest⟩
  · rw [htake]
    exact h.nonzero
  · intro x hx
    rw [hrest] at hx
    exact h.nonzero x (by rw [hcons]; exact List.mem_cons_of_mem b hx)

/-- The interrupts that an event takes. -/
def InputEvent.procs (serialExists : Bool) : InputEvent → List (List Int)
  | .serialIntr serial => if serialExists then [serial] else []
  | .kbdIntr kbd => [kbd]
  | .consGetc serial kbd => if serialExists then [serial, kbd] else [kbd]

theorem InputRun.polled_eq (ex : Bool) (r : InputRun) (e : InputEvent) :
    r.polled ex e = consIntrs (e.procs ex) r.cons := by
  cases e <;> cases ex <;> rfl

theorem InputEvent.procs_range {ex : Bool} {e : InputEvent} (h : e.InRange) :
    ∀ proc ∈ e.procs ex, ∀ c ∈ proc, -1 ≤ c ∧ c ≤ 255 := by
  cases e with
  | serialIntr serial =>
    cases ex with
    | false => simp [procs]
    | true => simpa [procs, InRange] using h
  | kbdIntr kbd => simpa [procs, InRange] using h
  | consGetc serial kbd =>
    have hserial : ∀ c ∈ serial, -1 ≤ c ∧ c ≤ 255 := fun c hc => h c (List.mem_append_left _ hc)
    have hkbd : ∀ c ∈ kbd, -1 ≤ c ∧ c ≤ 255 := fun c hc => h c (List.mem_append_right _ hc)
    cases ex with
    | false => simpa [procs] using hkbd
    | true =>
      intro proc hproc
      rcases List.mem_cons.1 hproc with rfl | hproc
      · exact hserial
      · rw [List.mem_singleton.1 hproc]
        exact hkbd

theorem InputRun.step_sound {ex : Bool} {r : InputRun} (h : r.cons.Sound) {e : InputEvent}
    (hrange : e.InRange) : (r.step ex e).cons.Sound := by
  have hpolled := h.intrs (@InputEvent.procs_range ex e hrange)
  rw [← polled_eq] at hpolled
  cases e with
  | serialIntr serial => exact hpolled
  | kbdIntr kbd => exact hpolled
  | consGetc serial kbd => exact hpolled.take

/-- Every run, with overruns or without. -/
theorem InputRun.run_sound {ex : Bool} : ∀ (events : List InputEvent) {r : InputRun},
    r.cons.Sound → (∀ e ∈ events, e.InRange) → (r.run ex events).cons.Sound
  | [], _, h, _ => h
  | e :: events, _, h, hrange =>
    run_sound events (step_sound h (hrange e List.mem_cons_self))
      fun e he => hrange e (List.mem_cons_of_mem _ he)

theorem Cons.init_sound : Cons.init.Sound :=
  ⟨Cons.init_inBounds, fun b hb => by rw [Cons.init_unread] at hb; cases hb⟩

/-! ## Overruns -/

/-- Of the characters that were unread and those of the burst, at least as many as the buffer
    holds are returned in order before a read finds nothing. -/
def LosesOnlyExcess (serialExists : Bool) (s : Cons) (procs : List (List Int)) : Prop :=
  ∃ (n : Nat) (kept : List Byte), kept.Sublist (s.unread ++ burst procs) ∧
    kept.Sublist (bytes (getcUntilZero serialExists n (consIntrs procs s))) ∧
    min (s.unread.length + (burst procs).length) (CONSBUFSIZE - 1) ≤ kept.length

theorem Cons.Sound.losesOnlyExcess_iff {ex : Bool} {s : Cons} (h : s.Sound)
    {procs : List (List Int)} (hprocs : ∀ proc ∈ procs, ∀ c ∈ proc, -1 ≤ c ∧ c ≤ 255) :
    LosesOnlyExcess ex s procs ↔
      s.unread.length + (burst procs).length < CONSBUFSIZE ∨
        (s.unread.length + (burst procs).length) % CONSBUFSIZE = CONSBUFSIZE - 1 := by
  have hsound := h.intrs hprocs
  have hread := fun n => getcUntilZero_eq ex n hsound.inBounds hsound.nonzero
  have hleft := consIntrs_unread procs h.inBounds
  have hlength := congrArg List.length hleft
  rw [List.length_drop, List.length_append] at hlength
  have hsize : CONSBUFSIZE = 512 := rfl
  rw [hsize] at hlength ⊢
  constructor
  · rintro ⟨n, kept, -, hkept, hmany⟩
    have hle := hkept.length_le
    rw [hread, List.length_take] at hle
    omega
  · intro hfits
    refine ⟨512, (consIntrs procs s).unread, ?_, ?_, ?_⟩
    · rw [hleft]
      exact List.drop_sublist _ _
    · have hlt := hsound.inBounds.length_unread
      have hall := (hread 512).trans (List.take_of_length_le (by omega))
      exact hall ▸ List.Sublist.refl _
    · omega

/-- **A burst loses only the excess exactly when there is none, or when the characters behind
    the last overrun fill the buffer**, in every state that a run reaches. -/
theorem overrun_iff (serialExists : Bool) (events : List InputEvent)
    (hrange : ∀ e ∈ events, e.InRange) (procs : List (List Int))
    (hprocs : ∀ proc ∈ procs, ∀ c ∈ proc, -1 ≤ c ∧ c ≤ 255) :
    LosesOnlyExcess serialExists (InputRun.init.run serialExists events).cons procs ↔
      (InputRun.init.run serialExists events).cons.unread.length + (burst procs).length <
          CONSBUFSIZE ∨
        ((InputRun.init.run serialExists events).cons.unread.length + (burst procs).length) %
          CONSBUFSIZE = CONSBUFSIZE - 1 :=
  (InputRun.run_sound events Cons.init_sound hrange).losesOnlyExcess_iff hprocs

theorem overrun_iff_hi :
    LosesOnlyExcess true (InputRun.init.run true [.kbdIntr [104]]).cons [[105, 0], [33]] :=
  (overrun_iff true [.kbdIntr [104]] (by decide) [[105, 0], [33]] (by decide)).2
    (Or.inl (by decide))

/-- A burst of 512 characters into an empty buffer: nothing is left. -/
theorem full_burst_lost :
    ¬LosesOnlyExcess true (InputRun.init.run true []).cons [List.replicate 512 104] := by
  have hburst : (burst [List.replicate 512 104]).length = 512 := by decide +kernel
  intro h
  have hfits := (Cons.init_sound.losesOnlyExcess_iff fun proc hproc c hc => by
    rw [List.mem_singleton.1 hproc] at hc
    rw [List.eq_of_mem_replicate hc]
    decide).1 h
  rw [hburst, Cons.init_unread] at hfits
  revert hfits
  decide

end Jos
