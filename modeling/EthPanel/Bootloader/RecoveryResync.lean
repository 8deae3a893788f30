import EthPanel.Bootloader.RecoveryLoop

/-!
# The receiver after a timeout

What a turn of the loop takes from its input does not depend on what comes after it, and a timeout
ends a turn that waits, wherever it is. So a receiver that has seen a timeout is at the top of its
loop: what it does from there on is a matter of its locals and flash, and of nothing it has read
(`serve_timeout`).
-/

namespace EthPanel

/-- A reading function: what it takes does not depend on the rest, and a timeout ends its wait. -/
structure Consumes {α : Type} (f : List Rx → ReadResult α) : Prop where
  got : ∀ {rx a rest}, f rx = .got a rest →
    ∃ used, rx = used ++ rest ∧ ∀ more, f (used ++ more) = .got a more
  timedOut : ∀ {rx rest}, f rx = .timedOut rest →
    ∃ used, rx = used ++ rest ∧ ∀ more, f (used ++ more) = .timedOut more
  waiting : ∀ {rx}, f rx = .waiting → ∀ more, f (rx ++ .timeout :: more) = .timedOut more

/-- A turn of the loop, or a part of it that ends the turn. -/
structure Turns (f : List Rx → Option (Frame × List Rx)) : Prop where
  done : ∀ {rx fr rest}, f rx = some (fr, rest) →
    ∃ used, rx = used ++ rest ∧ ∀ more, f (used ++ more) = some (fr, more)
  waiting : ∀ {rx}, f rx = none → ∀ more, ∃ fr, f (rx ++ .timeout :: more) = some (fr, more)

/-- A turn that has all of its input is the same whatever comes after. -/
theorem Turns.whole {f : List Rx → Option (Frame × List Rx)} (h : Turns f) {rx : List Rx}
    {fr : Frame} (hread : f rx = some (fr, [])) (more : List Rx) :
    f (rx ++ more) = some (fr, more) := by
  obtain ⟨used, rfl, hused⟩ := h.done hread
  rw [List.append_nil]
  exact hused more

/-! ## The reading functions -/

theorem readExact_consumes (n : ℕ) : Consumes (readExact n) := by
  induction n with
  | zero =>
    refine ⟨?_, ?_, ?_⟩
    · intro rx a rest h
      simp only [readExact, ReadResult.got.injEq] at h
      obtain ⟨rfl, rfl⟩ := h
      exact ⟨[], rfl, fun _ => rfl⟩
    · intro rx rest h
      cases h
    · intro rx h
      cases h
  | succ n ih =>
    refine ⟨?_, ?_, ?_⟩
    · intro rx a rest h
      rcases rx with _ | ⟨_ | _, rx⟩
      · cases h
      · rename_i b
        cases hread : readExact n rx with
        | got bs rest' =>
          simp only [readExact, hread, ReadResult.got.injEq] at h
          obtain ⟨rfl, rfl⟩ := h
          obtain ⟨used, rfl, hused⟩ := ih.got hread
          exact ⟨.byte b :: used, rfl, fun more => by simp [readExact, hused]⟩
        | timedOut rest' => simp [readExact, hread] at h
        | waiting => simp [readExact, hread] at h
      · cases h
    · intro rx rest h
      rcases rx with _ | ⟨_ | _, rx⟩
      · cases h
      · rename_i b
        cases hread : readExact n rx with
        | got bs rest' => simp [readExact, hread] at h
        | timedOut rest' =>
          simp only [readExact, hread, ReadResult.timedOut.injEq] at h
          subst h
          obtain ⟨used, rfl, hused⟩ := ih.timedOut hread
          exact ⟨.byte b :: used, rfl, fun more => by simp [readExact, hused]⟩
        | waiting => simp [readExact, hread] at h
      · simp only [readExact, ReadResult.timedOut.injEq] at h
        subst h
        exact ⟨[.timeout], rfl, fun _ => rfl⟩
    · intro rx h more
      rcases rx with _ | ⟨_ | _, rx⟩
      · rfl
      · rename_i b
        cases hread : readExact n rx with
        | got bs rest' => simp [readExact, hread] at h
        | timedOut rest' => simp [readExact, hread] at h
        | waiting => simp [readExact, ih.waiting hread]
      · cases h

/-- A byte ends the scan, or the scan goes on with another window, whatever comes next. -/
theorem scanCommand_cons (w : List UInt8) (filled : ℕ) (b : UInt8) :
    (∃ m, ∀ rx, scanCommand w filled (.byte b :: rx) = .got m rx) ∨
      ∃ w' filled', ∀ rx, scanCommand w filled (.byte b :: rx) = scanCommand w' filled' rx := by
  simp only [scanCommand]
  generalize (if filled < 4 then filled + 1 else filled) = k
  by_cases hk : k = 4
  · simp only [if_pos hk]
    cases cmdMagics.find? fun m => m.bytes == w.tail ++ [b] with
    | some m => exact Or.inl ⟨m, fun _ => rfl⟩
    | none => exact Or.inr ⟨_, _, fun _ => rfl⟩
  · simp only [if_neg hk]
    exact Or.inr ⟨_, _, fun _ => rfl⟩

theorem scanCommand_consumes (w : List UInt8) (filled : ℕ) : Consumes (scanCommand w filled) := by
  refine ⟨?_, ?_, ?_⟩
  · intro rx m rest h
    induction rx generalizing w filled with
    | nil => cases h
    | cons x rx ih =>
      cases x with
      | timeout => cases h
      | byte b =>
        rcases scanCommand_cons w filled b with ⟨m', hm⟩ | ⟨w', filled', hm⟩
        · rw [hm, ReadResult.got.injEq] at h
          obtain ⟨rfl, rfl⟩ := h
          exact ⟨[.byte b], rfl, fun more => hm more⟩
        · obtain ⟨used, rfl, hused⟩ := ih w' filled' (hm rx ▸ h)
          exact ⟨.byte b :: used, rfl, fun more => (hm _).trans (hused more)⟩
  · intro rx rest h
    induction rx generalizing w filled with
    | nil => cases h
    | cons x rx ih =>
      cases x with
      | timeout =>
        simp only [scanCommand, ReadResult.timedOut.injEq] at h
        subst h
        exact ⟨[.timeout], rfl, fun _ => rfl⟩
      | byte b =>
        rcases scanCommand_cons w filled b with ⟨m', hm⟩ | ⟨w', filled', hm⟩
        · rw [hm] at h
          cases h
        · obtain ⟨used, rfl, hused⟩ := ih w' filled' (hm rx ▸ h)
          exact ⟨.byte b :: used, rfl, fun more => (hm _).trans (hused more)⟩
  · intro rx h more
    induction rx generalizing w filled with
    | nil => rfl
    | cons x rx ih =>
      cases x with
      | timeout => cases h
      | byte b =>
        rcases scanCommand_cons w filled b with ⟨m', hm⟩ | ⟨w', filled', hm⟩
        · rw [hm] at h
          cases h
        · exact (hm _).trans (ih w' filled' (hm rx ▸ h))

/-- A word is its four bytes. -/
theorem readU32_got_exact {rx rest : List Rx} {bs : List UInt8}
    (h : readExact 4 rx = .got bs rest) :
    ∃ v, ∀ rx' more, readExact 4 rx' = .got bs more → readU32 rx' = .got v more := by
  obtain ⟨hlength, _⟩ := readExact_got h
  rcases bs with _ | ⟨b₀, _ | ⟨b₁, _ | ⟨b₂, _ | ⟨b₃, _ | ⟨b₄, bs⟩⟩⟩⟩⟩
  all_goals simp only [List.length_nil, List.length_cons] at hlength
  · omega
  · omega
  · omega
  · omega
  · exact ⟨ofLe32 b₀ b₁ b₂ b₃, fun rx' more hread => by simp [readU32, hread]⟩
  · omega

theorem readU32_consumes : Consumes readU32 := by
  have hread := readExact_consumes 4
  refine ⟨?_, ?_, ?_⟩
  · intro rx v rest h
    cases hexact : readExact 4 rx with
    | got bs rest' =>
      obtain ⟨v', hv⟩ := readU32_got_exact hexact
      rw [hv rx rest' hexact, ReadResult.got.injEq] at h
      obtain ⟨rfl, rfl⟩ := h
      obtain ⟨used, rfl, hused⟩ := hread.got hexact
      exact ⟨used, rfl, fun more => hv _ _ (hused more)⟩
    | timedOut rest' => simp [readU32, hexact] at h
    | waiting => simp [readU32, hexact] at h
  · intro rx rest h
    cases hexact : readExact 4 rx with
    | got bs rest' =>
      obtain ⟨v', hv⟩ := readU32_got_exact hexact
      rw [hv rx rest' hexact] at h
      cases h
    | timedOut rest' =>
      simp only [readU32, hexact, ReadResult.timedOut.injEq] at h
      subst h
      obtain ⟨used, rfl, hused⟩ := hread.timedOut hexact
      exact ⟨used, rfl, fun more => by simp [readU32, hused]⟩
    | waiting => simp [readU32, hexact] at h
  · intro rx h more
    cases hexact : readExact 4 rx with
    | got bs rest' =>
      obtain ⟨v', hv⟩ := readU32_got_exact hexact
      rw [hv rx rest' hexact] at h
      cases h
    | timedOut rest' => simp [readU32, hexact] at h
    | waiting => simp [readU32, hread.waiting hexact]

/-! ## A turn -/

theorem Turns.end (fr : Frame) : Turns fun rx => some (fr, rx) := by
  refine ⟨?_, ?_⟩
  · intro rx fr' rest h
    obtain ⟨rfl, rfl⟩ := Prod.mk.inj (Option.some.inj h)
    exact ⟨[], rfl, fun _ => rfl⟩
  · intro rx h
    cases h

/-- The turn goes on with what was read, or a timeout has cut it. -/
def ReadResult.turn {α : Type} (r : ReadResult α) (cut : Frame)
    (g : α → List Rx → Option (Frame × List Rx)) : Option (Frame × List Rx) :=
  match r with
  | .waiting => none
  | .timedOut rx => some (cut, rx)
  | .got a rx => g a rx

/-- **Reading is a turn if what follows it is.** -/
theorem Consumes.turns {α : Type} {f : List Rx → ReadResult α} (hf : Consumes f) (cut : Frame)
    {g : α → List Rx → Option (Frame × List Rx)} (hg : ∀ a, Turns (g a)) :
    Turns fun rx => (f rx).turn cut g := by
  refine ⟨?_, ?_⟩
  · intro rx fr rest h
    cases hread : f rx with
    | waiting =>
      rw [hread] at h
      cases h
    | timedOut rest' =>
      rw [hread] at h
      obtain ⟨rfl, rfl⟩ := Prod.mk.inj (Option.some.inj h)
      obtain ⟨used, rfl, hused⟩ := hf.timedOut hread
      exact ⟨used, rfl, fun more => by rw [hused]; rfl⟩
    | got a rest' =>
      rw [hread] at h
      obtain ⟨used, rfl, hused⟩ := hf.got hread
      obtain ⟨used', rfl, hused'⟩ := (hg a).done h
      refine ⟨used ++ used', by simp, fun more => ?_⟩
      rw [List.append_assoc, hused]
      exact hused' more
  · intro rx h more
    cases hread : f rx with
    | waiting => exact ⟨cut, by rw [hf.waiting hread]; rfl⟩
    | timedOut rest' =>
      rw [hread] at h
      cases h
    | got a rest' =>
      rw [hread] at h
      obtain ⟨used, rfl, hused⟩ := hf.got hread
      obtain ⟨fr, hfr⟩ := (hg a).waiting h more
      refine ⟨fr, ?_⟩
      rw [List.append_assoc, hused]
      exact hfr

theorem readBegn_eq : readBegn = fun rx => (readU32 rx).turn (.begnCut none) fun len rx =>
    (readU32 rx).turn (.begnCut (some len)) fun crc rx => some (.begn len crc, rx) := by
  funext rx
  unfold readBegn
  cases readU32 rx with
  | got len rest =>
    dsimp only [ReadResult.turn]
    cases readU32 rest <;> rfl
  | _ => rfl

theorem readBegn_turns : Turns readBegn := by
  rw [readBegn_eq]
  exact readU32_consumes.turns _ fun len => readU32_consumes.turns _ fun crc => .end _

/-- The DATA branch once the header is read. -/
def readPayload (off len ccrc : UInt32) (rx : List Rx) : Option (Frame × List Rx) :=
  if dataRefused off len then some (.dataNak off, rx)
  else (readExact len.toNat rx).turn (.dataNak off) fun chunk rx =>
    some (if otaCrc32 chunk != ccrc then .dataNak off else .data off len chunk, rx)

theorem readPayload_turns (off len ccrc : UInt32) : Turns (readPayload off len ccrc) := by
  unfold readPayload
  split
  · exact .end _
  · exact (readExact_consumes len.toNat).turns _ fun chunk => .end _

theorem readData_eq : readData = fun rx => (readU32 rx).turn .dataCut fun off rx =>
    (readU32 rx).turn .dataCut fun len rx => (readU32 rx).turn .dataCut (readPayload off len) := by
  funext rx
  unfold readData
  cases readU32 rx with
  | got off rest =>
    dsimp only [ReadResult.turn]
    cases readU32 rest with
    | got len rest =>
      dsimp only [ReadResult.turn]
      cases readU32 rest with
      | got ccrc rest =>
        dsimp only [ReadResult.turn, readPayload]
        split
        · rfl
        · cases readExact len.toNat rest with
          | got chunk rest =>
            by_cases hcrc : (otaCrc32 chunk != ccrc) = true
            · simp only [hcrc, if_true]
            · simp only [hcrc, Bool.false_eq_true, if_false]
          | _ => rfl
      | _ => rfl
    | _ => rfl
  | _ => rfl

theorem readData_turns : Turns readData := by
  rw [readData_eq]
  exact readU32_consumes.turns _ fun off => readU32_consumes.turns _ fun len =>
    readU32_consumes.turns _ fun ccrc => readPayload_turns off len ccrc

/-- What a turn reads after its command. -/
def readRest : Magic → List Rx → Option (Frame × List Rx)
  | .rp2b, rx => (readExact 4 rx).turn .sync fun _ rx => some (.sync, rx)
  | .begn, rx => readBegn rx
  | .data, rx => readData rx
  | .end', rx => some (.end', rx)
  | .go, rx => some (.go, rx)

theorem readFrame_eq : readFrame = fun rx => (readCommand rx).turn .idle readRest := by
  funext rx
  unfold readFrame
  cases readCommand rx with
  | got m rest =>
    cases m with
    | rp2b =>
      dsimp only [ReadResult.turn, readRest]
      cases readExact 4 rest <;> rfl
    | _ => rfl
  | _ => rfl

/-- **A turn of the loop.** -/
theorem readFrame_turns : Turns readFrame := by
  rw [readFrame_eq]
  refine (scanCommand_consumes [0, 0, 0, 0] 0).turns _ fun m => ?_
  cases m with
  | rp2b => exact (readExact_consumes 4).turns _ fun _ => .end _
  | begn => exact readBegn_turns
  | data => exact readData_turns
  | end' => exact .end _
  | go => exact .end _

/-! ## The loop -/

/-- One input after another. -/
def Served.andThen (a b : Served) : Served :=
  ⟨b.recv, a.frames ++ b.frames, a.replies ++ b.replies, b.rest⟩

theorem serve_waiting (s : Recv) {rx : List Rx} (h : readFrame rx = none) (hup : s.up = true) :
    serve s rx = ⟨s, [], [], rx⟩ := by
  unfold serve
  cases rx with
  | nil => rfl
  | cons x rx => simp only [List.length_cons, serveN, hup, if_true, h]

/-- Where `serve` stops, the receiver waits, or it has left the loop. -/
theorem serve_rest (s : Recv) (rx : List Rx) :
    ((serve s rx).recv.up = true ∧ readFrame (serve s rx).rest = none) ∨
      ((serve s rx).recv.up = false ∧ (serve s rx).rest = []) := by
  induction h : rx.length using Nat.strongRecOn generalizing s rx with
  | ind n ih =>
    cases hup : s.up with
    | false =>
      rw [serve_down rx hup]
      exact Or.inr ⟨hup, rfl⟩
    | true =>
      cases hread : readFrame rx with
      | none =>
        rw [serve_waiting s hread hup]
        exact Or.inl ⟨hup, hread⟩
      | some turn =>
        obtain ⟨fr, rest⟩ := turn
        rw [serve_turn hup hread]
        exact ih rest.length (h ▸ readFrame_rest hread) _ rest rfl

/-- **The pieces an input comes in do not matter.** What is served is served; the turn that waits
goes on with the next piece. -/
theorem serve_append (s : Recv) (rx more : List Rx) :
    serve s (rx ++ more) =
      (serve s rx).andThen (serve (serve s rx).recv ((serve s rx).rest ++ more)) := by
  induction h : rx.length using Nat.strongRecOn generalizing s rx with
  | ind n ih =>
    cases hup : s.up with
    | false =>
      rw [serve_down rx hup, serve_down _ hup, serve_down _ hup]
      rfl
    | true =>
      cases hread : readFrame rx with
      | none =>
        rw [serve_waiting s hread hup]
        rfl
      | some turn =>
        obtain ⟨fr, rest⟩ := turn
        obtain ⟨used, rfl, hused⟩ := readFrame_turns.done hread
        have hwhole := hused (rest ++ more)
        rw [← List.append_assoc] at hwhole
        rw [serve_turn hup hread, serve_turn hup hwhole,
          ih rest.length (h ▸ readFrame_rest hread) _ rest rfl]
        simp [Served.andThen]

/-- A timeout ends the turn that the receiver is in. -/
theorem serve_quiet (s : Recv) (rx : List Rx) : (serve s (rx ++ [.timeout])).rest = [] := by
  rw [serve_append]
  show (serve (serve s rx).recv ((serve s rx).rest ++ [.timeout])).rest = []
  rcases serve_rest s rx with ⟨hup, hwait⟩ | ⟨hup, -⟩
  · obtain ⟨fr, hfr⟩ := readFrame_turns.waiting hwait []
    rw [serve_turn hup hfr]
    rfl
  · rw [serve_down _ hup]

/-- **A timeout ends whatever the receiver was in the middle of.** From there on it does what a
receiver does that has read nothing yet and has its locals and its flash. -/
theorem serve_timeout (s : Recv) (rx more : List Rx) :
    (serve s (rx ++ [.timeout])).rest = [] ∧
      serve s (rx ++ .timeout :: more) =
        (serve s (rx ++ [.timeout])).andThen (serve (serve s (rx ++ [.timeout])).recv more) := by
  have hnone := serve_quiet s rx
  refine ⟨hnone, ?_⟩
  have hsplit := serve_append s (rx ++ [.timeout]) more
  rw [hnone, List.nil_append] at hsplit
  rw [← hsplit, List.append_assoc, List.singleton_append]

end EthPanel
