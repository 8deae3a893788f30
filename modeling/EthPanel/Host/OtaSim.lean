import EthPanel.Host.Tokens

/-!
# `test/ota_sim.py`

The receiver's stand-in in the tests of the OTA protocol: `_serve_connection` with no faults, on the
bytes of a connection that stays open. It takes the same frames as `recovery_run`, but checks no
length and no offset, and writes over what is there where flash can only clear bits.

Its reads and the device's are the same reads, on bytes that come without a timeout; that is the
second half.
-/

namespace EthPanel

open Lts

/-! ## The simulator -/

/-- `Device`. -/
structure SimDevice where
  slot : List UInt8
  appLen : UInt32
  appCrc : UInt32
  committed : Option (List UInt8)

namespace SimDevice

def new : SimDevice := ⟨[], 0, 0, none⟩

/-- `_ensure(end)`. -/
def ensure (d : SimDevice) (stop : ℕ) : SimDevice :=
  { d with slot := d.slot ++ List.replicate (stop - d.slot.length) 0xFF }

/-- `for i in range(dev.app_len): dev.slot[i] = 0xFF`. -/
def erase (d : SimDevice) : SimDevice :=
  { d with slot := List.replicate d.appLen.toNat 0xFF ++ d.slot.drop d.appLen.toNat }

/-- `dev.slot[off:off + ln] = payload`. -/
def write (d : SimDevice) (off : ℕ) (payload : List UInt8) : SimDevice :=
  { d with slot := d.slot.take off ++ (payload ++ d.slot.drop (off + payload.length)) }

end SimDevice

/-- `MAGICS`. -/
def simMagics : List (List UInt8) := cmdMagics.map Magic.bytes

/-- `SLOT_SIZE` and `CHUNK`. -/
def simSlotSize : UInt32 := 0x3BE000
def simChunk : UInt32 := 1024

/-- `_read_command`: without faults its loop is that of `read_token`. -/
def simReadCommand (bs : List UInt8) : Option (List UInt8 × List UInt8) :=
  Link.scanToken simMagics [] bs

/-- `_read_exact(rd, n, faults)`. -/
def simReadExact (n : ℕ) (bs : List UInt8) : Option (List UInt8 × List UInt8) :=
  if n ≤ bs.length then some (bs.take n, bs.drop n) else none

/-- One turn of the loop of `_serve_connection`. -/
structure SimTurn where
  dev : SimDevice
  reply : List UInt8
  /-- It has not returned. -/
  goesOn : Bool
  rest : List UInt8

/-- `committed`, when the turn answers DONE. -/
def SimTurn.commits (t : SimTurn) : List (List UInt8) :=
  if t.reply = Reply.done.bytes then t.dev.committed.toList else []

def simBegn (d : SimDevice) (bs : List UInt8) : Option SimTurn :=
  match simReadExact 8 bs with
  | none => none
  | some (hdr, bs) =>
    let d := { d with appLen := unpack32 (hdr.take 4), appCrc := unpack32 (hdr.drop 4) }
    some ⟨(d.ensure d.appLen.toNat).erase, Reply.oker.bytes, true, bs⟩

def simData (d : SimDevice) (bs : List UInt8) : Option SimTurn :=
  match simReadExact 12 bs with
  | none => none
  | some (hdr, bs) =>
    let off := unpack32 (hdr.take 4)
    let ln := unpack32 ((hdr.drop 4).take 4)
    let ccrc := unpack32 (hdr.drop 8)
    match simReadExact ln.toNat bs with
    | none => none
    | some (payload, bs) =>
      if zlibCrc32 payload ≠ ccrc then some ⟨d, Reply.dnak.bytes ++ le32 off, true, bs⟩
      else
        some ⟨(d.ensure (off.toNat + ln.toNat)).write off.toNat payload,
          Reply.dack.bytes ++ le32 off, true, bs⟩

def simEnd (d : SimDevice) (bs : List UInt8) : SimTurn :=
  let image := d.slot.take d.appLen.toNat
  if zlibCrc32 image = d.appCrc then
    ⟨{ d with committed := some image }, Reply.done.bytes, true, bs⟩
  else ⟨d, Reply.ecrc.bytes, true, bs⟩

/-- `none` while the turn still waits for input. -/
def simTurn (d : SimDevice) (bs : List UInt8) : Option SimTurn :=
  match simReadCommand bs with
  | none => none
  | some (tok, bs) =>
    if tok = Magic.rp2b.bytes then
      match simReadExact 4 bs with
      | none => none
      | some (_, bs) =>
        some ⟨d, Reply.blok.bytes ++ (le32 simSlotSize ++ le32 simChunk), true, bs⟩
    else if tok = Magic.begn.bytes then simBegn d bs
    else if tok = Magic.data.bytes then simData d bs
    else if tok = Magic.end'.bytes then some (simEnd d bs)
    else if tok = Magic.go.bytes then some ⟨d, Reply.bye.bytes, false, bs⟩
    else some ⟨d, [], true, bs⟩

/-- What the simulator has done with an input. -/
structure SimServed where
  dev : SimDevice
  replies : List UInt8
  /-- What `committed` was at each DONE. -/
  commits : List (List UInt8)
  rest : List UInt8

/-- The first `n` turns of `_serve_connection`. -/
def simServe : ℕ → SimDevice → List UInt8 → SimServed
  | 0, d, bs => ⟨d, [], [], bs⟩
  | n + 1, d, bs =>
    match simTurn d bs with
    | none => ⟨d, [], [], bs⟩
    | some t =>
      if t.goesOn then
        let more := simServe n t.dev t.rest
        { more with replies := t.reply ++ more.replies, commits := t.commits ++ more.commits }
      else ⟨t.dev, t.reply, t.commits, t.rest⟩

/-! ## Reading the same -/

theorem readExact_bytes (n : ℕ) (bs : List UInt8) : readExact n (sent bs) =
    if n ≤ bs.length then .got (bs.take n) (sent (bs.drop n)) else .waiting := by
  induction n generalizing bs with
  | zero => rw [if_pos (Nat.zero_le _)]; rfl
  | succ n ih =>
    cases bs with
    | nil => rfl
    | cons b bs =>
      rw [sent, List.map_cons, readExact, ih]
      by_cases h : n ≤ bs.length
      · rw [if_pos h, if_pos (by simpa using h)]
        rfl
      · rw [if_neg h, if_neg (by simpa using h)]

theorem readU32_bytes (bs : List UInt8) : readU32 (sent bs) =
    if 4 ≤ bs.length then .got (unpack32 (bs.take 4)) (sent (bs.drop 4)) else .waiting := by
  rw [readU32, readExact_bytes]
  match bs with
  | [] | [_] | [_, _] | [_, _, _] => rfl
  | b₀ :: b₁ :: b₂ :: b₃ :: bs => simp [unpack32]

/-- **The same command is found.** -/
theorem simReadCommand_eq (bs : List UInt8) :
    (readCommand (sent bs) = .waiting ∧ simReadCommand bs = none) ∨
    ∃ m rest, readCommand (sent bs) = .got m (sent rest) ∧
      simReadCommand bs = some (m.bytes, rest) := by
  have hdevice := commandScanner_spots
  have hhost := tokenScanner_spots simMagics
  have htoken : ∀ t, t ∈ simMagics ∧ t.length = 4 ↔ ∃ m : Magic, m.bytes = t := by
    intro t
    constructor
    · rintro ⟨ht, _⟩
      obtain ⟨m, _, rfl⟩ := List.mem_map.mp ht
      exact ⟨m, rfl⟩
    · rintro ⟨m, rfl⟩
      exact ⟨List.mem_map_of_mem (by cases m <;> decide), magic_length m⟩
  cases hrun : commandScanner.run ([0, 0, 0, 0], 0) bs with
  | none =>
    refine Or.inl ⟨readCommand_waiting.mpr hrun, ?_⟩
    rw [simReadCommand, scanToken_eq_run, hhost.run_eq_none]
    intro t ht
    obtain ⟨m, rfl⟩ := (htoken t).mp ht
    exact hdevice.run_eq_none.mp hrun m trivial
  | some r =>
    obtain ⟨m, rest⟩ := r
    refine Or.inr ⟨m, rest, readCommand_got.mpr ⟨rest, hrun, rfl⟩, ?_⟩
    obtain ⟨read, hsplit, _, hends, hfirst⟩ := hdevice.run_eq_some.mp hrun
    rw [simReadCommand, scanToken_eq_run, hhost.run_eq_some]
    refine ⟨read, hsplit, (htoken _).mpr ⟨m, rfl⟩, hends, fun p hp t ht hsuf => ?_⟩
    obtain ⟨m', rfl⟩ := (htoken t).mp ht
    exact hfirst p hp m' trivial hsuf

theorem readBegn_bytes (bs : List UInt8) : readBegn (sent bs) =
    if 8 ≤ bs.length then
      some (.begn (unpack32 (bs.take 4)) (unpack32 ((bs.drop 4).take 4)), sent (bs.drop 8))
    else none := by
  rw [readBegn, readU32_bytes]
  by_cases h₄ : 4 ≤ bs.length
  · simp only [if_pos h₄, readU32_bytes, List.length_drop, List.drop_drop]
    by_cases h₈ : 8 ≤ bs.length
    · rw [if_pos h₈, if_pos (by omega)]
    · rw [if_neg h₈, if_neg (by omega)]
  · rw [if_neg h₄, if_neg (by omega)]

/-! The three words of a DATA header. -/

def hdrOff (bs : List UInt8) : UInt32 := unpack32 (bs.take 4)
def hdrLen (bs : List UInt8) : UInt32 := unpack32 ((bs.drop 4).take 4)
def hdrCrc (bs : List UInt8) : UInt32 := unpack32 ((bs.drop 8).take 4)

theorem readHeader_bytes {bs : List UInt8} (h : 12 ≤ bs.length) :
    readU32 (sent bs) = .got (hdrOff bs) (sent (bs.drop 4)) ∧
    readU32 (sent (bs.drop 4)) = .got (hdrLen bs) (sent (bs.drop 8)) ∧
    readU32 (sent (bs.drop 8)) = .got (hdrCrc bs) (sent (bs.drop 12)) := by
  refine ⟨?_, ?_, ?_⟩
  · rw [readU32_bytes, if_pos (by omega)]
    rfl
  · rw [readU32_bytes, if_pos (by rw [List.length_drop]; omega), List.drop_drop]
    rfl
  · rw [readU32_bytes, if_pos (by rw [List.length_drop]; omega), List.drop_drop]
    rfl

theorem readData_short {bs : List UInt8} (h : ¬ 12 ≤ bs.length) : readData (sent bs) = none := by
  rw [readData, readU32_bytes]
  by_cases h₄ : 4 ≤ bs.length
  · simp only [if_pos h₄, readU32_bytes, List.length_drop, List.drop_drop]
    by_cases h₈ : 4 ≤ bs.length - 4
    · have hcrc : readU32 (sent (bs.drop (4 + 4))) = .waiting := by
        rw [readU32_bytes, if_neg (by rw [List.length_drop]; omega)]
      simp only [if_pos h₈, hcrc]
    · simp only [if_neg h₈]
  · rw [if_neg h₄]

/-- A DATA frame that fails the bounds check is answered before its payload. -/
theorem readData_refused {bs : List UInt8} (h : 12 ≤ bs.length)
    (hbounds : dataRefused (hdrOff bs) (hdrLen bs) = true) :
    readData (sent bs) = some (.dataNak (hdrOff bs), sent (bs.drop 12)) := by
  obtain ⟨hoff, hlen, hcrc⟩ := readHeader_bytes h
  simp only [readData, hoff, hlen, hcrc, hbounds, if_true]

theorem readData_payload {bs : List UInt8} (h : 12 ≤ bs.length)
    (hbounds : dataRefused (hdrOff bs) (hdrLen bs) = false) : readData (sent bs) =
    if (hdrLen bs).toNat ≤ (bs.drop 12).length then
      some (if otaCrc32 ((bs.drop 12).take (hdrLen bs).toNat) = hdrCrc bs then
          .data (hdrOff bs) (hdrLen bs) ((bs.drop 12).take (hdrLen bs).toNat)
        else .dataNak (hdrOff bs), sent ((bs.drop 12).drop (hdrLen bs).toNat))
    else none := by
  obtain ⟨hoff, hlen, hcrc⟩ := readHeader_bytes h
  simp only [readData, hoff, hlen, hcrc, hbounds, Bool.false_eq_true, if_false, readExact_bytes]
  by_cases hall : (hdrLen bs).toNat ≤ (bs.drop 12).length
  · simp only [if_pos hall]
    by_cases hok : otaCrc32 ((bs.drop 12).take (hdrLen bs).toNat) = hdrCrc bs
    · rw [if_neg (by simp [hok]), if_pos hok]
    · rw [if_pos (by simpa using hok), if_neg hok]
  · simp only [if_neg hall]

theorem simReadExact_of_le {n : ℕ} {bs : List UInt8} (h : n ≤ bs.length) :
    simReadExact n bs = some (bs.take n, bs.drop n) := if_pos h

theorem simReadExact_of_not_le {n : ℕ} {bs : List UInt8} (h : ¬ n ≤ bs.length) :
    simReadExact n bs = none := if_neg h

theorem simBegn_bytes (d : SimDevice) {bs : List UInt8} (h : 8 ≤ bs.length) : simBegn d bs =
    some ⟨(SimDevice.ensure ⟨d.slot, unpack32 (bs.take 4), unpack32 ((bs.drop 4).take 4),
        d.committed⟩ (unpack32 (bs.take 4)).toNat).erase,
      Reply.oker.bytes, true, bs.drop 8⟩ := by
  have hlen : (bs.take 8).take 4 = bs.take 4 := List.take_take
  have hcrc : (bs.take 8).drop 4 = (bs.drop 4).take 4 := List.drop_take
  simp only [simBegn, simReadExact_of_le h, hlen, hcrc]

/-- The simulator reads the payload of any header. -/
theorem simData_payload (d : SimDevice) {bs : List UInt8} (h : 12 ≤ bs.length) : simData d bs =
    if (hdrLen bs).toNat ≤ (bs.drop 12).length then
      some (if zlibCrc32 ((bs.drop 12).take (hdrLen bs).toNat) = hdrCrc bs then
          ⟨(d.ensure ((hdrOff bs).toNat + (hdrLen bs).toNat)).write (hdrOff bs).toNat
              ((bs.drop 12).take (hdrLen bs).toNat),
            Reply.dack.bytes ++ le32 (hdrOff bs), true, (bs.drop 12).drop (hdrLen bs).toNat⟩
        else ⟨d, Reply.dnak.bytes ++ le32 (hdrOff bs), true,
          (bs.drop 12).drop (hdrLen bs).toNat⟩)
    else none := by
  have hoff : unpack32 ((bs.take 12).take 4) = hdrOff bs := by
    rw [List.take_take]
    rfl
  have hlen : unpack32 (((bs.take 12).drop 4).take 4) = hdrLen bs := by
    rw [List.drop_take, List.take_take]
    rfl
  have hcrc : unpack32 ((bs.take 12).drop 8) = hdrCrc bs := by
    rw [List.drop_take]
    rfl
  simp only [simData, simReadExact_of_le h, hoff, hlen, hcrc]
  by_cases hall : (hdrLen bs).toNat ≤ (bs.drop 12).length
  · simp only [simReadExact_of_le hall, if_pos hall]
    by_cases hok : zlibCrc32 ((bs.drop 12).take (hdrLen bs).toNat) = hdrCrc bs
    · rw [if_neg (not_not.mpr hok), if_pos hok]
    · rw [if_pos hok, if_neg hok]
  · simp only [simReadExact_of_not_le hall, if_neg hall]

end EthPanel
