import EthPanel.Lib.Run
import EthPanel.Ota.BootState

/-!
# `bootloader/recovery.c`

The OTA receiver. Its input is what `net_read` brings it, byte by byte, with the moments at
which a read ran into its deadline marked: every pattern of timeouts is a placement of
`Rx.timeout` in the stream. On a finite input the receiver gets as far as it can and then
waits; `none` from a reading function is that waiting, not an error.

One turn of the command loop first reads all of its input and only then acts, so it is given in
two halves: `readFrame` follows the control flow of the loop body up to the point where the
turn's input is complete, and names the way it got there (`Frame`); `execFrame` is what the turn
then does to the locals, to flash and on the wire. The decisions that need only the input (the
header checks, the chunk CRC) are in the first half, where the source makes them.

The LED, the log output and the stale tail of `s_chunk` behind a short read have no part in any
decision and are left out.
-/

namespace EthPanel

/-- One thing `net_read` can bring: a byte, or a deadline reached without one. -/
inductive Rx
  | byte (b : UInt8)
  | timeout
  deriving DecidableEq, Repr

/-- The outcome of a blocking read on the input seen so far. -/
inductive ReadResult (α : Type)
  | got (a : α) (rest : List Rx)
  | timedOut (rest : List Rx)
  | waiting
  deriving DecidableEq

/-! ## Reading -/

/-- `CMD_MAGICS`. -/
inductive Magic
  | rp2b | begn | data | end' | go
  deriving DecidableEq, Repr

def Magic.bytes : Magic → List UInt8
  | .rp2b => [0x52, 0x50, 0x32, 0x42]
  | .begn => [0x42, 0x45, 0x47, 0x4E]
  | .data => [0x44, 0x41, 0x54, 0x41]
  | .end' => [0x45, 0x4E, 0x44, 0x21]
  | .go => [0x47, 0x4F, 0x21, 0x21]

def cmdMagics : List Magic := [.rp2b, .begn, .data, .end', .go]

/-- `read_exact(buf, n, timeout)`: the bytes, or a timeout before the last of them. -/
def readExact : ℕ → List Rx → ReadResult (List UInt8)
  | 0, rx => .got [] rx
  | _ + 1, [] => .waiting
  | _ + 1, .timeout :: rx => .timedOut rx
  | n + 1, .byte b :: rx =>
    match readExact n rx with
    | .got bs rest => .got (b :: bs) rest
    | .timedOut rest => .timedOut rest
    | .waiting => .waiting

/-- The loop of `read_command`: `w` is the sliding window, `filled` its fill counter. -/
def scanCommand : List UInt8 → ℕ → List Rx → ReadResult Magic
  | _, _, [] => .waiting
  | _, _, .timeout :: rx => .timedOut rx
  | w, filled, .byte b :: rx =>
    let w := w.tail ++ [b]
    let filled := if filled < 4 then filled + 1 else filled
    if filled = 4 then
      match cmdMagics.find? fun m => m.bytes == w with
      | some m => .got m rx
      | none => scanCommand w filled rx
    else scanCommand w filled rx

def readCommand (rx : List Rx) : ReadResult Magic := scanCommand [0, 0, 0, 0] 0 rx

def readU32 (rx : List Rx) : ReadResult UInt32 :=
  match readExact 4 rx with
  | .got [b₀, b₁, b₂, b₃] rest => .got (ofLe32 b₀ b₁ b₂ b₃) rest
  | .got _ rest => .timedOut rest
  | .timedOut rest => .timedOut rest
  | .waiting => .waiting

/-- How one turn of the command loop read its input. -/
inductive Frame
  /-- `read_command` timed out. -/
  | idle
  /-- SYNC, whatever became of its last four bytes. -/
  | sync
  /-- A BEGN header cut by a timeout, with the length if that had arrived. -/
  | begnCut (len : Option UInt32)
  | begn (len crc : UInt32)
  /-- A DATA header cut by a timeout. -/
  | dataCut
  /-- A DATA frame refused: bad bounds, payload cut by a timeout, or bad chunk CRC. -/
  | dataNak (off : UInt32)
  /-- A DATA frame that passed every check. -/
  | data (off len : UInt32) (chunk : List UInt8)
  | end'
  | go
  deriving DecidableEq, Repr

/-- The BEGN branch: `if (!read_u32(&app_len) || !read_u32(&app_crc)) continue;`. -/
def readBegn (rx : List Rx) : Option (Frame × List Rx) :=
  match readU32 rx with
  | .waiting => none
  | .timedOut rx => some (.begnCut none, rx)
  | .got len rx =>
    match readU32 rx with
    | .waiting => none
    | .timedOut rx => some (.begnCut (some len), rx)
    | .got crc rx => some (.begn len crc, rx)

/-- The bounds check of the DATA branch, in `uint32_t`. -/
def dataRefused (off len : UInt32) : Bool :=
  len == 0 || len > otaChunkSize || off + len > appMaxSize

/-- The DATA branch. -/
def readData (rx : List Rx) : Option (Frame × List Rx) :=
  match readU32 rx with
  | .waiting => none
  | .timedOut rx => some (.dataCut, rx)
  | .got off rx =>
    match readU32 rx with
    | .waiting => none
    | .timedOut rx => some (.dataCut, rx)
    | .got len rx =>
      match readU32 rx with
      | .waiting => none
      | .timedOut rx => some (.dataCut, rx)
      | .got ccrc rx =>
        if dataRefused off len then some (.dataNak off, rx)
        else match readExact len.toNat rx with
          | .waiting => none
          | .timedOut rx => some (.dataNak off, rx)
          | .got chunk rx =>
            if otaCrc32 chunk != ccrc then some (.dataNak off, rx)
            else some (.data off len chunk, rx)

/-- What one turn of the loop reads; `none` while the turn still waits for input. -/
def readFrame (rx : List Rx) : Option (Frame × List Rx) :=
  match readCommand rx with
  | .waiting => none
  | .timedOut rx => some (.idle, rx)
  | .got .rp2b rx =>
    match readExact 4 rx with
    | .waiting => none
    | .timedOut rx => some (.sync, rx)
    | .got _ rx => some (.sync, rx)
  | .got .begn rx => readBegn rx
  | .got .data rx => readData rx
  | .got .end' rx => some (.end', rx)
  | .got .go rx => some (.go, rx)

/-! ## Acting -/

/-- The locals of `recovery_run`, flash, and whether the device is still in the loop (`GO!!`
leaves it through a watchdog reset). -/
structure Recv where
  flash : Flash
  appLen : UInt32
  appCrc : UInt32
  up : Bool

/-- Where `recovery_run` enters its loop: `uint32_t app_len = 0, app_crc = 0;`. -/
def Recv.start (f : Flash) : Recv := ⟨f, 0, 0, true⟩

def eraseSlot (len : UInt32) : List FlashOp :=
  let nsec := (len + flashSector - 1) / flashSector
  (List.range nsec.toNat).map fun i => .erase (appOffset + i.toUInt32 * flashSector) flashSector

/-- `plen`, the length rounded up to whole pages. -/
def pageLen (len : UInt32) : UInt32 := (len + (flashPageSize - 1)) &&& ~~~(flashPageSize - 1)

def programChunk (off : UInt32) (buf : List UInt8) (len : UInt32) : FlashOp :=
  .program (appOffset + off) (buf ++ List.replicate ((pageLen len).toNat - len.toNat) 0xFF)

/-- `app_len == 0 || app_len > APP_MAX_SIZE`. -/
def begnRefused (len : UInt32) : Bool := len == 0 || len > appMaxSize

/-- The image check at `END!`: the CRC of the slot's first `app_len` bytes against `app_crc`. -/
def imageOk (s : Recv) : Bool := otaCrc32 (slotBytes s.flash s.appLen) == s.appCrc

/-- The record `END!` hands to `boot_state_write`. -/
def endRecord (s : Recv) : BootState :=
  { BootState.zero with appLen := s.appLen, appCrc32 := s.appCrc, appValid := 1 }

/-- The four-byte replies of `write_tok`. -/
inductive Reply
  | blok | oker | ersz | dack | dnak | done | ecrc | bye
  deriving DecidableEq, Repr

def Reply.bytes : Reply → List UInt8
  | .blok => [0x42, 0x4C, 0x4F, 0x4B]
  | .oker => [0x4F, 0x4B, 0x45, 0x52]
  | .ersz => [0x45, 0x52, 0x53, 0x5A]
  | .dack => [0x44, 0x41, 0x43, 0x4B]
  | .dnak => [0x44, 0x4E, 0x41, 0x4B]
  | .done => [0x44, 0x4F, 0x4E, 0x45]
  | .ecrc => [0x45, 0x43, 0x52, 0x43]
  | .bye => [0x42, 0x59, 0x45, 0x21]

/-- The flash operations of `erase_slot` and `program_chunk` in a turn that read `fr`. -/
def slotOps : Frame → List FlashOp
  | .begn len _ => if begnRefused len then [] else eraseSlot len
  | .data off len chunk => [programChunk off chunk len]
  | _ => []

/-- The record the turn passes to `boot_state_write`, if it does. -/
def savedRecord (s : Recv) : Frame → Option BootState
  | .end' => if imageOk s then some (endRecord s) else none
  | _ => none

/-- All the flash operations of the turn, in order. -/
def frameOps (s : Recv) (fr : Frame) : List FlashOp :=
  slotOps fr ++ (savedRecord s fr).elim [] (bootStateWriteOps s.flash)

/-- The turn's effect and its reply. -/
def execFrame (s : Recv) : Frame → Recv × List UInt8
  | .idle => (s, [])
  | .sync => (s, Reply.blok.bytes ++ le32 appMaxSize ++ le32 otaChunkSize)
  | .begnCut none => (s, [])
  | .begnCut (some len) => ({ s with appLen := len }, [])
  | .begn len crc =>
    let s := { s with appLen := len, appCrc := crc }
    if begnRefused len then (s, Reply.ersz.bytes)
    else ({ s with flash := applyOps (eraseSlot len) s.flash }, Reply.oker.bytes)
  | .dataCut => (s, [])
  | .dataNak off => (s, Reply.dnak.bytes ++ le32 off)
  | .data off len chunk =>
    ({ s with flash := (programChunk off chunk len).apply s.flash }, Reply.dack.bytes ++ le32 off)
  | .end' =>
    if imageOk s then
      ({ s with flash := bootStateWrite s.flash (endRecord s) }, Reply.done.bytes)
    else (s, Reply.ecrc.bytes)
  | .go => ({ s with up := false }, Reply.bye.bytes)

/-! ## The loop -/

/-- A configuration of the receiver: its state at the top of the loop and the input ahead. -/
abbrev RecvConf := Recv × List Rx

/-- One turn of the command loop. -/
def RecvStep (c : RecvConf) (fr : Frame) (c' : RecvConf) : Prop :=
  c.1.up = true ∧ readFrame c.2 = some (fr, c'.2) ∧ c'.1 = (execFrame c.1 fr).1

/-- What the receiver has done with an input: where it stands, the frames it acted on, the
replies it sent, and the input of the turn it is still waiting in. -/
structure Served where
  recv : Recv
  frames : List Frame
  replies : List UInt8
  rest : List Rx

/-- Run the loop as far as the input goes. Every turn uses up some input, so the input's length
is fuel enough. -/
def serveN : ℕ → Recv → List Rx → Served
  | 0, s, rx => ⟨s, [], [], rx⟩
  | n + 1, s, rx =>
    if s.up then
      match readFrame rx with
      | none => ⟨s, [], [], rx⟩
      | some (fr, rest) =>
        let after := execFrame s fr
        let more := serveN n after.1 rest
        { more with frames := fr :: more.frames, replies := after.2 ++ more.replies }
    else ⟨s, [], [], []⟩

def serve (s : Recv) (rx : List Rx) : Served := serveN rx.length s rx

end EthPanel
