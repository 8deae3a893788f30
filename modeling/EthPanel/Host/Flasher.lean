import EthPanel.Bootloader.RecoveryLoop

/-!
# `tools/ota_flash.py`

The host's side of an update: `try_sync` and `push_image` over one connection.

A `Link` is the connection with the receiver at its far end. What the host sends goes through
a `Channel`, which decides what of it arrives and where a read of the receiver times out; the
receiver then runs as far as its input takes it, and its replies wait in `inbox`, whole and in
order, for the host to read. A read that runs out of inbox is the host's timeout. Whether the
receiver acts before or after the host reads makes no difference: what it does depends on its
input alone.

The printed progress, and `flash()` around all this, which retries on a new connection, have no
part here.
-/

namespace EthPanel

/-! ## `zlib.crc32` -/

/-- An entry of the CRC table of RFC 1952. -/
def zlibTable (n : UInt8) : UInt32 :=
  (fun c : UInt32 => if c &&& 1 = 0 then c >>> 1 else (0xEDB88320 : UInt32) ^^^ (c >>> 1))^[8]
    n.toUInt32

/-- `zlib.crc32(data) & 0xFFFFFFFF`. -/
def zlibCrc32 (data : List UInt8) : UInt32 :=
  data.foldl (fun (c : UInt32) b => zlibTable (c.toUInt8 ^^^ b) ^^^ (c >>> 8)) 0xFFFFFFFF ^^^
    0xFFFFFFFF

theorem crcBit_eq_ite (c : UInt32) :
    crcBit c = if c &&& 1 = 0 then c >>> 1 else (0xEDB88320 : UInt32) ^^^ (c >>> 1) := by
  have hmask : (0xEDB88320 &&& (-(1 : UInt32).toInt32).toUInt32 : UInt32) = 0xEDB88320 := by decide
  have hzero : (0xEDB88320 &&& (-(0 : UInt32).toInt32).toUInt32 : UInt32) = 0 := by decide
  unfold crcBit
  rw [and_one_cases]
  cases c.toBitVec.getLsbD 0 with
  | false => simp only [Bool.false_eq_true, if_false, if_true, hzero, UInt32.xor_zero]
  | true =>
    rw [if_pos rfl, hmask, if_neg (by decide), UInt32.xor_comm]

theorem zlibTable_eq (n : UInt8) : zlibTable n = crcBit^[8] n.toUInt32 := by
  unfold zlibTable
  rw [funext crcBit_eq_ite]

/-- **Host and device compute the same CRC.** -/
theorem zlibCrc32_eq (data : List UInt8) : zlibCrc32 data = otaCrc32 data := by
  have hbyte : ∀ (c : UInt32) (b : UInt8),
      zlibTable (c.toUInt8 ^^^ b) ^^^ (c >>> 8) = crcByte c b := by
    intro c b
    have hmask : (0xFF : UInt32).toBitVec = 0xFF#32 := rfl
    have hlow : (c.toUInt8 ^^^ b).toUInt32 = (c ^^^ b.toUInt32) &&& 0xFF := by
      refine UInt32.toBitVec_inj.mp (BitVec.eq_of_getLsbD_eq fun i hi => ?_)
      have hbit : ∀ i < 32, (0xFF#32).getLsbD i = decide (i < 8) := by decide
      rw [UInt32.toBitVec_and, hmask, BitVec.getLsbD_and, hbit i hi]
      simp [-UInt32.toUInt32_toUInt8]
      grind
    rw [zlibTable_eq, hlow, crcByte_eq_table]
  unfold zlibCrc32 otaCrc32
  rw [funext fun c => funext (hbyte c)]

/-! ## The connection -/

/-- The places in a session at which the host sends something. -/
inductive Site
  | sync | begn
  | data (off attempt : ℕ)
  | end' | go
  deriving DecidableEq, Repr

/-- What arrives of the bytes sent at a site. -/
abbrev Channel := Site → List UInt8 → List Rx

/-- What lay ahead of the receiver once the bytes of a site had arrived. -/
structure Heard where
  site : Site
  rx : List Rx

structure Link where
  /-- The receiver, and the input of the turn it is in the middle of. -/
  dev : Recv
  pending : List Rx
  /-- Replies the host has not read. -/
  inbox : List UInt8
  /-- Not part of the link: what has arrived at each site so far. -/
  log : List Heard

/-- What `read_token` and `push_image` raise. -/
inductive HostError
  | timeout
  | imageLargerThanSlot
  /-- `range()` with a step of zero. -/
  | zeroStep
  | chunkFailed (off : ℕ)
  | verificationFailed (tok : List UInt8)
  deriving DecidableEq, Repr

namespace Link

/-- `s.sendall(bs)`. -/
def send (chan : Channel) (site : Site) (bs : List UInt8) (k : Link) : Link :=
  let served := serve k.dev (k.pending ++ chan site bs)
  { dev := served.recv
    pending := served.rest
    inbox := k.inbox ++ served.replies
    log := k.log ++ [⟨site, k.pending ++ chan site bs⟩] }

/-- `drain(s)`. -/
def drain (k : Link) : Link := { k with inbox := [] }

/-- The loop of `read_token`, over what is to be read: `window` is its window. -/
def scanToken (expected : List (List UInt8)) : List UInt8 → List UInt8 →
    Option (List UInt8 × List UInt8)
  | _, [] => none
  | window, b :: bs =>
    let window := (window ++ [b]).drop ((window ++ [b]).length - 4)
    if window.length = 4 ∧ window ∈ expected then some (window, bs)
    else scanToken expected window bs

/-- `read_token(s, expected)`. -/
def readToken (expected : List (List UInt8)) (k : Link) :
    Except HostError (List UInt8 × Link) :=
  match scanToken expected [] k.inbox with
  | none => .error .timeout
  | some (tok, rest) => .ok (tok, { k with inbox := rest })

/-- `recv_exact(s, n)`. -/
def recvExact (n : ℕ) (k : Link) : Except HostError (List UInt8 × Link) :=
  if n ≤ k.inbox.length then .ok (k.inbox.take n, { k with inbox := k.inbox.drop n })
  else .error .timeout

end Link

/-- `struct.unpack("<I", …)`. -/
def unpack32 : List UInt8 → UInt32
  | [b₀, b₁, b₂, b₃] => ofLe32 b₀ b₁ b₂ b₃
  | _ => 0

/-! ## The session -/

/-- `SYNC`. -/
def syncBytes : List UInt8 := Magic.rp2b.bytes ++ [0x4F, 0x4F, 0x54, 0x31]

/-- `try_sync(s)`: the slot size and chunk limit of the receiver that answers. -/
def trySync (chan : Channel) (k : Link) : Option (UInt32 × UInt32) × Link :=
  let k := (k.drain).send chan .sync syncBytes
  match k.readToken [Reply.blok.bytes] with
  | .error _ => (none, k)
  | .ok (_, k) =>
    match k.recvExact 8 with
    | .error _ => (none, k)
    | .ok (info, k) => (some (unpack32 (info.take 4), unpack32 (info.drop 4)), k)

def begnPacket (len crc : UInt32) : List UInt8 := Magic.begn.bytes ++ le32 len ++ le32 crc

def dataHeader (off len crc : UInt32) : List UInt8 :=
  Magic.data.bytes ++ le32 off ++ le32 len ++ le32 crc

/-- `pkt`, for the payload at `off`. -/
def dataPacket (off : ℕ) (payload : List UInt8) : List UInt8 :=
  dataHeader off.toUInt32 payload.length.toUInt32 (zlibCrc32 payload) ++ payload

/-- The retry loop of one chunk: how many attempts are left, and which one this is. -/
def pushChunk (chan : Channel) (off : ℕ) (payload : List UInt8) :
    ℕ → ℕ → Link → Except HostError Link
  | 0, _, _ => .error (.chunkFailed off)
  | left + 1, attempt, k => do
    let k := k.send chan (.data off attempt) (dataPacket off payload)
    let (tok, k) ← k.readToken [Reply.dack.bytes, Reply.dnak.bytes]
    let (ackOff, k) ← k.recvExact 4
    if tok = Reply.dack.bytes ∧ (unpack32 ackOff).toNat = off then return k
    pushChunk chan off payload left (attempt + 1) k

/-- `range(0, stop, step)`, for a step that is not zero. -/
def pyRange (stop step : ℕ) : List ℕ := (List.range ((stop + step - 1) / step)).map (· * step)

/-- `CHUNK`. -/
def hostChunk : ℕ := 1024

/-- `data[off:off + chunk]`. -/
def chunkAt (data : List UInt8) (chunk off : ℕ) : List UInt8 := (data.drop off).take chunk

/-- The DATA phase. -/
def pushChunks (chan : Channel) (data : List UInt8) (chunk retries : ℕ) (k : Link) :
    Except HostError Link :=
  (pyRange data.length chunk).foldlM
    (fun k off => pushChunk chan off (chunkAt data chunk off) retries 0 k) k

/-- `push_image(s, info, data, crc, chunk_retries)`. -/
def pushImage (chan : Channel) (info : UInt32 × UInt32) (data : List UInt8) (crc : UInt32)
    (retries : ℕ) (k : Link) : Except HostError Link := do
  if data.length > info.1.toNat then throw .imageLargerThanSlot
  let k := (k.drain).send chan .begn (begnPacket data.length.toUInt32 crc)
  let (_, k) ← k.readToken [Reply.oker.bytes]
  let chunk := min hostChunk info.2.toNat
  if chunk = 0 then throw .zeroStep
  let k ← pushChunks chan data chunk retries k
  let k := k.send chan .end' Magic.end'.bytes
  let (tok, k) ← k.readToken [Reply.done.bytes, Reply.ecrc.bytes]
  if tok ≠ Reply.done.bytes then throw (.verificationFailed tok)
  let k := k.send chan .go Magic.go.bytes
  match k.readToken [Reply.bye.bytes] with
  | .ok (_, k) => return k
  | .error _ => return k

end EthPanel
