import Mathlib.Algebra.Group.Int.Defs
import Mathlib.Algebra.Group.Nat.Defs
import Mathlib.Tactic.Common

/-!
# `ota/layout.h`

The partition map, the limits of the update protocol and the boot-state record: what the
bootloader and the application have to agree on. Offsets are from the start of flash and
32 bits wide, as in the header, so that sums of them wrap where the C does; what flash an
offset names is its `toNat`.
-/

namespace EthPanel

def flashSector : UInt32 := 4096

/-- `FLASH_PAGE_SIZE`, from the Pico SDK. -/
def flashPageSize : UInt32 := 256

def appOffset : UInt32 := 0x040000

def bootstateAOffset : UInt32 := 0x3FE000

def bootstateBOffset : UInt32 := 0x3FF000

def appMaxSize : UInt32 := bootstateAOffset - appOffset

def xipBaseAddr : UInt32 := 0x10000000

def appXipAddr : UInt32 := xipBaseAddr + appOffset

/-- Where the application's vector table starts, after its unused boot2, as a flash offset. -/
def appVtableOffset : UInt32 := appOffset + 0x100

def otaEnterUpdateMagic : UInt32 := 0x0B00B1E5

def otaMaxBootAttempts : UInt8 := 3

def otaChunkSize : UInt32 := 1024

def bootStateMagic : UInt32 := 0x31545342

@[simp] theorem flashSector_toNat : flashSector.toNat = 4096 := rfl
@[simp] theorem appOffset_toNat : appOffset.toNat = 0x40000 := rfl
@[simp] theorem bootstateAOffset_toNat : bootstateAOffset.toNat = 0x3FE000 := rfl
@[simp] theorem bootstateBOffset_toNat : bootstateBOffset.toNat = 0x3FF000 := rfl
@[simp] theorem appMaxSize_toNat : appMaxSize.toNat = 0x3BE000 := by decide
@[simp] theorem otaChunkSize_toNat : otaChunkSize.toNat = 1024 := rfl

/-! ## Little-endian words -/

/-- The four bytes `write_u32` sends, and those a `uint32_t` has in memory. -/
def le32 (v : UInt32) : List UInt8 :=
  [v.toUInt8, (v >>> 8).toUInt8, (v >>> 16).toUInt8, (v >>> 24).toUInt8]

/-- The word `read_u32` makes of four bytes. -/
def ofLe32 (b₀ b₁ b₂ b₃ : UInt8) : UInt32 :=
  b₀.toUInt32 ||| (b₁.toUInt32 <<< 8) ||| (b₂.toUInt32 <<< 16) ||| (b₃.toUInt32 <<< 24)

theorem ofLe32_le32 (v : UInt32) :
    ofLe32 v.toUInt8 (v >>> 8).toUInt8 (v >>> 16).toUInt8 (v >>> 24).toUInt8 = v := by
  refine UInt32.toBitVec_inj.mp (BitVec.eq_of_getLsbD_eq fun i hi => ?_)
  simp [ofLe32, -UInt32.toUInt32_toUInt8]
  grind

/-! ## The boot-state record -/

/-- `boot_state_t`. -/
structure BootState where
  magic : UInt32
  seq : UInt32
  appLen : UInt32
  appCrc32 : UInt32
  appValid : UInt8
  appConfirmed : UInt8
  bootAttempts : UInt8
  pad : UInt8
  crc32 : UInt32
  deriving DecidableEq, Repr

/-- `memset(&st, 0, sizeof st)`. -/
def BootState.zero : BootState := ⟨0, 0, 0, 0, 0, 0, 0, 0, 0⟩

/-- The record's bytes before `crc32`: `offsetof(boot_state_t, crc32)` is 20. -/
def BootState.body (st : BootState) : List UInt8 :=
  le32 st.magic ++ le32 st.seq ++ le32 st.appLen ++ le32 st.appCrc32 ++
    [st.appValid, st.appConfirmed, st.bootAttempts, st.pad]

/-- The record in memory, 24 bytes. -/
def BootState.bytes (st : BootState) : List UInt8 := st.body ++ le32 st.crc32

@[simp] theorem BootState.length_body (st : BootState) : st.body.length = 20 := rfl

@[simp] theorem BootState.length_bytes (st : BootState) : st.bytes.length = 24 := rfl

end EthPanel
