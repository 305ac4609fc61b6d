import Mathlib.Logic.Function.Iterate
import Inspector.Nvs.Layout

/-! # Buffered settings storage

Settings are written to a copy in RAM and written back to physical storage later. The regions to
write back are marked in `settings_dirty`. A physical write that fails leaves any contents behind
in the range that it was to write.
-/

namespace Inspector

namespace Nvs

open Memory

/-- `settings_dirty_t`. -/
structure SettingsDirty where
  isDirty : Bool := false
  version : Bool := false
  globalSettings : Bool := false
  buildInfo : Bool := false
  driverSettings : Bool := false
  startupLines : BitVec 8 := 0
  coordData : BitVec 16 := 0
  toolData : BitVec 32 := 0
  deriving DecidableEq, Repr

namespace SettingsDirty

/-- The flag or the bit of a region is set. -/
def marked (d : SettingsDirty) : Region → Bool
  | .version => d.version
  | .global => d.globalSettings
  | .build => d.buildInfo
  | .startup idx => d.startupLines.getLsbD idx
  | .coord idx => d.coordData.getLsbD idx
  | .tool idx => d.toolData.getLsbD idx
  | .driver => d.driverSettings

def mark (d : SettingsDirty) : Region → SettingsDirty
  | .version => { d with version := true }
  | .global => { d with globalSettings := true }
  | .build => { d with buildInfo := true }
  | .startup idx => { d with startupLines := d.startupLines ||| 1#8 <<< idx }
  | .coord idx => { d with coordData := d.coordData ||| 1#16 <<< idx }
  | .tool idx => { d with toolData := d.toolData ||| 1#32 <<< idx }
  | .driver => { d with driverSettings := true }

def clear (d : SettingsDirty) : Region → SettingsDirty
  | .version => { d with version := false }
  | .global => { d with globalSettings := false }
  | .build => { d with buildInfo := false }
  | .startup idx => { d with startupLines := d.startupLines &&& ~~~(1#8 <<< idx) }
  | .coord idx => { d with coordData := d.coordData &&& ~~~(1#16 <<< idx) }
  | .tool idx => { d with toolData := d.toolData &&& ~~~(1#32 <<< idx) }
  | .driver => { d with driverSettings := false }

end SettingsDirty

/-- How a physical write ends, with what a failed one leaves behind. -/
inductive Transfer
  | ok
  | failed (left : ℕ → UInt8)

namespace Transfer

/-- What the write leaves in its range. -/
def contents (src : ℕ → UInt8) : Transfer → ℕ → UInt8
  | .ok => src
  | .failed left => left

def isOk : Transfer → Bool
  | .ok => true
  | .failed _ => false

end Transfer

/-- How the physical writes of one call end: those of the regions, and the tries to write flash. -/
structure Outcomes where
  region : Region → Transfer
  flash : ℕ → Transfer

/-- One round of `modbus_crc16x` for a bit. -/
def crcBit (crc : UInt16) : UInt16 :=
  if crc &&& 0x0001 ≠ 0 then (crc >>> 1) ^^^ 0xA001 else crc >>> 1

/-- `modbus_crc16x`. -/
def modbusCrc16x (buf : List UInt8) : UInt16 :=
  buf.foldl (fun crc byte => crcBit^[8] (crc ^^^ byte.toUInt16)) 0xFFFF

/-- The bytes that a write puts into RAM, the checksum last. -/
def image (source : List UInt8) (withChecksum : Bool) : List UInt8 :=
  if withChecksum then
    let checksum := modbusCrc16x source
    source ++ [checksum.toUInt8, (checksum >>> 8).toUInt8]
  else source

/-- The RAM copy, physical storage and the static variables of `nvs_buffer.c`. -/
structure NvsBuffer where
  ram : ℕ → UInt8
  physical : ℕ → UInt8
  dirty : Bool := false
  settingsDirty : SettingsDirty := {}

namespace NvsBuffer

/-- `ram_put_byte`. -/
def ramPutByte (offset : ℕ) (newValue : UInt8) (s : NvsBuffer) : NvsBuffer :=
  { s with
    settingsDirty := { s.settingsDirty with version := s.settingsDirty.version || offset == 0 }
    dirty := s.dirty || s.ram offset != newValue || offset == 0
    ram := Function.update s.ram offset newValue }

def ramPutBytes : ℕ → List UInt8 → NvsBuffer → NvsBuffer
  | _, [], s => s
  | dest, byte :: bytes, s => ramPutBytes (dest + 1) bytes (s.ramPutByte dest byte)

/-- A write of `physical_nvs` to a range. -/
def physicalWrite (r : Range) (src : ℕ → UInt8) (t : Transfer) (s : NvsBuffer) : NvsBuffer :=
  { s with physical := r.copy (t.contents src) s.physical }

/-- The marks that `memcpy_to_ram` sets when the bytes have been put into RAM. -/
def markWritten (L : Layout) (destination : ℕ) (sourceEndIsDriverArea : Bool) (s : NvsBuffer) :
    NvsBuffer :=
  let s := if s.settingsDirty.version || sourceEndIsDriverArea then { s with dirty := true } else s
  if s.dirty && L.physicalNvs ≠ .none then
    let d := { s.settingsDirty with isDirty := true }
    { s with settingsDirty := ((L.regionOf destination).map d.mark).getD d }
  else s

/-- `memcpy_to_ram`. The pointer `source` is compared when it has passed the data. -/
def memcpyToRam (L : Layout) (destination : ℕ) (source : List UInt8) (withChecksum : Bool)
    (sourceEndIsDriverArea : Bool) (t : Transfer) (s : NvsBuffer) : NvsBuffer :=
  let bytes := image source withChecksum
  if L.Beyond destination then
    s.physicalWrite ⟨destination, bytes.length⟩ (Memory.write destination bytes s.physical) t
  else
    (ramPutBytes destination bytes { s with dirty := false }).markWritten L destination
      sourceEndIsDriverArea

/-- Write a region back and clear its mark if that succeeds. -/
def syncRegion (L : Layout) (t : Transfer) (r : Region) (s : NvsBuffer) : NvsBuffer :=
  let s := s.physicalWrite (L.range r) s.ram t
  if t.isOk then { s with settingsDirty := s.settingsDirty.clear r } else s

/-- What `nvs_buffer_sync_physical` does for a region. The bit of a startup line is cleared before
the line is written, and an empty driver area is not written. -/
def syncMarked (L : Layout) (t : Region → Transfer) (s : NvsBuffer) (r : Region) : NvsBuffer :=
  if s.settingsDirty.marked r then
    match r with
    | .startup _ =>
      { s with settingsDirty := s.settingsDirty.clear r }.syncRegion L (t r) r
    | .driver =>
      if 0 < L.driverSize then s.syncRegion L (t r) r
      else { s with settingsDirty := s.settingsDirty.clear r }
    | _ => s.syncRegion L (t r) r
  else s

/-- The value that `nvs_buffer_sync_physical` computes for `is_dirty`. -/
def stillDirty (L : Layout) (d : SettingsDirty) : Bool :=
  d.coordData ≠ 0 || d.globalSettings || d.driverSettings || d.startupLines ≠ 0 ||
    (L.nTools ≠ 0 && d.toolData ≠ 0) || d.buildInfo

/-- Write flash until a try succeeds, for a number of retries. -/
def flashTries (L : Layout) (t : ℕ → Transfer) : ℕ → ℕ → NvsBuffer → NvsBuffer
  | 0, _, s => s
  | retries + 1, k, s =>
    let s := s.physicalWrite ⟨0, L.nvsSize⟩ s.ram (t k)
    if (t k).isOk then s else flashTries L t retries (k + 1) s

/-- `nvs_buffer_sync_physical`. -/
def syncPhysical (L : Layout) (t : Outcomes) (s : NvsBuffer) : NvsBuffer :=
  if s.settingsDirty.isDirty then
    match L.physicalNvs with
    | .nvs =>
      let s := L.syncOrder.foldl (syncMarked L t.region) s
      { s with
        settingsDirty := { s.settingsDirty with isDirty := stillDirty L s.settingsDirty } }
    | .flash => { flashTries L t.flash 4 0 s with settingsDirty := {} }
    | .none => s
  else s

end NvsBuffer

/-- Operations on the buffer. -/
inductive NvsOp
  | putByte (offset : ℕ) (newValue : UInt8)
  | memcpy (destination : ℕ) (source : List UInt8) (withChecksum sourceEndIsDriverArea : Bool)
      (t : Transfer)
  | sync (t : Outcomes)

namespace NvsBuffer

def exec (L : Layout) (s : NvsBuffer) : NvsOp → NvsBuffer
  | .putByte offset newValue => s.ramPutByte offset newValue
  | .memcpy destination source withChecksum atArea t =>
    s.memcpyToRam L destination source withChecksum atArea t
  | .sync t => s.syncPhysical L t

end NvsBuffer

end Nvs

end Inspector
