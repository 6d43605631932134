import Vnt.Os.Boot

/-!
# `Os.Acpi` — ACPI discovery

`firmware/acpi.vnt`: the RSDP among the tags of the boot information, the root table it points to, the MADT among the
entries of the root table, and the entries of the MADT, which are published in slots of the state one by one. Every sum
is an `addWord` and every read a read of memory, so what the code can stop at is in the model. A loop whose cursor goes
up by what it reads runs with fuel, and would be `endless` without.
-/

namespace Vnt.Os

open Lib

variable (mem : Memory) (boot : Handoff)

def acpiRead8 (address offset : Int) : Kernel Int := memReadU8 mem address offset

def acpiRead32 (address offset : Int) : Kernel Int := memReadU32 mem address offset

def acpiRead64 (address offset : Int) : Kernel Int := memReadU64 mem address offset

/-- The loop of `acpi_checksum` over `count` bytes. -/
def checksumLoop (address : Int) : Nat → Int → Int → Kernel Int
  | 0, _, sum => pure sum
  | count + 1, i, sum => do
      let byte ← acpiRead8 mem address i
      let total ← addWord sum byte
      let next ← addWord i 1
      checksumLoop address count next (total % 256)

def acpiChecksum (address length : Int) : Kernel Int :=
  if address ≤ 0 ∨ length ≤ 0 then pure 0
  else do
    let stop ← addWord address length
    if stop > 1073741824 then pure 0
    else do
      let sum ← checksumLoop mem address length.toNat 0 0
      pure (if sum = 0 then 1 else 0)

/-- The comparisons with the bytes of a signature, which end with the first that fails. -/
def bytesAre (address : Int) : Int → List Int → Kernel Bool
  | _, [] => pure true
  | offset, expected :: rest => do
      let byte ← acpiRead8 mem address offset
      if byte ≠ expected then pure false else bytesAre address (offset + 1) rest

/-- `RSD PTR `. -/
def rsdpSignature : List Int := [82, 83, 68, 32, 80, 84, 82, 32]

def acpiIsRsdp (address : Int) : Kernel Int :=
  if address ≤ 0 then pure 0
  else do
    let stop ← addWord address 20
    if stop > 1073741824 then pure 0
    else do
      let signed ← bytesAre mem address 0 rsdpSignature
      if signed = false then pure 0
      else do
        let checksum ← acpiChecksum mem address 20
        if checksum ≠ 1 then pure 0
        else do
          let revision ← acpiRead8 mem address 15
          if revision ≥ 2 then do
            let length ← acpiRead32 mem address 20
            if length < 36 ∨ length > 4096 then pure 0
            else do
              let stop ← addWord address length
              if stop > 1073741824 then pure 0
              else do
                let checksum ← acpiChecksum mem address length
                pure (if checksum ≠ 1 then 0 else 1)
          else pure 1

/-- What a tag of type 14 or 15 gives: its RSDP, or 0. -/
def rsdpOfTag (info cursor tagType tagSize : Int) : Kernel Int :=
  if tagType = 14 ∨ tagType = 15 then do
    let start ← addWord info cursor
    let candidate ← addWord start 8
    if tagType = 14 then
      if tagSize ≥ 28 then do
        let revision ← acpiRead8 mem candidate 15
        if revision < 2 then do
          let valid ← acpiIsRsdp mem candidate
          pure (if valid = 1 then candidate else 0)
        else pure 0
      else pure 0
    else if tagSize ≥ 44 then do
      let valid ← acpiIsRsdp mem candidate
      pure (if valid = 1 then candidate else 0)
    else pure 0
  else pure 0

/-- The loop of `acpi_find_rsdp` over the tags. -/
def findRsdpLoop (info total : Int) : Nat → Int → Kernel Int
  | 0, _ => Prog.fault .endless
  | fuel + 1, cursor => do
      let header ← addWord cursor 8
      if header ≤ total then do
        let (tagType, tagSize) ← readTag mem info cursor
        if tagSize < 8 then pure 0
        else do
          let stop ← addWord cursor tagSize
          if stop > total then pure 0
          else if tagType = 0 then pure 0
          else do
            let candidate ← rsdpOfTag mem info cursor tagType tagSize
            if candidate ≠ 0 then pure candidate
            else do
              let next ← nextTag cursor tagSize
              findRsdpLoop info total fuel next
      else pure 0

def acpiFindRsdp : Kernel Int := do
  let info := physInfoAddr boot
  let total ← physInfoSize mem boot
  if info = 0 ∨ total < 16 then pure 0 else findRsdpLoop mem info total (total.toNat + 1) 8

def acpiTableLength (address : Int) : Kernel Int :=
  if address < 4096 then pure 0
  else do
    let header ← addWord address 36
    if header > 1073741824 then pure 0
    else do
      let length ← acpiRead32 mem address 4
      if length < 36 ∨ length > 1048576 then pure 0
      else do
        let stop ← addWord address length
        if stop > 1073741824 then pure 0 else pure length

def acpiSignatureIs (address a b c d : Int) : Kernel Int := do
  let signed ← bytesAre mem address 0 [a, b, c, d]
  pure (if signed = true then 1 else 0)

/-- Whether an entry of the root table is the MADT. -/
def isMadtEntry (candidate : Int) : Kernel Bool :=
  if candidate ≥ 4096 then do
    let header ← addWord candidate 36
    if header ≤ 1073741824 then do
      let signed ← acpiSignatureIs mem candidate 65 80 73 67
      if signed = 1 then do
        let length ← acpiTableLength mem candidate
        if length ≥ 44 then do
          let checksum ← acpiChecksum mem candidate length
          pure (checksum = 1)
        else pure false
      else pure false
    else pure false
  else pure false

/-- An entry of a root table: 64 bits in an XSDT, 32 in an RSDT. -/
def readRootEntry (root entrySize index : Int) : Kernel Int := do
  let offset ← mulWord index entrySize
  let entryAt ← addWord 36 offset
  if entrySize = 8 then acpiRead64 mem root entryAt else acpiRead32 mem root entryAt

/-- The loop of `acpi_find_madt_in_root` over `count` entries of `entrySize` bytes. -/
def findMadtLoop (root entrySize : Int) : Nat → Int → Kernel Int
  | 0, _ => pure 0
  | count + 1, index => do
      let candidate ← readRootEntry mem root entrySize index
      let found ← isMadtEntry mem candidate
      if found = true then pure candidate
      else do
        let next ← addWord index 1
        findMadtLoop root entrySize count next

/-- The bytes of an entry. -/
def entrySize (xsdt : Int) : Int := if xsdt = 1 then 8 else 4

def acpiFindMadtInRoot (root xsdt : Int) : Kernel Int := do
  let rootLength ← acpiTableLength mem root
  if rootLength < 36 then pure 0
  else do
    let checksum ← acpiChecksum mem root rootLength
    if checksum ≠ 1 then pure 0
    else do
      let size ← subWord rootLength 36
      if size % entrySize xsdt ≠ 0 then pure 0
      else if size / entrySize xsdt > 4096 then pure 0
      else do
        stateSet 39 (size / entrySize xsdt)
        findMadtLoop mem root (entrySize xsdt) (size / entrySize xsdt).toNat 0

/-! ## The MADT -/

/-- The id of a processor, as long as there is a slot for it. -/
def storeCpuId (count : Int) (id : Kernel Int) : Kernel Unit :=
  if count < 16 then do
    let value ← id
    let slot ← addWord 40 count
    stateSet slot value
  else pure ()

/-- A processor, unless its flags say that it is neither enabled nor can be. -/
def publishCpu (flags : Int) (id : Kernel Int) : Kernel Unit :=
  if flags % 2 = 1 ∨ flags / 2 % 2 = 1 then do
    let count ← stateGet 36
    storeCpuId count id
    let next ← addWord count 1
    stateSet 36 next
  else pure ()

/-- The first controller. -/
def storeIoapic (madt cursor count : Int) : Kernel Unit :=
  if count = 0 then do
    let addressAt ← addWord cursor 4
    let address ← acpiRead32 mem madt addressAt
    stateSet 34 address
    let baseAt ← addWord cursor 8
    let base ← acpiRead32 mem madt baseAt
    stateSet 35 base
  else pure ()

def publishIoapic (madt cursor : Int) : Kernel Unit := do
  let count ← stateGet 37
  storeIoapic mem madt cursor count
  let next ← addWord count 1
  stateSet 37 next

def publishOverride (madt cursor : Int) : Kernel Unit := do
  let count ← stateGet 38
  if count < 16 then do
    let triple ← mulWord count 3
    let sourceAt ← addWord cursor 3
    let source ← acpiRead8 mem madt sourceAt
    let sourceSlot ← addWord 64 triple
    stateSet sourceSlot source
    let gsiAt ← addWord cursor 4
    let gsi ← acpiRead32 mem madt gsiAt
    let gsiSlot ← addWord 65 triple
    stateSet gsiSlot gsi
    let lowAt ← addWord cursor 8
    let low ← acpiRead8 mem madt lowAt
    let highAt ← addWord cursor 9
    let high ← acpiRead8 mem madt highAt
    let highByte ← mulWord high 256
    let flags ← addWord low highByte
    let flagsSlot ← addWord 66 triple
    stateSet flagsSlot flags
    let next ← addWord count 1
    stateSet 38 next
  else pure ()

def publishLapicAddress (madt cursor : Int) : Kernel Unit := do
  let addressAt ← addWord cursor 4
  let address ← acpiRead64 mem madt addressAt
  if address = 0xfee00000 then stateSet 33 0xfee00000 else stateSet 33 0

/-- The least length of an entry of a type. -/
def leastLength (entryType : Int) : Int :=
  if entryType = 0 then 8
  else if entryType = 1 then 12
  else if entryType = 2 then 10
  else if entryType = 5 then 12
  else if entryType = 9 then 16
  else 2

/-- What an entry that is long enough publishes. -/
def publishEntry (madt cursor entryType : Int) : Kernel Unit :=
  if entryType = 0 then do
    let flagsAt ← addWord cursor 4
    let flags ← acpiRead32 mem madt flagsAt
    publishCpu flags do
      let idAt ← addWord cursor 3
      acpiRead8 mem madt idAt
  else if entryType = 1 then publishIoapic mem madt cursor
  else if entryType = 2 then publishOverride mem madt cursor
  else if entryType = 5 then publishLapicAddress mem madt cursor
  else if entryType = 9 then do
    let flagsAt ← addWord cursor 8
    let flags ← acpiRead32 mem madt flagsAt
    publishCpu flags do
      let idAt ← addWord cursor 4
      acpiRead32 mem madt idAt
  else pure ()

/-- The loop of `acpi_discover` over the entries. -/
def madtLoop (madt length : Int) : Nat → Int → Kernel Int
  | 0, _ => Prog.fault .endless
  | fuel + 1, cursor => do
      let header ← addWord cursor 2
      if header ≤ length then do
        let entryType ← acpiRead8 mem madt cursor
        let lengthAt ← addWord cursor 1
        let entryLength ← acpiRead8 mem madt lengthAt
        if entryLength < 2 then pure 0
        else do
          let stop ← addWord cursor entryLength
          if stop > length then pure 0
          else if entryLength < leastLength entryType then pure 0
          else do
            publishEntry mem madt cursor entryType
            let next ← addWord cursor entryLength
            madtLoop madt length fuel next
      else pure 1

/-! ## Discovery -/

/-- The loop that clears the slots of processors and overrides, from `i` on; its sums stay below 128. -/
def clearLoop : Nat → Int → Kernel Unit
  | 0, _ => pure ()
  | count + 1, i => do
      stateSet (40 + i) 0
      stateSet (64 + i * 3) 0
      stateSet (65 + i * 3) 0
      stateSet (66 + i * 3) 0
      clearLoop count (i + 1)

/-- The beginning of `acpi_discover`. -/
def clearInventory : Kernel Unit := do
  stateSet 30 0
  stateSet 31 0
  stateSet 32 0
  stateSet 33 0
  stateSet 34 0
  stateSet 35 0
  stateSet 36 0
  stateSet 37 0
  stateSet 38 0
  stateSet 39 0
  clearLoop 16 0

/-- The address of the XSDT, which an RSDP has from revision 2 on. -/
def readXsdtAddress (rsdp revision : Int) : Kernel Int := if revision ≥ 2 then acpiRead64 mem rsdp 24 else pure 0

/-- The root table that an RSDP points to, and whether it is an XSDT. -/
def rootOfRsdp (rsdp : Int) : Kernel (Int × Int) := do
  let revision ← acpiRead8 mem rsdp 15
  let root ← readXsdtAddress mem rsdp revision
  if root = 0 then do
    let root ← acpiRead32 mem rsdp 16
    pure (root, 0)
  else pure (root, 1)

/-- `XSDT` or `RSDT`. -/
def rootSigned (root xsdt : Int) : Kernel Int :=
  if xsdt = 1 then acpiSignatureIs mem root 88 83 68 84 else acpiSignatureIs mem root 82 83 68 84

/-- `acpi_discover` up to the MADT, which is 0 when there is none. -/
def locateMadt : Kernel Int := do
  let rsdp ← acpiFindRsdp mem boot
  if rsdp = 0 then pure 0
  else do
    stateSet 30 rsdp
    let revision ← acpiRead8 mem rsdp 15
    stateSet 57 revision
    let (root, xsdt) ← rootOfRsdp mem rsdp
    if root < 4096 then pure 0
    else do
      let header ← addWord root 36
      if header > 1073741824 then pure 0
      else do
        let signed ← rootSigned mem root xsdt
        if signed ≠ 1 then pure 0
        else do
          stateSet 31 root
          acpiFindMadtInRoot mem root xsdt

/-- The slots that a MADT fills before its entries are read, and the entries. -/
def publishMadt (madt : Int) : Kernel Int := do
  stateSet 32 madt
  let lapic ← acpiRead32 mem madt 36
  stateSet 33 lapic
  let flags ← acpiRead32 mem madt 40
  stateSet 56 flags
  let length ← acpiTableLength mem madt
  madtLoop mem madt length (length.toNat + 1) 44

def acpiDiscover : Kernel Int := do
  clearInventory
  let madt ← locateMadt mem boot
  if madt = 0 then pure 0 else publishMadt mem madt

/-! ## What the rest of the kernel asks -/

def acpiMadtAddress : Kernel Int := stateGet 32

def acpiLapicAddress : Kernel Int := stateGet 33

def acpiIoapicAddress : Kernel Int := stateGet 34

def acpiIoapicGsiBase : Kernel Int := stateGet 35

def acpiCpuCount : Kernel Int := stateGet 36

def acpiIoapicCount : Kernel Int := stateGet 37

def acpiIsoCount : Kernel Int := stateGet 38

/-- The slot of an index that a count covers, or -1. -/
def slotOf (count index slot : Int) : Kernel Int := do
  if index < 0 then pure (-1)
  else
    let bound ← stateGet count
    if index ≥ bound ∨ index ≥ 16 then pure (-1) else stateGet slot

def acpiCpuApicId (index : Int) : Kernel Int := slotOf 36 index (40 + index)

def acpiIsoSource (index : Int) : Kernel Int := slotOf 38 index (64 + index * 3)

def acpiIsoGsi (index : Int) : Kernel Int := slotOf 38 index (65 + index * 3)

def acpiIsoFlags (index : Int) : Kernel Int := slotOf 38 index (66 + index * 3)

end Vnt.Os
