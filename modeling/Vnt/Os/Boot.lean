import Vnt.Os.Memory

/-!
# `Os.Boot` — the Multiboot2 information block

What `mm/phys.vnt` reads of the block the boot loader hands over: a size, then tags, each with a type and a size and
padded to eight bytes. The two words that `boot.S` saves are the `Handoff`; everything else is memory.
-/

namespace Vnt.Os

open Lib

/-- `multiboot2_boot_magic` and `multiboot2_info_ptr`. -/
structure Handoff where
  magic : UInt32
  info : UInt32
  deriving DecidableEq

/-- An information block at 4096. -/
def bootAt4096 : Handoff := ⟨0x36d76289, 4096⟩

def physInfoAddr (boot : Handoff) : Int :=
  let magic : Int := boot.magic.toNat
  let info : Int := boot.info.toNat
  if magic ≠ 0x36d76289 ∨ info = 0 ∨ info ≥ memoryEnd then 0 else info

def physInfoSize (mem : Memory) (boot : Handoff) : Kernel Int :=
  let info := physInfoAddr boot
  if info = 0 then pure 0
  else do
    let size ← memReadU32 mem info 0
    if size < 16 then pure 0
    else do
      let stop ← addWord info size
      if stop > memoryEnd then pure 0 else pure size

/-- The step from a tag to the next: `cursor + ((tag_size + 7) / 8) * 8`. -/
def nextTag (cursor tagSize : Int) : Kernel Int := do
  let padded ← addWord tagSize 7
  let step ← mulWord (padded / 8) 8
  addWord cursor step

/-- The type and the size of the tag at `cursor`. -/
def readTag (mem : Memory) (info cursor : Int) : Kernel (Int × Int) := do
  let type ← memReadU32 mem info cursor
  let sizeAt ← addWord cursor 4
  let size ← memReadU32 mem info sizeAt
  pure (type, size)

/-! ## The memory map -/

/-- The loop over the tags up to the first memory map, which `found` reads: it is given the place, the size and the
    size of an entry. A block that is not well formed gives `bad`. -/
def mmapLoop (mem : Memory) (info total bad : Int) (found : Int → Int → Int → Kernel Int) : Nat → Int → Kernel Int
  | 0, _ => Prog.fault .endless
  | fuel + 1, cursor => do
      let header ← addWord cursor 8
      if header ≤ total then do
        let (tagType, tagSize) ← readTag mem info cursor
        if tagSize < 8 then pure bad
        else do
          let stop ← addWord cursor tagSize
          if stop > total then pure bad
          else if tagType = 0 then pure 0
          else if tagType = 6 then
            if tagSize < 16 then pure bad
            else do
              let entrySizeAt ← addWord cursor 8
              let entrySize ← memReadU32 mem info entrySizeAt
              if entrySize < 24 then pure bad else found cursor tagSize entrySize
          else do
            let next ← nextTag cursor tagSize
            mmapLoop mem info total bad found fuel next
      else pure bad

/-- What `phys_mmap_count` and `phys_mmap_field` do with the block. -/
def withMmap (mem : Memory) (boot : Handoff) (bad : Int) (found : Int → Int → Int → Kernel Int) : Kernel Int :=
  let info := physInfoAddr boot
  if info = 0 then pure bad
  else do
    let total ← physInfoSize mem boot
    if total < 16 then pure bad else mmapLoop mem info total bad found (total.toNat + 1) 8

/-- The number of entries of a memory map. -/
def mmapEntries (tagSize entrySize : Int) : Kernel Int := do
  let entries ← subWord tagSize 16
  pure (entries / entrySize)

def physMmapCount (mem : Memory) (boot : Handoff) : Kernel Int :=
  withMmap mem boot (-1) fun _ tagSize entrySize => mmapEntries tagSize entrySize

/-- A field of an entry: the base, the length or the type. -/
def readEntry (mem : Memory) (info index field cursor tagSize entrySize : Int) : Kernel Int := do
  let count ← mmapEntries tagSize entrySize
  if index ≥ count then pure 0
  else do
    let entries ← addWord cursor 16
    let skip ← mulWord index entrySize
    let offset ← addWord entries skip
    if field = 0 then memReadU64 mem info offset
    else if field = 1 then do
      let lengthAt ← addWord offset 8
      memReadU64 mem info lengthAt
    else do
      let typeAt ← addWord offset 16
      memReadU32 mem info typeAt

def physMmapField (mem : Memory) (boot : Handoff) (index field : Int) : Kernel Int :=
  if index < 0 ∨ field < 0 ∨ field > 2 then pure 0
  else withMmap mem boot 0 (readEntry mem (physInfoAddr boot) index field)

def physMmapBase (mem : Memory) (boot : Handoff) (index : Int) : Kernel Int := physMmapField mem boot index 0

def physMmapLength (mem : Memory) (boot : Handoff) (index : Int) : Kernel Int := physMmapField mem boot index 1

def physMmapType (mem : Memory) (boot : Handoff) (index : Int) : Kernel Int := physMmapField mem boot index 2

end Vnt.Os
