import Vnt.Os.InfoBlock

/-!
# `Os.TagWalk` — the walks over the tags stay in the block

The readers of `Os.Boot` once more, over any way to read memory: with `memRead` they are those of `Os.Boot`, with a reader
that refuses what lies outside the block they still return the same. Both walks follow one relation, `WalkFrom`, that says
where the way over the tags ends.
-/

namespace Vnt.Os

open Lib

/-- How code reads memory: a width, an address and an offset. -/
abbrev Reader := Nat → Int → Int → Kernel Int

/-! ## The walks -/

def physInfoSizeBy (read : Reader) (boot : Handoff) : Kernel Int :=
  let info := physInfoAddr boot
  if info = 0 then pure 0
  else do
    let size ← read 4 info 0
    if size < 16 then pure 0
    else do
      let stop ← addWord info size
      if stop > memoryEnd then pure 0 else pure size

def readTagBy (read : Reader) (info cursor : Int) : Kernel (Int × Int) := do
  let type ← read 4 info cursor
  let sizeAt ← addWord cursor 4
  let size ← read 4 info sizeAt
  pure (type, size)

def mmapLoopBy (read : Reader) (info total bad : Int) (found : Int → Int → Int → Kernel Int) : Nat → Int → Kernel Int
  | 0, _ => Prog.fault .endless
  | fuel + 1, cursor => do
      let header ← addWord cursor 8
      if header ≤ total then do
        let (tagType, tagSize) ← readTagBy read info cursor
        if tagSize < 8 then pure bad
        else do
          let stop ← addWord cursor tagSize
          if stop > total then pure bad
          else if tagType = 0 then pure 0
          else if tagType = 6 then
            if tagSize < 16 then pure bad
            else do
              let entrySizeAt ← addWord cursor 8
              let entrySize ← read 4 info entrySizeAt
              if entrySize < 24 then pure bad else found cursor tagSize entrySize
          else do
            let next ← nextTag cursor tagSize
            mmapLoopBy read info total bad found fuel next
      else pure bad

def withMmapBy (read : Reader) (boot : Handoff) (bad : Int) (found : Int → Int → Int → Kernel Int) : Kernel Int :=
  let info := physInfoAddr boot
  if info = 0 then pure bad
  else do
    let total ← physInfoSizeBy read boot
    if total < 16 then pure bad else mmapLoopBy read info total bad found (total.toNat + 1) 8

def physMmapCountBy (read : Reader) (boot : Handoff) : Kernel Int :=
  withMmapBy read boot (-1) fun _ tagSize entrySize => mmapEntries tagSize entrySize

def readEntryBy (read : Reader) (info index field cursor tagSize entrySize : Int) : Kernel Int := do
  let count ← mmapEntries tagSize entrySize
  if index ≥ count then pure 0
  else do
    let entries ← addWord cursor 16
    let skip ← mulWord index entrySize
    let offset ← addWord entries skip
    if field = 0 then do
      let base ← read 8 info offset
      pure (signed base)
    else if field = 1 then do
      let lengthAt ← addWord offset 8
      let length ← read 8 info lengthAt
      pure (signed length)
    else do
      let typeAt ← addWord offset 16
      read 4 info typeAt

def physMmapFieldBy (read : Reader) (boot : Handoff) (index field : Int) : Kernel Int :=
  if index < 0 ∨ field < 0 ∨ field > 2 then pure 0
  else withMmapBy read boot 0 (readEntryBy read (physInfoAddr boot) index field)

variable {mem : Memory} {boot : Handoff} {s : Slots} {read : Reader} {info total cursor tag bad index field lo hi : Int}
  {found : Int → Int → Int → Kernel Int}

theorem mmapLoop_by (fuel : Nat) : ∀ cursor,
    mmapLoop mem info total bad found fuel cursor = mmapLoopBy (memRead mem) info total bad found fuel cursor := by
  induction fuel with
  | zero => exact fun cursor => rfl
  | succ fuel ih =>
      intro cursor
      rw [mmapLoop, mmapLoopBy]
      simp only [ih]
      rfl

theorem withMmap_by : withMmap mem boot bad found = withMmapBy (memRead mem) boot bad found := by
  rw [withMmap, withMmapBy]
  simp only [mmapLoop_by]
  rfl

theorem physMmapCount_by (mem : Memory) (boot : Handoff) : physMmapCount mem boot = physMmapCountBy (memRead mem) boot :=
  withMmap_by

theorem physMmapField_by (mem : Memory) (boot : Handoff) (index field : Int) :
    physMmapField mem boot index field = physMmapFieldBy (memRead mem) boot index field := by
  rw [physMmapField, physMmapFieldBy, withMmap_by]
  rfl

/-! ## Readers -/

/-- The reader gives what is in memory from `lo` on, up to `hi`. -/
def Answers (read : Reader) (mem : Memory) (lo hi : Int) : Prop := ∀ width address offset s, lo ≤ address + offset →
  address + offset + (width : Nat) ≤ hi → read width address offset s = .ok (bytesAt mem (address + offset) width, s)

/-- Memory of which only the bytes from `lo` on, up to `hi`, may be read. -/
def window (mem : Memory) (lo hi : Int) : Reader := fun width address offset =>
  if lo ≤ address + offset ∧ address + offset + width ≤ hi then memRead mem width address offset
  else Prog.fault (.outside (address + offset))

theorem memRead_answers (mem : Memory) (hlo : 0 ≤ lo) (hhi : hi ≤ memoryEnd) : Answers (memRead mem) mem lo hi := by
  intro width address offset s hstart hstop
  exact memRead_run (by omega) (by omega)

theorem window_answers (mem : Memory) (hlo : 0 ≤ lo) (hhi : hi ≤ memoryEnd) : Answers (window mem lo hi) mem lo hi := by
  intro width address offset s hstart hstop
  unfold window
  rw [if_pos ⟨hstart, hstop⟩]
  exact memRead_run (by omega) (by omega)

/-! ## Where a walk ends -/

inductive Outcome where
  /-- A memory map that is well formed, at `tag`. -/
  | map (tag : Int)
  /-- The end tag. -/
  | ended
  /-- A tag that is malformed, or no tag at all. -/
  | malformed
  deriving DecidableEq

/-- From `cursor` on the walk comes to this end. -/
inductive WalkFrom (mem : Memory) (info total : Int) : Int → Outcome → Prop where
  | out {cursor : Int} : ¬ cursor + 8 ≤ total → WalkFrom mem info total cursor .malformed
  | badSize {cursor : Int} : cursor + 8 ≤ total →
      u32At mem (info + (cursor + 4)) < 8 ∨ cursor + u32At mem (info + (cursor + 4)) > total →
      WalkFrom mem info total cursor .malformed
  | ended {cursor : Int} : cursor + 8 ≤ total → 8 ≤ u32At mem (info + (cursor + 4)) →
      cursor + u32At mem (info + (cursor + 4)) ≤ total → u32At mem (info + cursor) = 0 →
      WalkFrom mem info total cursor .ended
  | badMap {cursor : Int} : cursor + 8 ≤ total → 8 ≤ u32At mem (info + (cursor + 4)) →
      cursor + u32At mem (info + (cursor + 4)) ≤ total → u32At mem (info + cursor) = 6 →
      u32At mem (info + (cursor + 4)) < 16 ∨ u32At mem (info + (cursor + 8)) < 24 →
      WalkFrom mem info total cursor .malformed
  | map {cursor : Int} : cursor + 8 ≤ total → 16 ≤ u32At mem (info + (cursor + 4)) →
      cursor + u32At mem (info + (cursor + 4)) ≤ total → u32At mem (info + cursor) = 6 →
      24 ≤ u32At mem (info + (cursor + 8)) → WalkFrom mem info total cursor (.map cursor)
  | next {cursor : Int} {outcome : Outcome} : cursor + 8 ≤ total → 8 ≤ u32At mem (info + (cursor + 4)) →
      cursor + u32At mem (info + (cursor + 4)) ≤ total → u32At mem (info + cursor) ≠ 0 → u32At mem (info + cursor) ≠ 6 →
      WalkFrom mem info total (cursor + (u32At mem (info + (cursor + 4)) + 7) / 8 * 8) outcome →
      WalkFrom mem info total cursor outcome

/-- Every walk ends: each tag takes eight bytes at least. -/
theorem WalkFrom.exists (n : Nat) : ∀ {cursor : Int}, total - cursor < n → 0 < n →
    ∃ outcome, WalkFrom mem info total cursor outcome := by
  induction n with
  | zero =>
      intro cursor _ h
      exact absurd h (Nat.lt_irrefl 0)
  | succ n ih =>
      intro cursor hn _
      by_cases hroom : cursor + 8 ≤ total
      swap
      · exact ⟨.malformed, .out hroom⟩
      by_cases hsize : u32At mem (info + (cursor + 4)) < 8 ∨ cursor + u32At mem (info + (cursor + 4)) > total
      · exact ⟨.malformed, .badSize hroom hsize⟩
      have hlarge : 8 ≤ u32At mem (info + (cursor + 4)) := by omega
      have hinside : cursor + u32At mem (info + (cursor + 4)) ≤ total := by omega
      by_cases hend : u32At mem (info + cursor) = 0
      · exact ⟨.ended, .ended hroom hlarge hinside hend⟩
      by_cases htype : u32At mem (info + cursor) = 6
      · by_cases hmap : u32At mem (info + (cursor + 4)) < 16 ∨ u32At mem (info + (cursor + 8)) < 24
        · exact ⟨.malformed, .badMap hroom hlarge hinside htype hmap⟩
        · exact ⟨.map cursor, .map hroom (by omega) hinside htype (by omega)⟩
      · have hnext : total - (cursor + (u32At mem (info + (cursor + 4)) + 7) / 8 * 8) < n := by omega
        obtain ⟨outcome, hwalk⟩ := ih hnext (by omega)
        exact ⟨outcome, .next hroom hlarge hinside hend htype hwalk⟩

theorem WalkFrom.map_inside {outcome : Outcome} (h : WalkFrom mem info total cursor outcome) :
    outcome = .map tag → 0 ≤ cursor → 0 ≤ tag ∧ 16 ≤ u32At mem (info + (tag + 4)) ∧
      tag + u32At mem (info + (tag + 4)) ≤ total ∧ 24 ≤ u32At mem (info + (tag + 8)) := by
  induction h with
  | out => intro h; cases h
  | badSize => intro h; cases h
  | ended => intro h; cases h
  | badMap => intro h; cases h
  | map hroom hheader hinside htype hwide =>
      intro h hcursor
      cases h
      exact ⟨hcursor, hheader, hinside, hwide⟩
  | next hroom hlarge hinside hend htype hwalk ih =>
      intro h hcursor
      exact ih h (by omega)

/-! ## The loop follows the walk -/

theorem readTagBy_run (hread : Answers read mem info (info + total)) (hcursor : 0 ≤ cursor) (hroom : cursor + 8 ≤ total)
    (htotal : total ≤ 1073741824) :
    readTagBy read info cursor s = .ok ((u32At mem (info + cursor), u32At mem (info + (cursor + 4))), s) := by
  have htype : read 4 info cursor s = .ok (u32At mem (info + cursor), s) := hread 4 _ _ s (by omega) (by omega)
  have hsize : read 4 info (cursor + 4) s = .ok (u32At mem (info + (cursor + 4)), s) := hread 4 _ _ s (by omega) (by omega)
  rw [readTagBy, Prog.bind_run_ok htype, Prog.bind_run_ok (addWord_run (by omega) (by omega)), Prog.bind_run_ok hsize]
  rfl

/-- What the loop gives at the end of a walk. -/
def Outcome.result (mem : Memory) (info bad : Int) (found : Int → Int → Int → Kernel Int) : Outcome → Kernel Int
  | .map tag => found tag (u32At mem (info + (tag + 4))) (u32At mem (info + (tag + 8)))
  | .ended => pure 0
  | .malformed => pure bad

theorem mmapLoopBy_run (hread : Answers read mem info (info + total)) (htotal : total ≤ 1073741824) {outcome : Outcome}
    (hwalk : WalkFrom mem info total cursor outcome) : ∀ {fuel : Nat}, 0 ≤ cursor → cursor ≤ total + 8 →
      total - cursor < fuel → 0 < fuel →
      mmapLoopBy read info total bad found fuel cursor s = outcome.result mem info bad found s := by
  -- The header is read first, whatever the tag is.
  have hheader : ∀ {cursor : Int} (fuel : Nat), 0 ≤ cursor → cursor + 8 ≤ total →
      mmapLoopBy read info total bad found (fuel + 1) cursor s =
        (if u32At mem (info + (cursor + 4)) < 8 then pure bad
        else do
          let stop ← addWord cursor (u32At mem (info + (cursor + 4)))
          if stop > total then pure bad
          else if u32At mem (info + cursor) = 0 then pure 0
          else if u32At mem (info + cursor) = 6 then
            if u32At mem (info + (cursor + 4)) < 16 then pure bad
            else do
              let entrySizeAt ← addWord cursor 8
              let entrySize ← read 4 info entrySizeAt
              if entrySize < 24 then pure bad else found cursor (u32At mem (info + (cursor + 4))) entrySize
          else do
            let next ← nextTag cursor (u32At mem (info + (cursor + 4)))
            mmapLoopBy read info total bad found fuel next : Kernel Int) s := by
    intro cursor fuel hcursor hroom
    rw [mmapLoopBy, Prog.bind_run_ok (addWord_run (by omega) (by omega)), if_pos hroom,
      Prog.bind_run_ok (readTagBy_run hread hcursor hroom htotal)]
  have hentry : ∀ {cursor : Int}, 0 ≤ cursor → 16 ≤ u32At mem (info + (cursor + 4)) →
      cursor + u32At mem (info + (cursor + 4)) ≤ total →
      read 4 info (cursor + 8) s = .ok (u32At mem (info + (cursor + 8)), s) := by
    intro cursor hcursor hlarge hinside
    exact hread 4 _ _ s (by omega) (by omega)
  induction hwalk with
  | @out cursor hroom =>
      intro fuel hcursor hnear hfuel hpos
      obtain ⟨fuel, rfl⟩ : ∃ n, fuel = n + 1 := ⟨fuel - 1, by omega⟩
      rw [mmapLoopBy, Prog.bind_run_ok (addWord_run (by omega) (by omega)), if_neg hroom]
      rfl
  | @badSize cursor hroom hsize =>
      intro fuel hcursor hnear hfuel hpos
      obtain ⟨fuel, rfl⟩ : ∃ n, fuel = n + 1 := ⟨fuel - 1, by omega⟩
      rw [hheader fuel hcursor hroom]
      by_cases hsmall : u32At mem (info + (cursor + 4)) < 8
      · rw [if_pos hsmall]
        rfl
      · have hrange := u32At_range mem (info + (cursor + 4))
        rw [if_neg hsmall, Prog.bind_run_ok (addWord_run (by omega) (by omega)), if_pos (by omega)]
        rfl
  | @ended cursor hroom hlarge hinside hend =>
      intro fuel hcursor hnear hfuel hpos
      obtain ⟨fuel, rfl⟩ : ∃ n, fuel = n + 1 := ⟨fuel - 1, by omega⟩
      rw [hheader fuel hcursor hroom, if_neg (by omega), Prog.bind_run_ok (addWord_run (by omega) (by omega)),
        if_neg (by omega), if_pos hend]
      rfl
  | @badMap cursor hroom hlarge hinside htype hmap =>
      intro fuel hcursor hnear hfuel hpos
      obtain ⟨fuel, rfl⟩ : ∃ n, fuel = n + 1 := ⟨fuel - 1, by omega⟩
      rw [hheader fuel hcursor hroom, if_neg (by omega), Prog.bind_run_ok (addWord_run (by omega) (by omega)),
        if_neg (by omega), if_neg (by omega), if_pos htype]
      by_cases hshort : u32At mem (info + (cursor + 4)) < 16
      · rw [if_pos hshort]
        rfl
      · rw [if_neg hshort, Prog.bind_run_ok (addWord_run (by omega) (by omega)),
          Prog.bind_run_ok (hentry hcursor (by omega) hinside), if_pos (by omega)]
        rfl
  | @map cursor hroom hlarge hinside htype hwide =>
      intro fuel hcursor hnear hfuel hpos
      obtain ⟨fuel, rfl⟩ : ∃ n, fuel = n + 1 := ⟨fuel - 1, by omega⟩
      rw [hheader fuel hcursor hroom, if_neg (by omega), Prog.bind_run_ok (addWord_run (by omega) (by omega)),
        if_neg (by omega), if_neg (by omega), if_pos htype, if_neg (by omega),
        Prog.bind_run_ok (addWord_run (by omega) (by omega)), Prog.bind_run_ok (hentry hcursor hlarge hinside),
        if_neg (by omega)]
      rfl
  | @next cursor outcome hroom hlarge hinside hend htype hwalk ih =>
      intro fuel hcursor hnear hfuel hpos
      obtain ⟨fuel, rfl⟩ : ∃ n, fuel = n + 1 := ⟨fuel - 1, by omega⟩
      rw [hheader fuel hcursor hroom, if_neg (by omega), Prog.bind_run_ok (addWord_run (by omega) (by omega)),
        if_neg (by omega), if_neg hend, if_neg htype,
        Prog.bind_run_ok (nextTag_run hcursor (by omega) (by omega))]
      exact ih (by omega) (by omega) (by omega) (by omega)

/-! ## The count and the fields -/

/-- A field of an entry of the memory map at `tag`, and 0 where there is no such entry. -/
def entryValue (mem : Memory) (info tag tagSize entrySize index field : Int) : Int :=
  let entry := info + (tag + 16 + index * entrySize)
  if 0 ≤ index ∧ index < (tagSize - 16) / entrySize then
    if field = 0 then u64At mem entry
    else if field = 1 then u64At mem (entry + 8)
    else if field = 2 then u32At mem (entry + 16)
    else 0
  else 0

/-- What is not the field of an entry is 0. -/
theorem entryValue_zero {tagSize entrySize : Int} (h : index < 0 ∨ field < 0 ∨ field > 2) :
    entryValue mem info tag tagSize entrySize index field = 0 := by
  unfold entryValue
  by_cases hindex : 0 ≤ index ∧ index < (tagSize - 16) / entrySize
  · rw [if_pos hindex, if_neg (by omega), if_neg (by omega), if_neg (by omega)]
  · rw [if_neg hindex]

namespace Outcome

/-- `phys_mmap_count`: the whole entries of the memory map. -/
def count (mem : Memory) (info : Int) : Outcome → Int
  | .map tag => (u32At mem (info + (tag + 4)) - 16) / u32At mem (info + (tag + 8))
  | .ended => 0
  | .malformed => -1

/-- `phys_mmap_field` -/
def entryField (mem : Memory) (info index field : Int) : Outcome → Int
  | .map tag => entryValue mem info tag (u32At mem (info + (tag + 4))) (u32At mem (info + (tag + 8))) index field
  | _ => 0

end Outcome

theorem physInfoSizeBy_run (hread : Answers read mem info (info + total)) (hinfo : physInfoAddr boot = info)
    (hsize : physInfoSize mem boot s = .ok (total, s)) (htotal : 0 < total) : physInfoSizeBy read boot s = .ok (total, s) := by
  obtain ⟨hfits, hvalue⟩ := physInfoSize_fits hsize (by omega)
  rw [hinfo] at hfits hvalue
  have hfirst : read 4 info 0 s = .ok (total, s) := by
    rw [hread 4 info 0 s (by omega) (by omega), Int.add_zero, hvalue]
    rfl
  unfold physInfoSizeBy
  rw [hinfo, if_neg (by omega), Prog.bind_run_ok hfirst, if_neg (by omega), Prog.bind_run_ok (addWord_run (by omega) (by omega)),
    if_neg (by unfold memoryEnd; omega)]
  rfl

theorem withMmapBy_run (hread : Answers read mem info (info + total)) (hinfo : physInfoAddr boot = info)
    (hsize : physInfoSize mem boot s = .ok (total, s)) (htotal : 0 < total) {outcome : Outcome}
    (hwalk : WalkFrom mem info total 8 outcome) : withMmapBy read boot bad found s = outcome.result mem info bad found s := by
  obtain ⟨hfits, -⟩ := physInfoSize_fits hsize (by omega)
  rw [hinfo] at hfits
  unfold withMmapBy
  rw [hinfo, if_neg (by omega), Prog.bind_run_ok (physInfoSizeBy_run hread hinfo hsize htotal), if_neg (by omega)]
  exact mmapLoopBy_run hread (by omega) hwalk (by omega) (by omega) (by omega) (by omega)

theorem mmapEntries_of_range {tagSize entrySize : Int} (h : 0 ≤ tagSize ∧ tagSize < 4294967296) :
    mmapEntries tagSize entrySize s = .ok ((tagSize - 16) / entrySize, s) := by
  have hsub : subWord tagSize 16 s = .ok (tagSize - 16, s) := word_run ⟨by omega, by omega⟩
  rw [mmapEntries, Prog.bind_run_ok hsub]
  rfl

theorem physMmapCountBy_run (hread : Answers read mem info (info + total)) (hinfo : physInfoAddr boot = info)
    (hsize : physInfoSize mem boot s = .ok (total, s)) (htotal : 0 < total) {outcome : Outcome}
    (hwalk : WalkFrom mem info total 8 outcome) : physMmapCountBy read boot s = .ok (outcome.count mem info, s) := by
  rw [physMmapCountBy, withMmapBy_run hread hinfo hsize htotal hwalk]
  cases outcome with
  | map tag => exact mmapEntries_of_range (u32At_range mem _)
  | ended => rfl
  | malformed => rfl

/-- The entry of a memory map that lies in the block. -/
theorem readEntryBy_run {tagSize entrySize : Int} (hread : Answers read mem info (info + total)) (htotal : total ≤ 1073741824)
    (htag : 0 ≤ tag) (hsizes : 0 ≤ tagSize ∧ tagSize < 4294967296) (hinside : tag + tagSize ≤ total) (hwide : 24 ≤ entrySize)
    (hindex : 0 ≤ index) (hfield : 0 ≤ field ∧ field ≤ 2) :
    readEntryBy read info index field tag tagSize entrySize s =
      .ok (entryValue mem info tag tagSize entrySize index field, s) := by
  rw [readEntryBy, Prog.bind_run_ok (mmapEntries_of_range hsizes)]
  unfold entryValue
  by_cases hcount : index ≥ (tagSize - 16) / entrySize
  · rw [if_pos hcount, if_neg (fun h => absurd h.2 (Int.not_lt.mpr hcount))]
    rfl
  rw [if_neg hcount, if_pos ⟨hindex, Int.not_le.mp hcount⟩]
  have hlast : (index + 1) * entrySize ≤ tagSize - 16 :=
    (Int.le_ediv_iff_mul_le (by omega)).mp (Int.add_one_le_of_lt (Int.not_le.mp hcount))
  rw [Int.add_mul, Int.one_mul] at hlast
  have hskip : 0 ≤ index * entrySize := Int.mul_nonneg hindex (by omega)
  have hoffset : ∀ rest : Int → Kernel Int, (do
      let entries ← addWord tag 16
      let skip ← mulWord index entrySize
      let offset ← addWord entries skip
      rest offset) s = rest (tag + 16 + index * entrySize) s := by
    intro rest
    rw [Prog.bind_run_ok (addWord_run (by omega) (by omega)), Prog.bind_run_ok (mulWord_run (by omega) (by omega)),
      Prog.bind_run_ok (addWord_run (by omega) (by omega))]
  rw [hoffset]
  have hread8 : ∀ offset, 0 ≤ offset → offset + 8 ≤ total → (do
      let value ← read 8 info offset
      pure (signed value) : Kernel Int) s = .ok (u64At mem (info + offset), s) := by
    intro offset h₀ h₁
    exact Prog.bind_run_ok (hread 8 _ _ s (by omega) (by omega))
  by_cases hbase : field = 0
  · rw [if_pos hbase, if_pos hbase]
    exact hread8 _ (by omega) (by omega)
  rw [if_neg hbase, if_neg hbase]
  by_cases hlength : field = 1
  · rw [if_pos hlength, if_pos hlength, Prog.bind_run_ok (addWord_run (by omega) (by omega)),
      hread8 _ (by omega) (by omega), ← Int.add_assoc]
  · have htype : read 4 info (tag + 16 + index * entrySize + 16) s = .ok (u32At mem (info + (tag + 16 + index * entrySize + 16)), s) :=
      hread 4 _ _ s (by omega) (by omega)
    rw [if_neg hlength, if_neg hlength, if_pos (by omega), Prog.bind_run_ok (addWord_run (by omega) (by omega)), htype,
      ← Int.add_assoc]

theorem physMmapFieldBy_run (hread : Answers read mem info (info + total)) (hinfo : physInfoAddr boot = info)
    (hsize : physInfoSize mem boot s = .ok (total, s)) (htotal : 0 < total) {outcome : Outcome}
    (hwalk : WalkFrom mem info total 8 outcome) (index field : Int) :
    physMmapFieldBy read boot index field s = .ok (outcome.entryField mem info index field, s) := by
  unfold physMmapFieldBy
  by_cases hrange : index < 0 ∨ field < 0 ∨ field > 2
  · rw [if_pos hrange]
    cases outcome with
    | map tag =>
        have hzero : (Outcome.map tag).entryField mem info index field = 0 := entryValue_zero hrange
        rw [hzero]
        rfl
    | ended => rfl
    | malformed => rfl
  · rw [if_neg hrange, withMmapBy_run hread hinfo hsize htotal hwalk, hinfo]
    cases outcome with
    | map tag =>
        obtain ⟨htag, hlarge, hinside, hwide⟩ := hwalk.map_inside rfl (by decide)
        obtain ⟨hfits, -⟩ := physInfoSize_fits hsize (by omega)
        rw [hinfo] at hfits
        exact readEntryBy_run hread (by omega) htag (u32At_range mem _) hinside hwide (by omega) (by omega)
    | ended => rfl
    | malformed => rfl

/-- The walks on a block of which nothing is assumed but its size: they come to the end that the bytes give them, and they
do so too when nothing but the block may be read. -/
theorem tag_walks_agree (hsize : physInfoSize mem boot s = .ok (total, s)) (htotal : 0 < total) :
    ∃ outcome, WalkFrom mem (physInfoAddr boot) total 8 outcome ∧
      physMmapCount mem boot s = .ok (outcome.count mem (physInfoAddr boot), s) ∧
      (∀ index field, physMmapField mem boot index field s =
        .ok (outcome.entryField mem (physInfoAddr boot) index field, s)) ∧
      physMmapCountBy (window mem (physInfoAddr boot) (physInfoAddr boot + total)) boot s = physMmapCount mem boot s ∧
      ∀ index field, physMmapFieldBy (window mem (physInfoAddr boot) (physInfoAddr boot + total)) boot index field s =
        physMmapField mem boot index field s := by
  obtain ⟨hfits, -⟩ := physInfoSize_fits hsize (by omega)
  obtain ⟨outcome, hwalk⟩ := @WalkFrom.exists mem (physInfoAddr boot) total total.toNat 8 (by omega) (by omega)
  have hlo : 0 ≤ physInfoAddr boot := by omega
  have hhi : physInfoAddr boot + total ≤ memoryEnd := hfits.2.2
  have hall := memRead_answers mem hlo hhi
  have hwindow := window_answers mem hlo hhi
  rw [physMmapCount_by, physMmapCountBy_run hall rfl hsize htotal hwalk]
  refine ⟨outcome, hwalk, rfl, ?_, ?_, ?_⟩
  · intro index field
    rw [physMmapField_by]
    exact physMmapFieldBy_run hall rfl hsize htotal hwalk index field
  · exact physMmapCountBy_run hwindow rfl hsize htotal hwalk
  · intro index field
    rw [physMmapField_by, physMmapFieldBy_run hall rfl hsize htotal hwalk]
    exact physMmapFieldBy_run hwindow rfl hsize htotal hwalk index field

/-- A block of 56 bytes with one entry. -/
def oneEntry : Memory := memoryOf [(4096, [56, 0, 0, 0, 0, 0, 0, 0,
  6, 0, 0, 0, 40, 0, 0, 0, 24, 0, 0, 0, 0, 0, 0, 0,
  0, 16, 0, 0, 0, 0, 0, 0, 0, 32, 0, 0, 0, 0, 0, 0, 1, 0, 0, 0, 0, 0, 0, 0,
  0, 0, 0, 0, 8, 0, 0, 0])]

theorem one_entry_walk : ∃ outcome, WalkFrom oneEntry 4096 56 8 outcome ∧
    physMmapCount oneEntry bootAt4096 (fun _ => 0) = .ok (outcome.count oneEntry 4096, fun _ => 0) := by
  have hsize : physInfoSize oneEntry bootAt4096 (fun _ => 0) = .ok (56, fun _ => 0) := rfl
  obtain ⟨outcome, hwalk, hcount, -⟩ := tag_walks_agree hsize (by decide)
  exact ⟨outcome, hwalk, hcount⟩

end Vnt.Os
