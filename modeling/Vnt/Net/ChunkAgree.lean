import Vnt.Net.ChunkGrammar

/-!
# `Vnt.Net.ChunkAgree`: the three readers of chunked bodies compared

The stream decoder is first brought down to a fold over single bytes, which makes the pieces of the input irrelevant;
the fold reads the bodies of the grammar whose lines have at most 8192 bytes.
-/

namespace Vnt.Net

/-! ## The stream decoder as a fold over bytes -/

/-- One byte in any state. -/
def byteStep (decoder : ChunkStream) (ch : UInt8) : Option ChunkStream :=
  match decoder.state with
  | .done => some decoder
  | .data =>
      some { decoder with
        emitted := decoder.emitted ++ [ch]
        chunkRemaining := decoder.chunkRemaining - 1
        state := if decoder.chunkRemaining - 1 = 0 then .dataCr else .data }
  | _ => feedByte decoder ch

def byteRun (decoder : ChunkStream) (bytes : Bytes) : Option ChunkStream := bytes.foldlM byteStep decoder

/-- In the data of a chunk there is a byte to come. -/
def ChunkStream.Ready (decoder : ChunkStream) : Prop := decoder.state = .data → 0 < decoder.chunkRemaining

variable {decoder decoder' : ChunkStream} {bytes rest : Bytes} {s ended : StreamState} {l e x : Bytes} {r : Nat}

@[simp] theorem byteRun_nil : byteRun decoder [] = some decoder := rfl

theorem byteRun_cons (ch : UInt8) : byteRun decoder (ch :: rest) = (byteStep decoder ch).bind (byteRun · rest) := by
  rw [byteRun, List.foldlM_cons]
  rfl

theorem byteRun_append : byteRun decoder (bytes ++ rest) = (byteRun decoder bytes).bind (byteRun · rest) := by
  rw [byteRun, List.foldlM_append]
  rfl

theorem byteRun_done (hdone : decoder.state = .done) : byteRun decoder bytes = some decoder := by
  induction bytes with
  | nil => rfl
  | cons ch rest ih =>
      have hstep : byteStep decoder ch = some decoder := by
        unfold byteStep
        rw [hdone]
      rw [byteRun_cons, hstep]
      exact ih

theorem feedByte_frame {ch : UInt8} (h : feedByte decoder ch = some decoder') :
    decoder'.emitted = decoder.emitted ∧ decoder'.Ready := by
  unfold feedByte at h
  split at h
  · split at h
    · cases h
      exact ⟨rfl, nofun⟩
    split at h
    · cases h
    · rename_i hstate _ _
      cases h
      exact ⟨rfl, fun hdata => by rw [hstate] at hdata; cases hdata⟩
  · split at h
    · cases h
    split at h
    · cases h
    · rename_i amount _
      cases h
      refine ⟨rfl, fun hdata => Nat.pos_of_ne_zero fun hzero => ?_⟩
      rw [show amount = 0 from hzero] at hdata
      cases hdata
  · split at h
    · cases h
    · cases h
      exact ⟨rfl, nofun⟩
  · split at h
    · cases h
    · cases h
      exact ⟨rfl, nofun⟩
  · split at h
    · cases h
      exact ⟨rfl, nofun⟩
    split at h
    · cases h
    · rename_i hstate _ _
      cases h
      exact ⟨rfl, fun hdata => by rw [hstate] at hdata; cases hdata⟩
  · split at h
    · cases h
    split at h
    · cases h
      exact ⟨rfl, nofun⟩
    split at h
    · cases h
      exact ⟨rfl, nofun⟩
    · cases h
  · cases h
  · cases h

theorem byteStep_frame {ch : UInt8} (h : byteStep decoder ch = some decoder') (hready : decoder.Ready) :
    decoder'.emitted.length ≤ decoder.emitted.length + 1 ∧ decoder'.Ready := by
  unfold byteStep at h
  split at h
  · cases h
    exact ⟨Nat.le_succ _, hready⟩
  · cases h
    refine ⟨by rw [List.length_append, List.length_singleton], fun hdata => Nat.pos_of_ne_zero fun hzero => ?_⟩
    rw [if_pos hzero] at hdata
    cases hdata
  · obtain ⟨hemitted, hready'⟩ := feedByte_frame h
    rw [hemitted]
    exact ⟨Nat.le_succ _, hready'⟩

theorem byteRun_frame : ∀ {bytes : Bytes} {decoder : ChunkStream}, byteRun decoder bytes = some decoder' → decoder.Ready →
    decoder'.emitted.length ≤ decoder.emitted.length + bytes.length ∧ decoder'.Ready
  | [], _, h, hready => by
      cases h
      exact ⟨Nat.le_refl _, hready⟩
  | ch :: rest, decoder, h, hready => by
      rw [byteRun_cons] at h
      obtain ⟨next, hnext, hrest⟩ := Option.bind_eq_some_iff.mp h
      obtain ⟨hlen, hready'⟩ := byteStep_frame hnext hready
      obtain ⟨hlen', hdone⟩ := byteRun_frame hrest hready'
      rw [List.length_cons]
      exact ⟨by omega, hdone⟩

/-- The data of a chunk, taken byte by byte. -/
theorem byteRun_data : ∀ {bytes e l : Bytes} {r : Nat}, bytes ≠ [] → bytes.length ≤ r →
    byteRun ⟨.data, l, r, e⟩ bytes =
      some ⟨if r - bytes.length = 0 then .dataCr else .data, l, r - bytes.length, e ++ bytes⟩
  | [], _, _, _, hne, _ => absurd rfl hne
  | [ch], e, l, r, _, _ => rfl
  | ch :: ch' :: rest, e, l, r, _, hlen => by
      simp only [List.length_cons] at hlen
      have hmore : ¬(r - 1 = 0) := by omega
      have hrest := @byteRun_data (ch' :: rest) (e ++ [ch]) l (r - 1) (List.cons_ne_nil _ _)
        (by rw [List.length_cons]; omega)
      have hstep : byteStep ⟨.data, l, r, e⟩ ch = some ⟨.data, l, r - 1, e ++ [ch]⟩ := by
        show some (ChunkStream.mk (if r - 1 = 0 then .dataCr else .data) l (r - 1) (e ++ [ch])) = _
        rw [if_neg hmore]
      rw [byteRun_cons, hstep]
      show byteRun ⟨.data, l, r - 1, e ++ [ch]⟩ (ch' :: rest) = _
      rw [hrest]
      have hsub : r - 1 - (ch' :: rest).length = r - (ch :: ch' :: rest).length := by
        simp only [List.length_cons]
        omega
      rw [hsub, List.append_assoc]
      rfl

/-- What one turn takes of a chunk: all of the input, or all that the chunk still lacks. -/
theorem byteRun_turn {k : Nat} (hk : 0 < k) (hlen : k ≤ bytes.length) (hr : k ≤ r) :
    byteRun ⟨.data, l, r, e⟩ bytes =
      byteRun ⟨if r - k = 0 then .dataCr else .data, l, r - k, e ++ bytes.take k⟩ (bytes.drop k) := by
  have htake : (bytes.take k).length = k := List.length_take_of_le hlen
  have hne : bytes.take k ≠ [] := by
    intro hnil
    rw [hnil, List.length_nil] at htake
    omega
  have hrun := @byteRun_data (bytes.take k) e l r hne (by rw [htake]; exact hr)
  rw [htake] at hrun
  have happend : byteRun ⟨.data, l, r, e⟩ (bytes.take k ++ bytes.drop k) = _ := byteRun_append
  rw [hrun, List.take_append_drop] at happend
  exact happend

theorem byteStep_emitted {ch : UInt8} (h : byteStep decoder ch = some decoder') :
    decoder.emitted.length ≤ decoder'.emitted.length := by
  unfold byteStep at h
  split at h
  · cases h
    exact Nat.le_refl _
  · cases h
    rw [List.length_append]
    exact Nat.le_add_right _ _
  · rw [(feedByte_frame h).1]

/-- What has gone to the sink stays there. -/
theorem byteRun_emitted : ∀ {bytes : Bytes} {decoder : ChunkStream}, byteRun decoder bytes = some decoder' →
    decoder.emitted.length ≤ decoder'.emitted.length
  | [], _, h => by
      cases h
      exact Nat.le_refl _
  | ch :: rest, decoder, h => by
      rw [byteRun_cons] at h
      obtain ⟨next, hnext, hrest⟩ := Option.bind_eq_some_iff.mp h
      exact Nat.le_trans (byteStep_emitted hnext) (byteRun_emitted hrest)

/-- **The loop of `stream_feed_chunked` takes the bytes one by one**, and fails besides when the total leaves `size_t`. -/
theorem feedLoop_eq_some_iff {last : ChunkStream} : ∀ {fuel : Nat} {decoder : ChunkStream} {bytes : Bytes},
    bytes.length ≤ fuel → decoder.Ready → decoder.emitted.length ≤ sizeMax →
    (feedLoop fuel decoder bytes = some last ↔ byteRun decoder bytes = some last ∧ last.emitted.length ≤ sizeMax)
  | fuel, decoder, [], _, _, hroom => by
      have hnil : feedLoop fuel decoder [] = some decoder := by cases fuel <;> rfl
      rw [hnil, byteRun_nil]
      constructor
      · intro h
        cases h
        exact ⟨rfl, hroom⟩
      · exact fun h => h.1
  | 0, _, _ :: _, hfuel, _, _ => by cases hfuel
  | fuel + 1, decoder, ch :: rest, hfuel, hready, hroom => by
      rw [feedLoop]
      by_cases hdone : decoder.state = .done
      · rw [if_pos hdone, byteRun_done hdone]
        constructor
        · intro h
          cases h
          exact ⟨rfl, hroom⟩
        · exact fun h => h.1
      rw [if_neg hdone]
      by_cases hdata : decoder.state = .data
      · -- a turn takes all that the chunk still lacks
        rw [if_pos hdata]
        obtain ⟨state, l, r, e⟩ := decoder
        cases hdata
        have hr : 0 < r := hready rfl
        rw [List.length_cons] at hfuel
        simp only at hroom ⊢
        obtain ⟨k, hk⟩ : ∃ k, min (ch :: rest).length r = k := ⟨_, rfl⟩
        have hbound : 0 < k ∧ k ≤ (ch :: rest).length ∧ k ≤ r := by
          rw [List.length_cons] at hk ⊢
          omega
        have htake : ((ch :: rest).take k).length = k := List.length_take_of_le hbound.2.1
        have hne : (ch :: rest).take k ≠ [] := by
          intro hnil
          rw [hnil, List.length_nil] at htake
          omega
        rw [hk, byteRun_turn hbound.1 hbound.2.1 hbound.2.2]
        unfold streamEmit
        rw [if_neg hne, htake]
        dsimp only
        by_cases hfull : k > sizeMax - e.length
        · -- the fold goes on, with more bytes in the sink than a `size_t` counts
          rw [if_pos hfull]
          constructor
          · exact nofun
          rintro ⟨hlast, hfits⟩
          have hle := byteRun_emitted hlast
          rw [List.length_append, htake] at hle
          omega
        rw [if_neg hfull]
        apply feedLoop_eq_some_iff
        · rw [List.length_drop, List.length_cons]
          omega
        · intro hstill
          apply Nat.pos_of_ne_zero
          intro hzero
          rw [show (if r - k = 0 then StreamState.dataCr else .data) = .dataCr from if_pos hzero] at hstill
          cases hstill
        · show (e ++ (ch :: rest).take k).length ≤ sizeMax
          rw [List.length_append, htake]
          omega
      · rw [if_neg hdata, byteRun_cons]
        have hstep : byteStep decoder ch = feedByte decoder ch := by
          unfold byteStep
          split
          · contradiction
          · contradiction
          · rfl
        rw [hstep]
        cases hnext : feedByte decoder ch with
        | none => exact ⟨nofun, nofun⟩
        | some next =>
            obtain ⟨hemitted, hready'⟩ := feedByte_frame hnext
            rw [List.length_cons] at hfuel
            show feedLoop fuel next rest = some last ↔ byteRun next rest = some last ∧ _
            apply feedLoop_eq_some_iff
            · omega
            · exact hready'
            · rw [hemitted]
              exact hroom

/-- A piece that fits `size_t` is read byte by byte. -/
theorem feedLoop_eq_byteRun {fuel : Nat} (hfuel : bytes.length ≤ fuel) (hready : decoder.Ready)
    (hroom : decoder.emitted.length + bytes.length ≤ sizeMax) : feedLoop fuel decoder bytes = byteRun decoder bytes := by
  apply Option.ext
  intro last
  have hiff := @feedLoop_eq_some_iff last fuel decoder bytes hfuel hready (by omega)
  constructor
  · exact fun h => (hiff.mp h).1
  · intro h
    obtain ⟨hlen, -⟩ := byteRun_frame h hready
    exact hiff.mpr ⟨h, by omega⟩

/-- `stream_feed_chunked` over one piece after another. -/
def streamPieces (decoder : ChunkStream) (pieces : List Bytes) : Option ChunkStream :=
  pieces.foldlM streamFeedChunked decoder

/-- **How the bytes are cut into pieces does not matter.** -/
theorem streamPieces_eq_some_iff {last : ChunkStream} : ∀ {pieces : List Bytes} {decoder : ChunkStream}, decoder.Ready →
    decoder.emitted.length ≤ sizeMax →
    (streamPieces decoder pieces = some last ↔
      byteRun decoder pieces.flatten = some last ∧ last.emitted.length ≤ sizeMax)
  | [], decoder, _, hroom => by
      show some decoder = some last ↔ some decoder = some last ∧ _
      constructor
      · intro h
        cases h
        exact ⟨rfl, hroom⟩
      · exact fun h => h.1
  | piece :: pieces, decoder, hready, hroom => by
      rw [streamPieces, List.foldlM_cons, List.flatten_cons, byteRun_append]
      constructor
      · intro h
        obtain ⟨next, hnext, hrest⟩ := Option.bind_eq_some_iff.mp h
        obtain ⟨hrun, hfits⟩ := (feedLoop_eq_some_iff (Nat.le_refl _) hready hroom).mp hnext
        obtain ⟨-, hready'⟩ := byteRun_frame hrun hready
        obtain ⟨hmore, hlast⟩ := (streamPieces_eq_some_iff hready' hfits).mp hrest
        exact ⟨Option.bind_eq_some_iff.mpr ⟨next, hrun, hmore⟩, hlast⟩
      · rintro ⟨h, hlast⟩
        obtain ⟨next, hrun, hmore⟩ := Option.bind_eq_some_iff.mp h
        have hfits : next.emitted.length ≤ sizeMax := Nat.le_trans (byteRun_emitted hmore) hlast
        obtain ⟨-, hready'⟩ := byteRun_frame hrun hready
        exact Option.bind_eq_some_iff.mpr ⟨next, (feedLoop_eq_some_iff (Nat.le_refl _) hready hroom).mpr ⟨hrun, hfits⟩,
          (streamPieces_eq_some_iff hready' hfits).mpr ⟨hmore, hlast⟩⟩

/-- A stream that fits `size_t` is read byte by byte. -/
theorem streamPieces_eq_byteRun {pieces : List Bytes} (hready : decoder.Ready)
    (hroom : decoder.emitted.length + pieces.flatten.length ≤ sizeMax) :
    streamPieces decoder pieces = byteRun decoder pieces.flatten := by
  apply Option.ext
  intro last
  have hiff := @streamPieces_eq_some_iff last pieces decoder hready (by omega)
  constructor
  · exact fun h => (hiff.mp h).1
  · intro h
    obtain ⟨hlen, -⟩ := byteRun_frame h hready
    exact hiff.mpr ⟨h, by omega⟩

/-! ## The fold reads the grammar -/

/-- From `decoder`, the bytes lead to the end of a body, with `x` emitted. -/
def Reaches (decoder : ChunkStream) (bytes x : Bytes) : Prop :=
  ∃ last, byteRun decoder bytes = some last ∧ last.state = .done ∧ last.emitted = x

/-- A state that collects a line, and the one behind its CR. -/
structure LineState (s ended : StreamState) : Prop where
  ends : ∀ l r e, byteStep ⟨s, l, r, e⟩ cr = some ⟨ended, l, r, e⟩
  byte : ∀ l r e ch, ch ≠ cr → byteStep ⟨s, l, r, e⟩ ch =
    if ch = lf ∨ l.length ≥ 8192 then none else some ⟨s, l ++ [ch], r, e⟩
  unfinished : s ≠ .done

theorem lineState_size : LineState .size .sizeLf where
  ends l r e := rfl
  byte l r e ch hcr := by
    show (if ch = cr then _ else _) = _
    rw [if_neg hcr]
  unfinished := nofun

theorem lineState_trailer : LineState .trailer .trailerLf where
  ends l r e := rfl
  byte l r e ch hcr := by
    show (if ch = cr then _ else _) = _
    rw [if_neg hcr]
  unfinished := nofun

theorem not_reaches_nil (h : decoder.state ≠ .done) : ¬Reaches decoder [] x := by
  rintro ⟨last, hlast, hdone, -⟩
  cases hlast
  exact h hdone

theorem reaches_cons {ch : UInt8} :
    Reaches decoder (ch :: rest) x ↔ ∃ next, byteStep decoder ch = some next ∧ Reaches next rest x := by
  unfold Reaches
  rw [byteRun_cons]
  constructor
  · rintro ⟨last, hlast, hdone⟩
    obtain ⟨next, hnext, hrest⟩ := Option.bind_eq_some_iff.mp hlast
    exact ⟨next, hnext, last, hrest, hdone⟩
  · rintro ⟨next, hnext, last, hrest, hdone⟩
    exact ⟨last, Option.bind_eq_some_iff.mpr ⟨next, hnext, hrest⟩, hdone⟩

/-- A clean line within the limit is collected. -/
theorem LineState.collects (h : LineState s ended) : ∀ {line l : Bytes}, Unbroken line → l.length + line.length ≤ 8192 →
    Reaches ⟨ended, l ++ line, r, e⟩ rest x → Reaches ⟨s, l, r, e⟩ (line ++ cr :: rest) x
  | [], l, _, _, hrest => by
      rw [List.append_nil] at hrest
      exact reaches_cons.mpr ⟨_, h.ends l r e, hrest⟩
  | ch :: line, l, hclean, hlen, hrest => by
      rw [List.length_cons] at hlen
      have hstop : ¬(ch = lf ∨ l.length ≥ 8192) := by
        rintro (hlf | hfull)
        · exact hclean.head.2 hlf
        · omega
      have hstep := h.byte l r e ch hclean.head.1
      rw [if_neg hstop] at hstep
      refine reaches_cons.mpr ⟨_, hstep, ?_⟩
      apply h.collects hclean.tail
      · rw [List.length_append, List.length_singleton]
        omega
      · rw [List.append_assoc]
        exact hrest

/-- What is collected is a clean line within the limit. -/
theorem LineState.collected (h : LineState s ended) : ∀ {bytes l : Bytes}, Reaches ⟨s, l, r, e⟩ bytes x → l.length ≤ 8192 →
    ∃ line more, bytes = line ++ cr :: more ∧ Unbroken line ∧ l.length + line.length ≤ 8192 ∧
      Reaches ⟨ended, l ++ line, r, e⟩ more x
  | [], _, hreach, _ => absurd hreach (not_reaches_nil h.unfinished)
  | ch :: rest, l, hreach, hl => by
      obtain ⟨next, hnext, hrest⟩ := reaches_cons.mp hreach
      by_cases hcr : ch = cr
      · rw [hcr, h.ends] at hnext
        cases hnext
        exact ⟨[], rest, by rw [hcr]; rfl, nofun, hl, by rw [List.append_nil]; exact hrest⟩
      rw [h.byte l r e ch hcr] at hnext
      by_cases hstop : ch = lf ∨ l.length ≥ 8192
      · rw [if_pos hstop] at hnext
        cases hnext
      rw [if_neg hstop] at hnext
      cases hnext
      rw [not_or] at hstop
      have hlen : (l ++ [ch]).length = l.length + 1 := by rw [List.length_append, List.length_singleton]
      obtain ⟨line, more, hbytes, hclean, hwithin, hmore⟩ := h.collected hrest (by omega)
      refine ⟨ch :: line, more, by rw [hbytes]; rfl, hclean.cons hcr hstop.1, ?_, ?_⟩
      · rw [List.length_cons]
        omega
      · rw [List.append_assoc] at hmore
        exact hmore

theorem reaches_sizeLf :
    Reaches ⟨.sizeLf, l, r, e⟩ bytes x ↔ ∃ more n, bytes = lf :: more ∧ chunkSize l = some n ∧
      Reaches ⟨if n ≠ 0 then .data else .trailer, [], n, e⟩ more x := by
  constructor
  · intro h
    cases bytes with
    | nil => exact absurd h (not_reaches_nil nofun)
    | cons ch rest =>
        obtain ⟨next, hnext, hrest⟩ := reaches_cons.mp h
        change (if ch ≠ lf then none else _) = _ at hnext
        by_cases hlf : ch = lf
        · rw [if_neg (not_not.mpr hlf)] at hnext
          dsimp only at hnext
          cases hsize : chunkSize l with
          | none =>
              rw [hsize] at hnext
              cases hnext
          | some n =>
              rw [hsize] at hnext
              cases hnext
              exact ⟨rest, n, by rw [hlf], rfl, hrest⟩
        · rw [if_pos hlf] at hnext
          cases hnext
  · rintro ⟨more, n, rfl, hsize, hrest⟩
    refine reaches_cons.mpr ⟨_, ?_, hrest⟩
    simp only [byteStep, feedByte, ne_eq, not_true_eq_false, if_false, hsize]

theorem reaches_crlf : Reaches ⟨.dataCr, l, r, e⟩ bytes x ↔ ∃ more, bytes = crlf ++ more ∧ Reaches ⟨.size, l, r, e⟩ more x := by
  constructor
  · intro h
    cases bytes with
    | nil => exact absurd h (not_reaches_nil nofun)
    | cons ch rest =>
        obtain ⟨next, hnext, hrest⟩ := reaches_cons.mp h
        change (if ch ≠ cr then none else _) = _ at hnext
        by_cases hcr : ch = cr
        · rw [if_neg (not_not.mpr hcr)] at hnext
          cases hnext
          cases rest with
          | nil => exact absurd hrest (not_reaches_nil nofun)
          | cons ch' more =>
              obtain ⟨next, hnext, hmore⟩ := reaches_cons.mp hrest
              change (if ch' ≠ lf then none else _) = _ at hnext
              by_cases hlf : ch' = lf
              · rw [if_neg (not_not.mpr hlf)] at hnext
                cases hnext
                exact ⟨more, by rw [hcr, hlf]; rfl, hmore⟩
              · rw [if_pos hlf] at hnext
                cases hnext
        · rw [if_pos hcr] at hnext
          cases hnext
  · rintro ⟨more, rfl, h⟩
    exact reaches_cons.mpr ⟨_, rfl, reaches_cons.mpr ⟨_, rfl, h⟩⟩

theorem reaches_append {last : ChunkStream} (h : byteRun decoder bytes = some last) (hrest : Reaches last rest x) :
    Reaches decoder (bytes ++ rest) x := by
  obtain ⟨final, hfinal, hdone⟩ := hrest
  exact ⟨final, by rw [byteRun_append, h]; exact hfinal, hdone⟩

theorem reaches_data (hr : 0 < r) :
    Reaches ⟨.data, l, r, e⟩ bytes x ↔ ∃ data more, bytes = data ++ crlf ++ more ∧ data.length = r ∧
      Reaches ⟨.size, l, 0, e ++ data⟩ more x := by
  constructor
  · intro h
    by_cases hlen : bytes.length < r
    · -- the input ends inside the chunk
      exfalso
      by_cases hne : bytes = []
      · rw [hne] at h
        exact not_reaches_nil (show StreamState.data ≠ .done by decide) h
      obtain ⟨last, hlast, hdone, -⟩ := h
      rw [byteRun_data hne (Nat.le_of_lt hlen)] at hlast
      cases hlast
      change (if r - bytes.length = 0 then StreamState.dataCr else .data) = .done at hdone
      rw [if_neg (by omega)] at hdone
      cases hdone
    · have hturn := @byteRun_turn bytes l e r r hr (by omega) (Nat.le_refl r)
      rw [Nat.sub_self, if_pos rfl] at hturn
      unfold Reaches at h
      rw [hturn] at h
      obtain ⟨more, hmore, hrest⟩ := reaches_crlf.mp h
      refine ⟨bytes.take r, more, ?_, List.length_take_of_le (by omega), hrest⟩
      rw [List.append_assoc, ← hmore, List.take_append_drop]
  · rintro ⟨data, more, rfl, rfl, h⟩
    have hdata : byteRun ⟨.data, l, data.length, e⟩ data = some ⟨.dataCr, l, 0, e ++ data⟩ := by
      rw [byteRun_data (List.ne_nil_of_length_pos hr) (Nat.le_refl _), Nat.sub_self, if_pos rfl]
    rw [List.append_assoc]
    exact reaches_append hdata (reaches_crlf.mpr ⟨more, rfl, h⟩)

theorem reaches_trailerLf :
    Reaches ⟨.trailerLf, l, r, e⟩ bytes x ↔ ∃ more, bytes = lf :: more ∧
      ((l = [] ∧ e = x) ∨ (validFieldLine l = true ∧ Reaches ⟨.trailer, [], r, e⟩ more x)) := by
  constructor
  · intro h
    cases bytes with
    | nil => exact absurd h (not_reaches_nil nofun)
    | cons ch rest =>
        obtain ⟨next, hnext, hrest⟩ := reaches_cons.mp h
        change (if ch ≠ lf then none else if l = [] then _ else if validFieldLine l then _ else none) = _ at hnext
        by_cases hlf : ch = lf
        · rw [if_neg (not_not.mpr hlf)] at hnext
          refine ⟨rest, by rw [hlf], ?_⟩
          by_cases hempty : l = []
          · rw [if_pos hempty] at hnext
            cases hnext
            obtain ⟨last, hlast, -, hx⟩ := hrest
            rw [byteRun_done rfl] at hlast
            cases hlast
            exact Or.inl ⟨hempty, hx⟩
          rw [if_neg hempty] at hnext
          by_cases hvalid : validFieldLine l = true
          · rw [if_pos hvalid] at hnext
            cases hnext
            exact Or.inr ⟨hvalid, hrest⟩
          · rw [if_neg hvalid] at hnext
            cases hnext
        · rw [if_pos hlf] at hnext
          cases hnext
  · rintro ⟨more, rfl, h⟩
    refine reaches_cons.mpr ?_
    rcases h with ⟨rfl, rfl⟩ | ⟨hvalid, h⟩
    · exact ⟨_, rfl, _, byteRun_done rfl, rfl, rfl⟩
    · refine ⟨_, ?_, h⟩
      show (if l = [] then _ else if validFieldLine l then _ else none) = _
      rw [if_neg (validFieldLine_ne_nil hvalid), if_pos hvalid]

variable {t c d : Bytes} {lines : List Bytes}

theorem reaches_trailers (h : Trailers t lines) : Within 8192 lines → ∀ rest, Reaches ⟨.trailer, [], r, e⟩ (t ++ rest) e := by
  induction h with
  | last =>
      intro _ rest
      exact lineState_trailer.collects (show Unbroken [] from nofun) (by decide)
        (reaches_trailerLf.mpr ⟨rest, rfl, Or.inl ⟨rfl, rfl⟩⟩)
  | field hvalid ht ih =>
      rename_i line t lines
      intro hwithin rest
      have hbytes : line ++ crlf ++ t ++ rest = line ++ cr :: (lf :: (t ++ rest)) := by
        simp [crlf]
      rw [hbytes]
      apply lineState_trailer.collects (validFieldLine_unbroken hvalid)
      · rw [List.length_nil, Nat.zero_add]
        exact hwithin.head
      · exact reaches_trailerLf.mpr ⟨_, rfl, Or.inr ⟨hvalid, ih hwithin.tail rest⟩⟩

/-- **The stream decoder reads every body whose lines keep to 8192 bytes.** -/
theorem reaches_chunked (h : Chunked c d lines) : ∀ {r : Nat} {e : Bytes}, Within 8192 lines →
    ∀ rest, Reaches ⟨.size, [], r, e⟩ (c ++ rest) (e ++ d) := by
  induction h with
  | last hclean hsize ht =>
      rename_i line t lines
      intro r e hwithin rest
      have hbytes : line ++ crlf ++ t ++ rest = line ++ cr :: (lf :: (t ++ rest)) := by
        simp [crlf]
      rw [hbytes, List.append_nil]
      apply lineState_size.collects hclean
      · rw [List.length_nil, Nat.zero_add]
        exact hwithin.head
      · exact reaches_sizeLf.mpr ⟨_, 0, rfl, hsize, reaches_trailers ht hwithin.tail rest⟩
  | chunk hclean hdata hsize hc ih =>
      rename_i line data c d lines
      intro r e hwithin rest
      have hbytes : line ++ crlf ++ (data ++ crlf ++ c) ++ rest =
          line ++ cr :: (lf :: (data ++ crlf ++ (c ++ rest))) := by
        simp [crlf]
      have hpos : 0 < data.length := List.length_pos_iff.mpr hdata
      have hrest : Reaches ⟨.size, [], 0, e ++ data⟩ (c ++ rest) (e ++ (data ++ d)) := by
        rw [← List.append_assoc]
        exact ih hwithin.tail rest
      rw [hbytes]
      apply lineState_size.collects hclean
      · rw [List.length_nil, Nat.zero_add]
        exact hwithin.head
      · refine reaches_sizeLf.mpr ⟨_, data.length, rfl, hsize, ?_⟩
        rw [if_pos (Nat.ne_of_gt hpos)]
        exact (reaches_data hpos).mpr ⟨data, _, rfl, rfl, hrest⟩

theorem trailers_of_reaches : ∀ (k : Nat) {bytes : Bytes}, bytes.length ≤ k → Reaches ⟨.trailer, [], r, e⟩ bytes x →
    x = e ∧ ∃ t lines rest, bytes = t ++ rest ∧ Trailers t lines ∧ Within 8192 lines := by
  intro k
  induction k with
  | zero =>
      intro bytes hk h
      rw [List.length_eq_zero_iff.mp (Nat.le_zero.mp hk)] at h
      exact absurd h (not_reaches_nil nofun)
  | succ k ih =>
      intro bytes hk h
      obtain ⟨line, more, rfl, hclean, hlen, hmore⟩ := lineState_trailer.collected h (by decide)
      obtain ⟨more, rfl, hend⟩ := reaches_trailerLf.mp hmore
      rw [List.length_append, List.length_cons, List.length_cons] at hk
      rw [List.length_nil, Nat.zero_add] at hlen
      rcases hend with ⟨hempty, hx⟩ | ⟨hvalid, hrest⟩
      · have hempty' : line = [] := hempty
        rw [hempty']
        exact ⟨hx.symm, crlf, [], more, rfl, .last, nofun⟩
      · obtain ⟨hx, t, lines, rest, hmore, ht, hwithin⟩ := ih (by omega) hrest
        refine ⟨hx, line ++ crlf ++ t, line :: lines, rest, ?_, .field hvalid ht, hwithin.cons hlen⟩
        rw [hmore]
        simp [crlf]

/-- **What the stream decoder reads is a body whose lines keep to 8192 bytes.** -/
theorem chunked_of_reaches : ∀ (k : Nat) {bytes e : Bytes} {r : Nat}, bytes.length ≤ k →
    Reaches ⟨.size, [], r, e⟩ bytes x →
    ∃ c d lines rest, bytes = c ++ rest ∧ x = e ++ d ∧ Chunked c d lines ∧ Within 8192 lines := by
  intro k
  induction k with
  | zero =>
      intro bytes e r hk h
      rw [List.length_eq_zero_iff.mp (Nat.le_zero.mp hk)] at h
      exact absurd h (not_reaches_nil nofun)
  | succ k ih =>
      intro bytes e r hk h
      obtain ⟨line, more, rfl, hclean, hlen, hmore⟩ := lineState_size.collected h (by decide)
      obtain ⟨more, n, rfl, hsize, hrest⟩ := reaches_sizeLf.mp hmore
      rw [List.length_append, List.length_cons, List.length_cons] at hk
      rw [List.length_nil, Nat.zero_add] at hlen
      by_cases hn : n = 0
      · subst hn
        obtain ⟨hx, t, lines, rest, hmore, ht, hwithin⟩ := trailers_of_reaches _ (Nat.le_refl _) hrest
        refine ⟨line ++ crlf ++ t, [], line :: lines, rest, ?_, ?_, .last hclean hsize ht, hwithin.cons hlen⟩
        · rw [hmore]
          simp [crlf]
        · rw [hx, List.append_nil]
      · rw [if_pos hn] at hrest
        obtain ⟨data, after, hmore, hdata, hrest⟩ := (reaches_data (Nat.pos_of_ne_zero hn)).mp hrest
        rw [hmore, List.length_append] at hk
        obtain ⟨c, d, lines, rest, hafter, hx, hc, hwithin⟩ := ih (by omega) hrest
        refine ⟨line ++ crlf ++ (data ++ crlf ++ c), data ++ d, line :: lines, rest, ?_, ?_,
          .chunk hclean (fun hnil => ?_) ?_ hc, hwithin.cons hlen⟩
        · rw [hmore, hafter]
          simp [crlf]
        · rw [hx, List.append_assoc]
        · rw [hnil] at hdata
          exact hn hdata.symm
        · rw [hdata]
          exact hsize

/-! ## The readers compared -/

/-- A buffer in memory: its length is a `size_t` below `SIZE_MAX`. -/
structure Buffer where
  bytes : Bytes
  fits : bytes.length < sizeMax

/-- What the three readers have to say of one another about a buffer. -/
structure ReadersAgree (b : Bytes) : Prop where
  /-- The buffered reader and the stream decoder succeed together, with the same result, however the input is cut. -/
  same : ∀ pieces : List Bytes, pieces.flatten = b → ∀ d,
    (∃ left, decodeChunked b = some (d, left)) ↔
      ∃ decoder, streamPieces .fresh pieces = some decoder ∧ decoder.state = .done ∧ decoder.emitted = d
  /-- What the buffered reader decodes is complete, and not before its last byte. -/
  complete : ∀ d left, decodeChunked b = some (d, left) → chunkedBodyComplete b = true ∧
    ∀ consumed p, b = consumed ++ left → p <+: consumed → p ≠ consumed → chunkedBodyComplete p = false

/-- The body at the head of the buffer, if there is one, has no line of 8193 bytes as its longest. -/
def ShortLines (b : Bytes) : Prop :=
  ∀ c d lines rest, b = c ++ rest → Chunked c d lines → Within 8193 lines → ∀ line ∈ lines, line.length ≠ 8193

theorem decodeChunked_iff {b : Buffer} {left : Bytes} :
    decodeChunked b.bytes = some (d, left) ↔
      ∃ c lines, b.bytes = c ++ left ∧ Chunked c d lines ∧ Within 8193 lines := by
  unfold decodeChunked
  rw [if_neg (Nat.ne_of_lt b.fits)]
  constructor
  · exact readChunks_some
  · rintro ⟨c, lines, hbytes, hc, hwithin⟩
    rw [hbytes]
    apply readChunks_chunked hc _ hwithin
    rw [List.length_append]
    omega

theorem streamPieces_iff {b : Buffer} {pieces : List Bytes} (hpieces : pieces.flatten = b.bytes) :
    (∃ decoder, streamPieces .fresh pieces = some decoder ∧ decoder.state = .done ∧ decoder.emitted = d) ↔
      ∃ c lines left, b.bytes = c ++ left ∧ Chunked c d lines ∧ Within 8192 lines := by
  have hrun : streamPieces .fresh pieces = byteRun .fresh b.bytes := by
    rw [← hpieces]
    have hready : ChunkStream.fresh.Ready := fun hdata => absurd hdata (by decide)
    apply streamPieces_eq_byteRun hready
    rw [hpieces]
    show 0 + b.bytes.length ≤ sizeMax
    have hfits := b.fits
    omega
  rw [hrun]
  constructor
  · intro h
    obtain ⟨c, d', lines, left, hbytes, hd, hc, hwithin⟩ := chunked_of_reaches _ (Nat.le_refl _) h
    have hd' : d = d' := hd
    rw [hd']
    exact ⟨c, lines, left, hbytes, hc, hwithin⟩
  · rintro ⟨c, lines, left, hbytes, hc, hwithin⟩
    rw [hbytes]
    exact reaches_chunked hc hwithin left

/-- **What is decoded is complete, and no proper part of it is.** -/
theorem decodeChunked_complete {b : Buffer} {left : Bytes} (h : decodeChunked b.bytes = some (d, left)) :
    chunkedBodyComplete b.bytes = true ∧
      ∀ consumed p, b.bytes = consumed ++ left → p <+: consumed → p ≠ consumed → chunkedBodyComplete p = false := by
  obtain ⟨c, lines, hbytes, hc, -⟩ := decodeChunked_iff.mp h
  constructor
  · rw [chunkedBodyComplete, hbytes]
    apply completeChunks_chunked hc
    rw [List.length_append]
    omega
  · intro consumed p hconsumed hp hne
    have hsame : consumed = c := List.append_cancel_right (hconsumed.symm.trans hbytes)
    rw [hsame] at hp hne
    exact completeChunks_prefix hc hp hne

theorem not_readersAgree {b : Buffer} {left line : Bytes} (hbytes : b.bytes = c ++ left) (hc : Chunked c d lines)
    (hwithin : Within 8193 lines) (hline : line ∈ lines) (hlong : line.length = 8193) : ¬ReadersAgree b.bytes := by
  intro h
  have hflat : [b.bytes].flatten = b.bytes := by rw [List.flatten_singleton]
  have hdecoded : ∃ left, decodeChunked b.bytes = some (d, left) :=
    ⟨left, decodeChunked_iff.mpr ⟨c, lines, hbytes, hc, hwithin⟩⟩
  obtain ⟨c', lines', left', hbytes', hc', hwithin'⟩ := (streamPieces_iff hflat).mp ((h.same [b.bytes] hflat d).mp hdecoded)
  have hlines : lines = lines' := hc.unique hc' (hbytes.symm.trans hbytes')
  rw [hlines] at hline
  have hshort := hwithin' line hline
  omega

/-- **The readers agree on every buffer but those whose body has a longest line of 8193 bytes**: `decode_chunked` tests
    a line before it counts the byte, and takes one byte more than the stream decoder has room for. -/
theorem chunkReaders_agree_iff (b : Buffer) : ReadersAgree b.bytes ↔ ShortLines b.bytes := by
  constructor
  · intro h c d lines left hbytes hc hwithin line hline hlong
    exact not_readersAgree hbytes hc hwithin hline hlong h
  · intro hshort
    refine ⟨?_, fun d left h => decodeChunked_complete h⟩
    intro pieces hpieces d
    rw [streamPieces_iff hpieces]
    constructor
    · rintro ⟨left, h⟩
      obtain ⟨c, lines, hbytes, hc, hwithin⟩ := decodeChunked_iff.mp h
      refine ⟨c, lines, left, hbytes, hc, fun line hline => ?_⟩
      have hle := hwithin line hline
      have hne := hshort c d lines left hbytes hc hwithin line hline
      omega
    · rintro ⟨c, lines, left, hbytes, hc, hwithin⟩
      exact ⟨left, decodeChunked_iff.mpr ⟨c, lines, hbytes, hc, fun line hline => Nat.le_succ_of_le (hwithin line hline)⟩⟩

/-- A last chunk whose size line has 8193 bytes: `0;aa…a`. -/
def longExtension : Buffer where
  bytes := (48 :: 59 :: List.replicate 8191 97) ++ crlf ++ crlf
  fits := by
    simp only [List.length_append, List.length_cons, List.length_replicate]
    decide

theorem longExtension_disagree : ¬ReadersAgree longExtension.bytes := by
  have hclean : Unbroken (48 :: 59 :: List.replicate 8191 97) := by
    apply Unbroken.cons (by decide) (by decide)
    apply Unbroken.cons (by decide) (by decide)
    intro ch hch
    rw [List.eq_of_mem_replicate hch]
    decide
  have hlen : (48 :: 59 :: List.replicate 8191 97 : Bytes).length = 8193 := by
    rw [List.length_cons, List.length_cons, List.length_replicate]
  have hbody := Chunked.last hclean (by rfl) Trailers.last
  have hwithin : Within 8193 [48 :: 59 :: List.replicate 8191 97] := by
    apply Within.cons (Nat.le_of_eq hlen)
    nofun
  exact not_readersAgree (List.append_nil _).symm hbody hwithin List.mem_cons_self hlen

end Vnt.Net
