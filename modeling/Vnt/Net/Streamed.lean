import Vnt.Net.Delivery

/-!
# `Vnt.Net.Streamed`: delivery to a sink

The header block is read into a buffer of at most 65536 bytes; what comes behind it goes to the sink piece by piece. One
lemma says what a piece does to what is still owed, and the loop follows by induction on the reads.
-/

namespace Vnt.Net

variable {method : Option Bytes} {reads : Nat → Nat} {h : Headers} {redirectCount : Nat} {head : ResponseHead}
  {decoder : ChunkStream} {piece rest pending raw d : Bytes} {chunked : Bool} {x : Exchange}

/-! ## The header block -/

theorem streamHead_some : ∀ {fuel i cap : Nat} {raw pending : Bytes} {j : Nat} {raw' pending' : Bytes},
    streamHead method reads fuel i cap raw pending = some (h, j, raw', pending') → raw.length ≤ cap → cap ≤ streamLimit →
    raw ++ pending = raw' ++ pending' ∧ raw'.length ≤ streamLimit ∧ parseResponseHeaders raw' method = .accepted h
  | 0, _, _, _, _, _, _, _, hrun, _, _ => nomatch hrun
  | fuel + 1, i, cap, raw, pending, j, raw', pending', hrun, hraw, hcap => by
      rw [streamHead] at hrun
      cases hroom : makeRoom streamLimit cap raw.length with
      | none =>
          rw [hroom] at hrun
          cases hrun
      | some next =>
          obtain ⟨hnext, hnextLe⟩ := makeRoom_le hcap hroom
          rw [hroom] at hrun
          simp only at hrun
          by_cases hnil : pending = []
          · rw [if_pos hnil] at hrun
            cases hrun
          rw [if_neg hnil] at hrun
          obtain ⟨amount, hamount⟩ : ∃ amount, min (reads i + 1) (next - raw.length) = amount := ⟨_, rfl⟩
          rw [hamount] at hrun
          have hsplit : raw ++ pending = (raw ++ pending.take amount) ++ pending.drop amount := by
            rw [List.append_assoc, List.take_append_drop]
          have hlen : (raw ++ pending.take amount).length ≤ next := by
            rw [List.length_append, List.length_take]
            omega
          cases hparse : parseResponseHeaders (raw ++ pending.take amount) method with
          | malformed =>
              rw [hparse] at hrun
              cases hrun
          | incomplete =>
              rw [hparse] at hrun
              rw [hsplit]
              exact streamHead_some hrun hlen hnextLe
          | accepted found =>
              rw [hparse] at hrun
              cases hrun
              exact ⟨hsplit, Nat.le_trans hlen hnextLe, hparse⟩

/-- **A header block within the limit is read.** -/
theorem streamHead_reads : ∀ {fuel i cap : Nat} {raw pending body : Bytes}, pending.length < fuel → raw.length ≤ cap →
    0 < cap → cap ≤ streamLimit → raw.length < head.render.length → head.render.length ≤ streamLimit →
    raw ++ pending = head.render ++ body → ∃ r, streamHead method reads fuel i cap raw pending = some r
  | 0, _, _, _, _, _, hfuel, _, _, _, _, _, _ => absurd hfuel (Nat.not_lt_zero _)
  | fuel + 1, i, cap, raw, pending, body, hfuel, hraw, hpos, hcap, hshort, hlimit, hbytes => by
      obtain ⟨next, hnext, hroom, hnextLe⟩ := makeRoom_some hraw (Nat.lt_of_lt_of_le hshort hlimit) hpos hcap (by decide)
      have hnil : pending ≠ [] := by
        rintro rfl
        have hlen := congrArg List.length hbytes
        rw [List.append_nil, List.length_append] at hlen
        omega
      rw [streamHead, hnext]
      simp only
      rw [if_neg hnil]
      obtain ⟨amount, hamount⟩ : ∃ amount, min (reads i + 1) (next - raw.length) = amount := ⟨_, rfl⟩
      rw [hamount]
      have hsplit : (raw ++ pending.take amount) ++ pending.drop amount = head.render ++ body := by
        rw [List.append_assoc, List.take_append_drop]
        exact hbytes
      cases hparse : parseResponseHeaders (raw ++ pending.take amount) method with
      | malformed => exact absurd hparse (parse_not_malformed ⟨_, hsplit⟩)
      | accepted found => exact ⟨_, rfl⟩
      | incomplete =>
          apply @streamHead_reads fuel (i + 1) next _ _ body
          · have hlen := List.length_pos_iff.mpr hnil
            rw [List.length_drop]
            omega
          · rw [List.length_append, List.length_take]
            omega
          · omega
          · exact hnextLe
          · -- what is not accepted ends inside the block
            by_contra hlong
            rw [not_lt] at hlong
            rcases List.append_eq_append_iff.mp hsplit with ⟨more, hmore, -⟩ | ⟨more, hmore, -⟩
            · have hlen := congrArg List.length hmore
              rw [List.length_append] at hlen
              have hempty : more = [] := List.length_eq_zero_iff.mp (by omega)
              have haccepted := parse_head head [] method
              rw [hempty, List.append_nil] at hmore
              rw [List.append_nil, hmore, hparse] at haccepted
              cases haccepted
            · have haccepted := parse_head head more method
              rw [← hmore, hparse] at haccepted
              cases haccepted
          · exact hlimit
          · exact hsplit

/-! ## The body -/

/-- The bytes that are still to come complete the body, and `d` will have gone to the sink. -/
def Owes (h : Headers) (chunked : Bool) (decoder : ChunkStream) (bytes d : Bytes) : Prop :=
  if chunked then Reaches decoder bytes d
  else if h.hasContentLength then
    h.contentLength ≤ decoder.emitted.length + bytes.length ∧
      d = decoder.emitted ++ bytes.take (h.contentLength - decoder.emitted.length)
  else d = decoder.emitted ++ bytes

/-- The decoder can take the bytes. -/
def Roomy (decoder : ChunkStream) (bytes : Bytes) : Prop :=
  decoder.Ready ∧ decoder.emitted.length + bytes.length ≤ sizeMax

theorem streamEmit_room (hroom : decoder.emitted.length + piece.length ≤ sizeMax) :
    streamEmit decoder piece = some { decoder with emitted := decoder.emitted ++ piece } := by
  unfold streamEmit
  by_cases hnil : piece = []
  · rw [if_pos hnil, hnil, List.append_nil]
  · rw [if_neg hnil, if_neg (by omega)]

/-- **What a piece does to what is owed.** -/
theorem streamPiece_spec (hroom : Roomy decoder (piece ++ rest)) :
    match streamPiece h chunked decoder piece with
    | none => ∀ d, ¬Owes h chunked decoder (piece ++ rest) d
    | some (decoder', true) => ∀ d, Owes h chunked decoder (piece ++ rest) d ↔ decoder'.emitted = d
    | some (decoder', false) =>
        Roomy decoder' rest ∧ ∀ d, Owes h chunked decoder (piece ++ rest) d ↔ Owes h chunked decoder' rest d := by
  obtain ⟨hready, hfits⟩ := hroom
  rw [List.length_append] at hfits
  unfold streamPiece Owes
  cases chunked with
  | true =>
      simp only [if_true]
      have hfeed : streamFeedChunked decoder piece = byteRun decoder piece :=
        feedLoop_eq_byteRun (Nat.le_refl _) hready (by omega)
      rw [hfeed]
      cases hrun : byteRun decoder piece with
      | none =>
          simp only [Option.map_none]
          rintro d ⟨last, hlast, -⟩
          rw [byteRun_append, hrun] at hlast
          cases hlast
      | some next =>
          obtain ⟨hlen, hready'⟩ := byteRun_frame hrun hready
          have hreach : ∀ d, Reaches decoder (piece ++ rest) d ↔ Reaches next rest d := by
            intro d
            unfold Reaches
            rw [byteRun_append, hrun]
            rfl
          simp only [Option.map_some]
          by_cases hdone : next.state = .done
          · rw [decide_eq_true hdone]
            intro d
            rw [hreach]
            constructor
            · rintro ⟨last, hlast, -, hemitted⟩
              rw [byteRun_done hdone] at hlast
              cases hlast
              exact hemitted
            · intro hemitted
              exact ⟨next, byteRun_done hdone, hdone, hemitted⟩
          · rw [decide_eq_false hdone]
            exact ⟨⟨hready', by omega⟩, hreach⟩
  | false =>
      simp only [Bool.false_eq_true, if_false]
      cases hhas : h.hasContentLength with
      | true =>
          simp only [if_true]
          obtain ⟨owed, howed⟩ : ∃ owed, h.contentLength - decoder.emitted.length = owed := ⟨_, rfl⟩
          have htake : piece.take (min piece.length owed) = piece.take owed := by
            rw [List.take_eq_take_iff]
            omega
          rw [howed, htake, streamEmit_room (by rw [List.length_take]; omega)]
          simp only [Option.map_some]
          by_cases hall : (decoder.emitted ++ piece.take owed).length ≥ h.contentLength
          · rw [decide_eq_true hall]
            intro d
            rw [List.length_append, List.length_take] at hall
            have hpiece : (piece ++ rest).take owed = piece.take owed :=
              List.take_append_of_le_length (by omega)
            rw [hpiece, List.length_append]
            constructor
            · rintro ⟨-, hd⟩
              exact hd.symm
            · intro hd
              exact ⟨by omega, hd.symm⟩
          · rw [decide_eq_false hall]
            rw [List.length_append, List.length_take] at hall
            have hpiece : piece.take owed = piece := List.take_of_length_le (by omega)
            rw [hpiece]
            refine ⟨⟨hready, by rw [List.length_append]; omega⟩, fun d => ?_⟩
            have hmore : h.contentLength - (decoder.emitted ++ piece).length = owed - piece.length := by
              rw [List.length_append]
              omega
            rw [hmore, List.take_append, hpiece, List.append_assoc, List.length_append, List.length_append, Nat.add_assoc]
      | false =>
          simp only [Bool.false_eq_true, if_false]
          rw [streamEmit_room (by omega)]
          simp only [Option.map_some]
          refine ⟨⟨hready, by rw [List.length_append]; omega⟩, fun d => ?_⟩
          rw [List.append_assoc]

theorem streamEnd_spec : Owes h chunked decoder [] d ↔ streamEnd h chunked decoder = true ∧ decoder.emitted = d := by
  unfold Owes streamEnd
  cases chunked with
  | true =>
      simp only [if_true, decide_eq_true_eq]
      constructor
      · rintro ⟨last, hlast, hdone, hemitted⟩
        cases hlast
        exact ⟨hdone, hemitted⟩
      · rintro ⟨hdone, hemitted⟩
        exact ⟨decoder, rfl, hdone, hemitted⟩
  | false =>
      simp only [Bool.false_eq_true, if_false]
      cases h.hasContentLength with
      | true =>
          simp only [if_true, List.take_nil, List.append_nil, List.length_nil, Nat.add_zero, ge_iff_le, decide_eq_true_eq]
          exact and_congr_right fun _ => eq_comm
      | false =>
          simp only [Bool.false_eq_true, if_false, List.append_nil, true_and]
          exact eq_comm

/-- **The loop over the body delivers what is owed, and fails when nothing is.** -/
theorem streamBody_spec : ∀ {fuel i : Nat} {decoder : ChunkStream} {pending d : Bytes}, pending.length < fuel →
    Roomy decoder pending →
    ((∃ last unread, streamBody h chunked reads fuel i decoder pending = some (last, unread) ∧ last.emitted = d) ↔
      Owes h chunked decoder pending d)
  | 0, _, _, _, _, hfuel, _ => absurd hfuel (Nat.not_lt_zero _)
  | fuel + 1, i, decoder, pending, d, hfuel, hroom => by
      rw [streamBody]
      by_cases hnil : pending = []
      · rw [if_pos hnil, hnil, streamEnd_spec]
        by_cases hend : streamEnd h chunked decoder = true
        · rw [if_pos hend]
          constructor
          · rintro ⟨last, unread, hlast, hemitted⟩
            cases hlast
            exact ⟨hend, hemitted⟩
          · rintro ⟨-, hemitted⟩
            exact ⟨decoder, [], rfl, hemitted⟩
        · rw [if_neg hend]
          constructor
          · rintro ⟨last, unread, hlast, -⟩
            cases hlast
          · rintro ⟨hend', -⟩
            exact absurd hend' hend
      rw [if_neg hnil]
      obtain ⟨amount, hamount⟩ : ∃ amount, min (reads i + 1) 65536 = amount := ⟨_, rfl⟩
      simp only
      rw [hamount]
      have hsplit : pending = pending.take amount ++ pending.drop amount := (List.take_append_drop amount pending).symm
      have hroom' : Roomy decoder (pending.take amount ++ pending.drop amount) := by
        rw [← hsplit]
        exact hroom
      have hpiece := @streamPiece_spec h decoder (pending.take amount) (pending.drop amount) chunked hroom'
      rw [← hsplit] at hpiece
      cases hresult : streamPiece h chunked decoder (pending.take amount) with
      | none =>
          rw [hresult] at hpiece
          constructor
          · rintro ⟨last, unread, hlast, -⟩
            cases hlast
          · intro howes
            exact absurd howes (hpiece d)
      | some r =>
          obtain ⟨next, complete⟩ := r
          rw [hresult] at hpiece
          cases complete with
          | true =>
              simp only
              rw [hpiece d]
              constructor
              · rintro ⟨last, unread, hlast, hemitted⟩
                cases hlast
                exact hemitted
              · intro hemitted
                exact ⟨next, _, rfl, hemitted⟩
          | false =>
              simp only
              rw [hpiece.2 d]
              apply streamBody_spec _ hpiece.1
              have hlen := List.length_pos_iff.mpr hnil
              rw [List.length_drop]
              omega

theorem fresh_roomy {bytes : Bytes} (hfits : bytes.length < sizeMax) : Roomy .fresh bytes := by
  refine ⟨fun hdata => absurd hdata (by decide), ?_⟩
  show 0 + bytes.length ≤ sizeMax
  omega

/-- A response that is followed, or has no body, leaves the connection alone. -/
theorem streamRest_skipped {i : Nat} {arrived : Bytes}
    (hskip : (redirectStatus head.code = true ∧ redirectCount < 10) ∨ responseNoBody method head.code = true) :
    streamRest redirectCount (head.headers method) reads i (head.render ++ arrived) pending = some (.fresh, pending) := by
  unfold streamRest
  by_cases hfollow : redirectStatus (head.headers method).statusCode = true ∧ redirectCount < 10
  · exact if_pos hfollow
  · rw [if_neg hfollow]
    exact if_pos (hskip.resolve_left hfollow)

/-- A length of zero owes nothing. -/
theorem owes_zero {bytes : Bytes}
    (hzero : (head.headers method).hasContentLength = true ∧ (head.headers method).contentLength = 0) :
    Owes (head.headers method) head.chunked .fresh bytes d ↔ d = [] := by
  have hplain : head.chunked = false := by
    have hsome : head.contentLength.isSome = true := hzero.1
    rw [contentLength_isSome] at hsome
    exact head.exclusive hsome
  unfold Owes
  rw [hplain, if_neg Bool.false_ne_true, if_pos hzero.1, hzero.2]
  constructor
  · rintro ⟨-, hd⟩
    exact hd
  · intro hd
    exact ⟨Nat.zero_le _, hd⟩

/-- The bytes that came with the header block, and the others. -/
theorem streamRest_spec {i : Nat} {arrived : Bytes} (hstays : ¬(redirectStatus head.code = true ∧ redirectCount < 10))
    (hbody : responseNoBody method head.code = false) (hfits : (arrived ++ pending).length < sizeMax) :
    (∃ last unread, streamRest redirectCount (head.headers method) reads i (head.render ++ arrived) pending =
        some (last, unread) ∧ last.emitted = d) ↔
      Owes (head.headers method) head.chunked .fresh (arrived ++ pending) d := by
  have hbody' : ¬((head.headers method).noBody = true) := by
    show ¬(responseNoBody method head.code = true)
    rw [hbody]
    exact Bool.false_ne_true
  have hstays' : ¬(redirectStatus (head.headers method).statusCode = true ∧ redirectCount < 10) := hstays
  unfold streamRest
  rw [if_neg hstays', if_neg hbody']
  simp only
  rw [chunkedResponse_head, drop_head]
  by_cases hnil : arrived = []
  · rw [if_neg (not_not.mpr hnil), hnil, List.nil_append]
    rw [hnil, List.nil_append] at hfits
    by_cases hzero : (head.headers method).hasContentLength = true ∧ (head.headers method).contentLength = 0
    · rw [if_pos hzero, owes_zero hzero]
      constructor
      · rintro ⟨last, unread, hlast, rfl⟩
        cases hlast
        rfl
      · intro hd
        exact ⟨.fresh, pending, rfl, hd.symm⟩
    · rw [if_neg hzero]
      exact streamBody_spec (Nat.lt_succ_self _) (fresh_roomy hfits)
  · rw [if_pos hnil]
    have hpiece := @streamPiece_spec (head.headers method) .fresh arrived pending head.chunked (fresh_roomy hfits)
    cases hresult : streamPiece (head.headers method) head.chunked .fresh arrived with
    | none =>
        rw [hresult] at hpiece
        constructor
        · rintro ⟨last, unread, hlast, -⟩
          cases hlast
        · intro howes
          exact absurd howes (hpiece d)
    | some r =>
        obtain ⟨next, complete⟩ := r
        rw [hresult] at hpiece
        cases complete with
        | true =>
            simp only
            rw [hpiece d]
            constructor
            · rintro ⟨last, unread, hlast, hemitted⟩
              cases hlast
              exact hemitted
            · intro hemitted
              exact ⟨next, _, rfl, hemitted⟩
        | false =>
            simp only
            rw [hpiece.2 d]
            exact streamBody_spec (Nat.lt_succ_self _) hpiece.1

/-! ## What is owed is the message -/

theorem owes_iff_complete {bytes : Bytes} (hbody : responseNoBody method head.code = false) (hfits : bytes.length < sizeMax) :
    Owes (head.headers method) head.chunked .fresh bytes d ↔ (head.framing method).Complete 8192 bytes d := by
  have hmax : sizeMax = 2 ^ 64 - 1 := rfl
  rcases framing_cases head method with ⟨-, hbody'⟩ | ⟨hframing, -, hchunked, -⟩ | ⟨n, hframing, -, hchunked, hlength⟩ |
    ⟨hframing, -, hchunked, hlength⟩
  · rw [hbody] at hbody'
    cases hbody'
  · rw [hframing, hchunked]
    constructor
    · intro h
      obtain ⟨c, d', lines, left, hbytes, hd, hc, hwithin⟩ := chunked_of_reaches _ (Nat.le_refl _) h
      rw [show d = d' from hd]
      exact ⟨c, lines, left, hbytes, hc, hwithin⟩
    · rintro ⟨c, lines, left, hbytes, hc, hwithin⟩
      rw [hbytes]
      exact reaches_chunked hc hwithin left
  · have hhas : (head.headers method).hasContentLength = true := by
      show head.contentLength.isSome = true
      rw [hlength]
      rfl
    have hkept : (head.headers method).contentLength = min n (2 ^ 64 - 1) := by
      show min (head.contentLength.getD 0) (2 ^ 64 - 1) = _
      rw [hlength]
      rfl
    rw [hframing, hchunked]
    unfold Owes
    rw [if_neg Bool.false_ne_true, if_pos hhas, hkept]
    show min n (2 ^ 64 - 1) ≤ 0 + bytes.length ∧ d = bytes.take (min n (2 ^ 64 - 1) - 0) ↔ n ≤ bytes.length ∧ d = bytes.take n
    rw [Nat.zero_add, Nat.sub_zero]
    constructor
    · rintro ⟨hle, hd⟩
      have hmin : min n (2 ^ 64 - 1) = n := by omega
      rw [hmin] at hle hd
      exact ⟨hle, hd⟩
    · rintro ⟨hle, hd⟩
      have hmin : min n (2 ^ 64 - 1) = n := by omega
      rw [hmin]
      exact ⟨hle, hd⟩
  · have hhas : ¬((head.headers method).hasContentLength = true) := by
      show ¬(head.contentLength.isSome = true)
      rw [hlength]
      exact Bool.false_ne_true
    rw [hframing, hchunked]
    unfold Owes
    rw [if_neg Bool.false_ne_true, if_neg hhas]
    exact Iff.rfl

/-- What is behind the loop, for a response that stays. -/
theorem finishStream_head {emitted : Bytes} (hstays : redirectTarget redirectCount (head.headers method) head.render = none)
    (hlength : head.contentLength.isSome = true → responseNoBody method head.code = false →
      min (head.contentLength.getD 0) (2 ^ 64 - 1) ≤ emitted.length) :
    finishStream method redirectCount head.render emitted = .delivered head.code emitted := by
  have hparse := parse_head head [] method
  rw [List.append_nil] at hparse
  unfold finishStream
  rw [hparse]
  simp only
  rw [if_neg, hstays]
  · rfl
  · rintro ⟨hhas, hshort, hbody, -⟩
    have hle := hlength hhas hbody
    have hshort' : emitted.length < min (head.contentLength.getD 0) (2 ^ 64 - 1) := hshort
    omega

/-- **Streamed delivery is exact.** -/
theorem streamed_exact (hplain : x.Plain true) (reads : Nat → Nat) :
    x.Exact true (receiveStream x.method x.redirectCount reads x.received).outcome := by
  have hsettled := hplain.settled rfl
  unfold receiveStream
  cases hhead : streamHead x.method reads (x.received.length + 1) 0 8192 [] x.received with
  | none =>
      right
      refine ⟨?_, rfl⟩
      rintro ⟨d, hd, hlimit⟩
      rcases received_cases x with ⟨hclosed, -, -⟩ | ⟨-, hreceived⟩
      · exact absurd hd.1 (by omega)
      · have hpos : 0 < x.head.render.length := by
          rw [render_eq, List.length_append]
          exact Nat.lt_of_lt_of_le (by decide) (Nat.le_add_left _ _)
        obtain ⟨r, hr⟩ := @streamHead_reads x.method reads x.head (x.received.length + 1) 0 8192 [] x.received x.arrived
          (Nat.lt_succ_self _) (Nat.zero_le _) (by decide) (by decide) hpos (hlimit rfl) hreceived
        rw [hr] at hhead
        cases hhead
  | some r =>
      obtain ⟨h, i, raw, pending⟩ := r
      obtain ⟨hbytes, hlimit, hparse⟩ := streamHead_some hhead (Nat.zero_le _) (by decide)
      rw [List.nil_append] at hbytes
      obtain ⟨arrived, rest, rfl, hbody⟩ : ∃ arrived rest, raw = x.head.render ++ arrived ∧ x.body = arrived ++ rest := by
        have hpart : raw <+: x.head.render ++ x.body := (show raw <+: x.received from ⟨pending, hbytes.symm⟩).trans x.received_prefix
        rcases @part_cases x.method x.head raw x.body hpart with hincomplete | hbehind
        · rw [hincomplete] at hparse
          cases hparse
        · exact hbehind
      rw [parse_head] at hparse
      cases hparse
      obtain ⟨hclosed, harrived⟩ : x.head.render.length ≤ x.closed ∧ x.arrived = arrived ++ pending := by
        rcases received_cases x with ⟨-, hpart, hne⟩ | ⟨hclosed, hreceived⟩
        · exfalso
          have hlen := hpart.length_le
          rw [hbytes] at hlen
          simp only [List.length_append] at hlen
          have hnil : arrived = [] ∧ pending = [] :=
            ⟨List.length_eq_zero_iff.mp (by omega), List.length_eq_zero_iff.mp (by omega)⟩
          rw [hnil.1, hnil.2, List.append_nil, List.append_nil] at hbytes
          exact hne hbytes
        · rw [hbytes, List.append_assoc] at hreceived
          exact ⟨hclosed, (List.append_cancel_left hreceived).symm⟩
      have hhead' : x.head.render.length ≤ streamLimit := by
        rw [List.length_append] at hlimit
        omega
      have hfits := x.arrived_fits
      have hallowed : ∀ d, x.Admitted true d ↔ x.framing.Complete 8192 x.arrived d :=
        fun d => ⟨fun hd => hd.1.2, fun hd => ⟨⟨hclosed, hd⟩, fun _ => hhead'⟩⟩
      have htake : (x.head.render ++ arrived).take (x.head.headers x.method).headerLength = x.head.render := List.take_left
      have hstays := x.not_redirected []
      rw [List.append_nil] at hstays
      rw [harrived] at hfits hallowed
      unfold Exchange.Exact
      simp only [hallowed]
      by_cases hbody' : responseNoBody x.method x.head.code = true
      · -- a response without a body ends with its header block
        left
        refine ⟨[], ?_, ?_⟩
        · unfold Exchange.framing ResponseHead.framing
          rw [if_pos hbody']
          rfl
        · rw [streamRest_skipped (Or.inr hbody')]
          simp only
          rw [htake]
          apply finishStream_head hstays
          intro _ hno
          rw [hbody'] at hno
          cases hno
      · rw [Bool.not_eq_true] at hbody'
        have hspec := fun d => (@streamRest_spec x.method reads x.redirectCount x.head pending d i arrived hsettled hbody' hfits).trans
          (owes_iff_complete hbody' hfits)
        cases hrest : streamRest x.redirectCount (x.head.headers x.method) reads i (x.head.render ++ arrived) pending with
        | none =>
            right
            refine ⟨?_, rfl⟩
            rintro ⟨d, hd⟩
            obtain ⟨last, unread, hlast, -⟩ := (hspec d).mpr hd
            rw [hrest] at hlast
            cases hlast
        | some r =>
            obtain ⟨last, unread⟩ := r
            left
            have hcomplete := (hspec last.emitted).mp ⟨last, unread, hrest, rfl⟩
            refine ⟨last.emitted, hcomplete, ?_⟩
            simp only
            rw [htake]
            apply finishStream_head hstays
            intro hsome _
            rcases framing_cases x.head x.method with ⟨-, hno⟩ | ⟨-, -, -, hnone⟩ | ⟨n, hframing, -, -, hlength⟩ | ⟨-, -, -, hnone⟩
            · rw [hbody'] at hno
              cases hno
            · rw [hnone] at hsome
              cases hsome
            · rw [hframing] at hcomplete
              rw [hlength, hcomplete.2, List.length_take]
              show min n (2 ^ 64 - 1) ≤ _
              have hle := hcomplete.1
              omega
            · rw [hnone] at hsome
              cases hsome

/-! ## Both modes -/

/-- **A response is delivered exactly, buffered or to a sink**, for every way its bytes are cut into reads and every point at
    which the peer closes: what is delivered is the body of the message, and without a complete message the request fails. -/
theorem response_delivered (x : Exchange) (sink : Bool) (hplain : x.Plain sink) (reads : Nat → Nat) :
    x.Exact sink (receive sink x.method x.redirectCount reads x.received).outcome := by
  cases sink with
  | true => exact streamed_exact hplain reads
  | false => exact buffered_exact hplain reads

/-- `HTTP/1.1 200 OK` with the fields. -/
def okHead (fields : List Bytes) (fieldLines : ∀ line ∈ fields, fieldLine line = true)
    (unframed : ∀ line ∈ fields, isField "Content-Length" line = false) : ResponseHead where
  major := 49
  minor := 49
  hundreds := 50
  tens := 48
  units := 48
  reason := ascii " OK"
  fields := fields
  digits := http200_digits
  reasonChars := okReason_chars
  reasonSpace := okReason_space
  fieldLines := fieldLines
  lengths line hline hfield := by
    rw [unframed line hline] at hfield
    cases hfield
  exclusive hany := by
    obtain ⟨line, hline, hfield⟩ := List.any_eq_true.mp hany
    rw [unframed line hline] at hfield
    cases hfield

/-- A chunked response whose peer closes behind its last byte. -/
def chunkedExchange : Exchange where
  method := none
  redirectCount := 0
  head := okHead [ascii "Transfer-Encoding: chunked"] (by decide) (by decide)
  body := ascii "3\r\nabc\r\n0\r\n\r\n"
  closed := 100
  final := by decide
  stays h := absurd h (by decide)
  fits := by decide

theorem chunkedExchange_delivered : chunkedExchange.Plain true ∧
    chunkedExchange.Exact true (receive true none 0 (fun _ => 2) chunkedExchange.received).outcome := by
  have hplain : chunkedExchange.Plain true := ⟨nofun, nofun, nofun, nofun, fun _ => by decide⟩
  exact ⟨hplain, response_delivered chunkedExchange true hplain fun _ => 2⟩

/-- A field of `n + 2` bytes. -/
def longField (n : Nat) : Bytes := 97 :: 58 :: List.replicate n 98

theorem longField_line (n : Nat) : fieldLine (longField n) = true ∧ isField "Content-Length" (longField n) = false ∧
    chunkedField (longField n) = false := by
  have hname : colon ∉ [97] := by decide
  have hsplit : splitColon (longField n) = some ([97], List.replicate n 98) := splitColon_name hname (List.replicate n 98)
  refine ⟨?_, ?_, ?_⟩
  · unfold fieldLine
    rw [hsplit]
    show decide _ = true
    rw [decide_eq_true_iff]
    refine ⟨by decide, by decide, ?_⟩
    rw [List.all_eq_true]
    intro c hc
    rw [List.eq_of_mem_replicate hc]
    decide
  · unfold isField fieldName
    rw [hsplit]
    show sameFold [97] (ascii "Content-Length") = false
    decide
  · unfold chunkedField fieldHasToken
    rw [hsplit]
    have hname : sameFold [97] (ascii "Transfer-Encoding") = false := by decide
    show (sameFold [97] (ascii "Transfer-Encoding") && _) = false
    rw [hname, Bool.false_and]

/-- `HTTP/1.1 200 OK` with a field of `n + 2` bytes. -/
def longHead (n : Nat) : ResponseHead :=
  okHead [longField n]
    (fun line hline => by rw [List.mem_singleton.mp hline]; exact (longField_line n).1)
    (fun line hline => by rw [List.mem_singleton.mp hline]; exact (longField_line n).2.1)

theorem length_longHead (n : Nat) : (longHead n).render.length = n + 23 := by
  have hstatus : (longHead n).statusLine.length = 15 := rfl
  have hlines : (longHead n).lines = [(longHead n).statusLine, longField n] := rfl
  have hfield : (longField n).length = n + 2 := by
    rw [longField, List.length_cons, List.length_cons, List.length_replicate]
  have hcrlf : crlf.length = 2 := rfl
  rw [render_eq, hlines]
  simp only [List.flatMap_cons, List.flatMap_nil, List.length_append, List.length_nil, hstatus, hfield, hcrlf]
  omega

/-- A response with a long field, whose body ends where the peer closes. -/
def longHeadExchange : Exchange where
  method := none
  redirectCount := 0
  head := longHead 65536
  body := ascii "hello"
  closed := 100000
  final := by decide
  stays h := absurd h (by decide)
  fits := by
    rw [List.length_append, length_longHead]
    decide

theorem longHead_framing (n : Nat) : (longHead n).framing none = .toClose := by
  have hfields : (longHead n).fields = [longField n] := rfl
  rcases framing_cases (longHead n) none with ⟨-, hbody⟩ | ⟨-, -, hchunked, -⟩ | ⟨m, -, -, -, hlength⟩ | ⟨hframing, -⟩
  · exact absurd hbody (by decide : ¬responseNoBody none 200 = true)
  · rw [ResponseHead.chunked, hfields, List.any_cons, (longField_line n).2.2] at hchunked
    cases hchunked
  · have hsome := contentLength_isSome (longHead n)
    rw [hlength, hfields, List.any_cons, (longField_line n).2.1] at hsome
    cases hsome
  · exact hframing

/-- A header block above the limit is not read to its end. -/
theorem streamHead_refuses {fuel : Nat} {bytes body : Bytes} (hlong : streamLimit < head.render.length)
    (hpart : bytes <+: head.render ++ body) : streamHead method reads fuel 0 8192 [] bytes = none := by
  cases hrun : streamHead method reads fuel 0 8192 [] bytes with
  | none => rfl
  | some r =>
      obtain ⟨h, j, raw, pending⟩ := r
      obtain ⟨hbytes, hlimit, hparse⟩ := streamHead_some hrun (Nat.zero_le _) (by decide)
      have hraw : raw <+: bytes := ⟨pending, hbytes.symm⟩
      rcases @part_cases method head raw body (hraw.trans hpart) with hincomplete | ⟨arrived, rest, rfl, -⟩
      · rw [hincomplete] at hparse
        cases hparse
      · rw [List.length_append] at hlimit
        omega

/-- The complete response arrives, and the request fails: the header block does not fit the buffer of a streamed response. -/
theorem longHeadExchange_refused : (∃ d, longHeadExchange.Complete 8192 d) ∧
    (receive true none 0 (fun _ => 0) longHeadExchange.received).outcome = .failed := by
  have hlen : longHeadExchange.head.render.length = 65559 := length_longHead 65536
  constructor
  · refine ⟨longHeadExchange.arrived, ?_, ?_⟩
    · rw [hlen]
      decide
    · have hframing : longHeadExchange.framing = .toClose := longHead_framing 65536
      rw [hframing]
      rfl
  · have hlong : streamLimit < longHeadExchange.head.render.length := by
      rw [hlen]
      decide
    rw [receive, if_pos rfl, receiveStream, streamHead_refuses hlong longHeadExchange.received_prefix]
    rfl

end Vnt.Net
