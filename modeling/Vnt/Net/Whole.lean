import Vnt.Net.Streamed

/-!
# `Vnt.Net.Whole`: a response that is alone on its connection

What a success says when the bytes on the connection are one response and nothing else: it is that response that was
delivered, and no byte of it is left behind.
-/

namespace Vnt.Net

/-- The bytes are the body of the message, no less and no more, and stand for `d`. -/
def Framing.Whole : Framing → Bytes → Bytes → Prop
  | .noBody, body, d => body = [] ∧ d = []
  | .length n, body, d => body.length = n ∧ d = body
  | .chunked, body, d => ∃ lines, Chunked body d lines
  | .toClose, body, d => d = body

variable {method : Option Bytes} {reads : Nat → Nat} {h : Headers} {redirectCount : Nat} {head : ResponseHead}
  {decoder last : ChunkStream} {pending unread body arrived d d' : Bytes} {chunked : Bool} {status : Int}

/-- A part of a whole body that is complete is all of it, unless the body ends when the peer closes. -/
theorem whole_of_complete {limit : Nat} {framing : Framing} {rest : Bytes} (hwhole : framing.Whole (arrived ++ rest) d)
    (hcomplete : framing.Complete limit arrived d') : (framing ≠ .toClose → d' = d ∧ rest = []) := by
  intro hclose
  cases framing with
  | noBody =>
      have hnil := List.append_eq_nil_iff.mp hwhole.1
      exact ⟨Eq.trans hcomplete hwhole.2.symm, hnil.2⟩
  | length n =>
      obtain ⟨hlen, rfl⟩ := hwhole
      obtain ⟨hle, rfl⟩ := hcomplete
      rw [List.length_append] at hlen
      have hnil : rest = [] := List.length_eq_zero_iff.mp (by omega)
      rw [hnil, List.append_nil, List.take_of_length_le (by omega)]
      exact ⟨rfl, rfl⟩
  | chunked =>
      obtain ⟨lines, hbody⟩ := hwhole
      obtain ⟨c, lines', left, hbytes, hc, -⟩ := hcomplete
      have heq : arrived ++ rest ++ [] = c ++ (left ++ rest) := by
        rw [List.append_nil, hbytes, List.append_assoc]
      obtain ⟨hd, hrest⟩ := hbody.reading hc heq
      exact ⟨hd.symm, (List.append_eq_nil_iff.mp hrest.symm).2⟩
  | toClose => exact absurd rfl hclose

/-! ## Without a sink -/

theorem delivered_not_redirected {raw : Bytes} (hparse : parseResponseHeaders raw method = .accepted h)
    (hdelivered : finishBuffered method redirectCount raw = .delivered status d') : redirectTarget redirectCount h raw = none := by
  unfold finishBuffered at hdelivered
  rw [hparse] at hdelivered
  simp only at hdelivered
  split at hdelivered
  · cases hdelivered
  cases htarget : redirectTarget redirectCount h raw with
  | none => rfl
  | some location =>
      rw [htarget] at hdelivered
      cases hdelivered

/-- **A buffered success is the response that was sent**, read to its end. -/
theorem buffered_whole (hwhole : (head.framing method).Whole body d) (hfits : body.length < sizeMax)
    (hdelivered : (receiveBuffered method redirectCount reads (head.render ++ body)).outcome = .delivered status d') :
    status = head.code ∧ d' = d ∧ (receiveBuffered method redirectCount reads (head.render ++ body)).unread = [] ∧
      ∃ arrived, (receiveBuffered method redirectCount reads (head.render ++ body)).raw = head.render ++ arrived := by
  unfold receiveBuffered at hdelivered ⊢
  cases hloop : bufferedLoop method reads ((head.render ++ body).length + 1) 0 8192 [] (head.render ++ body) with
  | none =>
      rw [hloop] at hdelivered
      cases hdelivered
  | some r =>
      obtain ⟨raw, unread⟩ := r
      rw [hloop] at hdelivered
      simp only at hdelivered ⊢
      obtain ⟨hbytes, hend⟩ := bufferedLoop_some hloop
      rw [List.nil_append] at hbytes
      rcases @part_cases method head raw body ⟨unread, hbytes.symm⟩ with hincomplete | ⟨arrived, rest, rfl, hbody⟩
      · unfold finishBuffered at hdelivered
        rw [hincomplete] at hdelivered
        cases hdelivered
      have hrest : rest = unread := by
        rw [hbody, List.append_assoc] at hbytes
        exact List.append_cancel_left (List.append_cancel_left hbytes)
      have hended : Ended method head body arrived := by
        refine ⟨⟨rest, hbody.symm⟩, ?_, hfits⟩
        rcases hend with hnil | hstop
        · rw [hrest, hnil, List.append_nil] at hbody
          exact Or.inl hbody.symm
        · exact Or.inr hstop
      have hstays := delivered_not_redirected (parse_head head arrived method) hdelivered
      subst hbody
      rw [hrest] at hwhole
      have hall : arrived = arrived ++ rest → unread = [] := by
        intro heq
        rw [← hrest]
        exact List.append_right_eq_self.mp heq.symm
      suffices hcore : (status = head.code ∧ d' = d) ∧ unread = [] from ⟨hcore.1.1, hcore.1.2, hcore.2, arrived, rfl⟩
      rcases framing_cases head method with ⟨hframing, hnobody⟩ | ⟨hframing, hnobody, hchunked, hlength⟩ |
        ⟨n, hframing, hnobody, hchunked, hlength⟩ | ⟨hframing, hnobody, hchunked, hlength⟩
      · rw [hframing] at hwhole
        obtain ⟨hnil, rfl⟩ := hwhole
        obtain ⟨harrived, hunread⟩ := List.append_eq_nil_iff.mp hnil
        rw [finishBuffered_head arrived hstays, hnobody, harrived] at hdelivered
        split at hdelivered
        · cases hdelivered
        · simp at hdelivered
          exact ⟨⟨hdelivered.1.symm, hdelivered.2⟩, hunread⟩
      · rw [hframing] at hwhole
        obtain ⟨lines, hbody⟩ := hwhole
        have hne : arrived ++ rest ≠ [] := by
          rw [hrest]
          exact hbody.ne_nil
        rw [hended.chunked hnobody hchunked hlength hne hstays] at hdelivered
        cases hdecoded : decodeChunked (arrived ++ rest) with
        | none =>
            rw [hdecoded] at hdelivered
            cases hdelivered
        | some r =>
            rw [hdecoded] at hdelivered
            cases hdelivered
            obtain ⟨c, lines', hbytes', hc, -⟩ := (@decodeChunked_iff r.1 ⟨arrived ++ rest, hfits⟩ r.2).mp hdecoded
            have heq : arrived ++ unread ++ [] = c ++ r.2 := by
              rw [List.append_nil, ← hrest]
              exact hbytes'
            obtain ⟨hd, -⟩ := hbody.reading hc heq
            refine ⟨⟨rfl, hd.symm⟩, ?_⟩
            rcases hended.ended with hsame | hstop
            · exact hall hsame
            · -- a proper part of the body does not stop the loop
              rw [stops_head, hnobody, hlength] at hstop
              rcases hstop with hstop | hstop | ⟨-, hcomplete⟩
              · cases hstop
              · cases hstop.1
              · by_contra hunread
                have hproper : arrived ≠ arrived ++ unread := fun hsame => hunread (List.append_right_eq_self.mp hsame.symm)
                rw [chunkedBodyComplete, completeChunks_prefix hbody ⟨unread, rfl⟩ hproper] at hcomplete
                cases hcomplete
      · rw [hframing] at hwhole
        obtain ⟨hlen, rfl⟩ := hwhole
        rw [hended.length hnobody hchunked hlength hstays, hrest, if_pos (Nat.le_of_eq hlen.symm), ← hlen,
          List.take_length] at hdelivered
        cases hdelivered
        refine ⟨⟨rfl, rfl⟩, ?_⟩
        rcases hended.ended with hsame | hstop
        · exact hall hsame
        · rw [stops_head, hnobody, hchunked, hlength] at hstop
          rcases hstop with hstop | ⟨-, hle⟩ | hstop
          · cases hstop
          · have hmax : sizeMax = 2 ^ 64 - 1 := rfl
            rw [hrest] at hfits
            rw [Option.getD_some] at hle
            rw [List.length_append] at hlen hfits
            exact List.length_eq_zero_iff.mp (by omega)
          · cases hstop.1
      · rw [hframing] at hwhole
        rw [hended.toClose hnobody hchunked hlength hstays, hrest] at hdelivered
        cases hdelivered
        refine ⟨⟨rfl, hwhole.symm⟩, ?_⟩
        rcases hended.ended with hsame | hstop
        · exact hall hsame
        · rw [stops_head, hnobody, hchunked, hlength] at hstop
          rcases hstop with hstop | hstop | hstop
          · cases hstop
          · cases hstop.1
          · cases hstop.1

/-! ## With a sink -/

/-- The bytes that the loop over the body has taken are those that were owed. -/
theorem streamBody_taken : ∀ {fuel i : Nat} {decoder : ChunkStream} {pending : Bytes},
    streamBody h chunked reads fuel i decoder pending = some (last, unread) → Roomy decoder pending →
    ∃ taken, pending = taken ++ unread ∧ Owes h chunked decoder taken last.emitted
  | 0, _, _, _, hrun, _ => nomatch hrun
  | fuel + 1, i, decoder, pending, hrun, hroom => by
      rw [streamBody] at hrun
      by_cases hnil : pending = []
      · rw [if_pos hnil] at hrun
        by_cases hend : streamEnd h chunked decoder = true
        · rw [if_pos hend] at hrun
          cases hrun
          exact ⟨[], hnil, streamEnd_spec.mpr ⟨hend, rfl⟩⟩
        · rw [if_neg hend] at hrun
          cases hrun
      rw [if_neg hnil] at hrun
      obtain ⟨amount, hamount⟩ : ∃ amount, min (reads i + 1) 65536 = amount := ⟨_, rfl⟩
      simp only at hrun
      rw [hamount] at hrun
      have hsplit : pending = pending.take amount ++ pending.drop amount := (List.take_append_drop amount pending).symm
      have hroomFor : ∀ rest : Bytes, rest.length ≤ (pending.drop amount).length → Roomy decoder (pending.take amount ++ rest) := by
        intro rest hrest
        have hlen := hroom.2
        rw [hsplit, List.length_append] at hlen
        refine ⟨hroom.1, ?_⟩
        rw [List.length_append]
        omega
      cases hpiece : streamPiece h chunked decoder (pending.take amount) with
      | none =>
          rw [hpiece] at hrun
          cases hrun
      | some r =>
          obtain ⟨next, complete⟩ := r
          rw [hpiece] at hrun
          cases complete with
          | true =>
              cases hrun
              have hspec := @streamPiece_spec h decoder (pending.take amount) [] chunked (hroomFor [] (Nat.zero_le _))
              rw [hpiece] at hspec
              refine ⟨pending.take amount, hsplit, ?_⟩
              have howes := (hspec last.emitted).mpr rfl
              rw [List.append_nil] at howes
              exact howes
          | false =>
              have hwhole := @streamPiece_spec h decoder (pending.take amount) (pending.drop amount) chunked
                (hroomFor _ (Nat.le_refl _))
              rw [hpiece] at hwhole
              obtain ⟨taken, htaken, howes⟩ := streamBody_taken hrun hwhole.1
              have hspec := @streamPiece_spec h decoder (pending.take amount) taken chunked (hroomFor taken (by
                rw [htaken, List.length_append]
                exact Nat.le_add_right _ _))
              rw [hpiece] at hspec
              refine ⟨pending.take amount ++ taken, ?_, (hspec.2 last.emitted).mpr howes⟩
              rw [List.append_assoc, ← htaken]
              exact hsplit

theorem streamRest_taken {i : Nat} (hstays : ¬(redirectStatus head.code = true ∧ redirectCount < 10))
    (hbody : responseNoBody method head.code = false) (hfits : (arrived ++ pending).length < sizeMax)
    (hrun : streamRest redirectCount (head.headers method) reads i (head.render ++ arrived) pending = some (last, unread)) :
    ∃ taken, pending = taken ++ unread ∧
      Owes (head.headers method) head.chunked .fresh (arrived ++ taken) last.emitted := by
  have hstays' : ¬(redirectStatus (head.headers method).statusCode = true ∧ redirectCount < 10) := hstays
  have hbody' : ¬((head.headers method).noBody = true) := by
    show ¬(responseNoBody method head.code = true)
    rw [hbody]
    exact Bool.false_ne_true
  unfold streamRest at hrun
  rw [if_neg hstays', if_neg hbody'] at hrun
  simp only at hrun
  rw [chunkedResponse_head, drop_head] at hrun
  rw [List.length_append] at hfits
  by_cases hnil : arrived = []
  · rw [if_neg (not_not.mpr hnil)] at hrun
    rw [hnil]
    by_cases hzero : (head.headers method).hasContentLength = true ∧ (head.headers method).contentLength = 0
    · rw [if_pos hzero] at hrun
      cases hrun
      exact ⟨[], rfl, (owes_zero hzero).mpr rfl⟩
    · rw [if_neg hzero] at hrun
      exact streamBody_taken hrun (fresh_roomy (by omega))
  · rw [if_pos hnil] at hrun
    have hroomFor : ∀ rest : Bytes, rest.length ≤ pending.length → Roomy .fresh (arrived ++ rest) := by
      intro rest hrest
      apply fresh_roomy
      rw [List.length_append]
      omega
    cases hpiece : streamPiece (head.headers method) head.chunked .fresh arrived with
    | none =>
        rw [hpiece] at hrun
        cases hrun
    | some r =>
        obtain ⟨next, complete⟩ := r
        rw [hpiece] at hrun
        cases complete with
        | true =>
            cases hrun
            have hspec := @streamPiece_spec (head.headers method) .fresh arrived [] head.chunked (hroomFor [] (Nat.zero_le _))
            rw [hpiece] at hspec
            exact ⟨[], rfl, (hspec last.emitted).mpr rfl⟩
        | false =>
            have hwhole := @streamPiece_spec (head.headers method) .fresh arrived pending head.chunked
              (hroomFor _ (Nat.le_refl _))
            rw [hpiece] at hwhole
            obtain ⟨taken, htaken, howes⟩ := streamBody_taken hrun hwhole.1
            have hspec := @streamPiece_spec (head.headers method) .fresh arrived taken head.chunked (hroomFor taken (by
              rw [htaken, List.length_append]
              exact Nat.le_add_right _ _))
            rw [hpiece] at hspec
            exact ⟨taken, htaken, (hspec.2 last.emitted).mpr howes⟩

/-- What a success says about the end of a streamed request. -/
theorem finishStream_delivered {emitted : Bytes}
    (hdelivered : finishStream method redirectCount head.render emitted = .delivered status d') :
    status = head.code ∧ d' = emitted ∧ redirectTarget redirectCount (head.headers method) head.render = none := by
  have hparse := parse_head head [] method
  rw [List.append_nil] at hparse
  unfold finishStream at hdelivered
  rw [hparse] at hdelivered
  simp only at hdelivered
  split at hdelivered
  · cases hdelivered
  cases htarget : redirectTarget redirectCount (head.headers method) head.render with
  | none =>
      rw [htarget] at hdelivered
      cases hdelivered
      exact ⟨rfl, rfl, rfl⟩
  | some location =>
      rw [htarget] at hdelivered
      cases hdelivered

theorem whole_nil (hwhole : (head.framing method).Whole [] d) : d = [] := by
  cases hframing : head.framing method with
  | noBody =>
      rw [hframing] at hwhole
      exact hwhole.2
  | length n =>
      rw [hframing] at hwhole
      exact hwhole.2
  | chunked =>
      rw [hframing] at hwhole
      obtain ⟨lines, hbody⟩ := hwhole
      exact absurd rfl hbody.ne_nil
  | toClose =>
      rw [hframing] at hwhole
      exact hwhole

/-- **A streamed success is the response that was sent**, read to its end, unless it ends when the peer closes. A redirect
    status without a location keeps its body on the connection. -/
theorem streamed_whole (hwhole : (head.framing method).Whole body d) (hfits : body.length < sizeMax)
    (hsettled : redirectStatus head.code = true → redirectCount < 10 →
      redirectTarget redirectCount (head.headers method) head.render = none → body = [])
    (hdelivered : (receiveStream method redirectCount reads (head.render ++ body)).outcome = .delivered status d') :
    status = head.code ∧ d' = d ∧
      (head.framing method ≠ .toClose → (receiveStream method redirectCount reads (head.render ++ body)).unread = []) ∧
      (receiveStream method redirectCount reads (head.render ++ body)).raw = head.render := by
  unfold receiveStream at hdelivered ⊢
  cases hhead : streamHead method reads ((head.render ++ body).length + 1) 0 8192 [] (head.render ++ body) with
  | none =>
      rw [hhead] at hdelivered
      cases hdelivered
  | some r =>
      obtain ⟨h, i, raw, pending⟩ := r
      rw [hhead] at hdelivered
      simp only at hdelivered ⊢
      obtain ⟨hbytes, -, hparse⟩ := streamHead_some hhead (Nat.zero_le _) (by decide)
      rw [List.nil_append] at hbytes
      obtain ⟨arrived, rfl, hbody⟩ : ∃ arrived, raw = head.render ++ arrived ∧ body = arrived ++ pending := by
        rcases @part_cases method head raw body ⟨pending, hbytes.symm⟩ with hincomplete | ⟨arrived, rest, rfl, hbody⟩
        · rw [hincomplete] at hparse
          cases hparse
        · refine ⟨arrived, rfl, ?_⟩
          rw [List.append_assoc] at hbytes
          exact List.append_cancel_left hbytes
      rw [parse_head] at hparse
      cases hparse
      have htake : (head.render ++ arrived).take (head.headers method).headerLength = head.render := List.take_left
      subst hbody
      cases hrest : streamRest redirectCount (head.headers method) reads i (head.render ++ arrived) pending with
      | none =>
          rw [hrest] at hdelivered
          cases hdelivered
      | some r =>
          obtain ⟨last, unread⟩ := r
          rw [hrest] at hdelivered
          simp only at hdelivered ⊢
          rw [htake] at hdelivered ⊢
          obtain ⟨rfl, rfl, htarget⟩ := finishStream_delivered hdelivered
          suffices hcore : last.emitted = d ∧ (head.framing method ≠ .toClose → unread = []) from ⟨rfl, hcore.1, hcore.2, rfl⟩
          -- a body that is not read has to be empty
          have hskipped : (redirectStatus head.code = true ∧ redirectCount < 10) ∨ responseNoBody method head.code = true →
              arrived ++ pending = [] → last.emitted = d ∧ (head.framing method ≠ .toClose → unread = []) := by
            intro hskip hempty
            rw [streamRest_skipped hskip] at hrest
            cases hrest
            rw [hempty] at hwhole
            exact ⟨(whole_nil hwhole).symm, fun _ => (List.append_eq_nil_iff.mp hempty).2⟩
          by_cases hfollow : redirectStatus head.code = true ∧ redirectCount < 10
          · apply hskipped (Or.inl hfollow)
            exact hsettled hfollow.1 hfollow.2 htarget
          by_cases hnobody : responseNoBody method head.code = true
          · apply hskipped (Or.inr hnobody)
            have hframing : head.framing method = .noBody := by
              unfold ResponseHead.framing
              exact if_pos hnobody
            rw [hframing] at hwhole
            exact hwhole.1
          rw [Bool.not_eq_true] at hnobody
          have hcomplete := (owes_iff_complete hnobody hfits).mp
            ((streamRest_spec hfollow hnobody hfits).mp ⟨last, unread, hrest, rfl⟩)
          obtain ⟨taken, rfl, howes⟩ := streamRest_taken hfollow hnobody hfits hrest
          rw [← List.append_assoc] at hwhole hfits hcomplete
          have htaken := (owes_iff_complete hnobody (by
            rw [List.length_append] at hfits
            omega)).mp howes
          by_cases hclose : head.framing method = .toClose
          · rw [hclose] at hwhole hcomplete
            exact ⟨Eq.trans hcomplete hwhole.symm, fun hne => absurd hclose hne⟩
          · obtain ⟨hd, hunread⟩ := whole_of_complete hwhole htaken hclose
            exact ⟨hd, fun _ => hunread⟩

end Vnt.Net
