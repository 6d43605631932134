import Vnt.Net.ResponseHead

/-!
# `Vnt.Net.Delivery`: what is received is what was sent

The receive loops against the framing of the response, for every way the bytes are cut into reads and every point at
which the peer closes the connection.
-/

namespace Vnt.Net

/-! ## Messages -/

/-- How the end of a body is found. -/
inductive Framing where
  | noBody
  | length (n : Nat)
  | chunked
  | toClose
  deriving DecidableEq

/-- The framing of a response to a request with the method. -/
def ResponseHead.framing (head : ResponseHead) (method : Option Bytes) : Framing :=
  if responseNoBody method head.code then .noBody
  else if head.chunked then .chunked
  else
    match head.contentLength with
    | some n => .length n
    | none => .toClose

/-- The bytes begin with a complete body that stands for `d`, and the peer sends no more; a line of the chunked framing
    has at most `limit` bytes. -/
def Framing.Complete (limit : Nat) : Framing → Bytes → Bytes → Prop
  | .noBody, _, d => d = []
  | .length n, bytes, d => n ≤ bytes.length ∧ d = bytes.take n
  | .chunked, bytes, d => ∃ c lines left, bytes = c ++ left ∧ Chunked c d lines ∧ Within limit lines
  | .toClose, bytes, d => d = bytes

/-- One response on a connection: the request it answers, its header block, the bytes behind it, and how many bytes of
    both the peer sends before it closes the connection. -/
structure Exchange where
  method : Option Bytes
  redirectCount : Nat
  head : ResponseHead
  body : Bytes
  closed : Nat
  final : 200 ≤ head.code
  /-- The response is not redirected. -/
  stays : redirectStatus head.code = true → redirectCount < 10 →
    findLocation head.lines = none ∨ findLocation head.lines = some []
  fits : (head.render ++ body).length < sizeMax

namespace Exchange

variable (x : Exchange)

/-- The bytes that arrive. -/
def received : Bytes := (x.head.render ++ x.body).take x.closed

def framing : Framing := x.head.framing x.method

/-- The part of the body that arrives. -/
def arrived : Bytes := x.body.take (x.closed - x.head.render.length)

/-- The complete message was received, and its body stands for `d`. -/
def Complete (limit : Nat) (d : Bytes) : Prop :=
  x.head.render.length ≤ x.closed ∧ x.framing.Complete limit x.arrived d

/-- The complete message was received and is within the limits of the client: lines of at most 8192 bytes in the chunked
    framing, and a header block of at most 65536 bytes when the body goes to a sink. -/
def Admitted (sink : Bool) (d : Bytes) : Prop :=
  x.Complete 8192 d ∧ (sink = true → x.head.render.length ≤ streamLimit)

/-- The outcome that the message calls for. -/
def Exact (sink : Bool) (o : Outcome) : Prop :=
  (∃ d, x.Admitted sink d ∧ o = .delivered x.head.code d) ∨ ((¬∃ d, x.Admitted sink d) ∧ o = .failed)

/-- What the two modes ask for besides: a buffered response is smaller than the buffer may grow; a buffered response without
    a body announces none; a buffered chunked response does not end with its header block, nor has it a line of 8193 bytes
    for its longest; a streamed response has no status that is followed with a location. -/
structure Plain (sink : Bool) : Prop where
  small : sink = false → x.received.length < bufferedLimit
  bodyless : sink = false → x.framing = .noBody → x.head.contentLength.getD 0 = 0
  started : sink = false → x.framing = .chunked → x.received ≠ x.head.render
  shortLines : sink = false → x.framing = .chunked → ShortLines x.arrived
  settled : sink = true → ¬(redirectStatus x.head.code = true ∧ x.redirectCount < 10)

end Exchange

/-! ## Making room -/

theorem makeRoom_some {limit cap used : Nat} (hused : used ≤ cap) (hlimit : used < limit) (hcap : 0 < cap) (hle : cap ≤ limit)
    (hmax : limit < sizeMax) : ∃ next, makeRoom limit cap used = some next ∧ used < next ∧ next ≤ limit := by
  unfold makeRoom
  by_cases hfull : used = cap
  · rw [if_pos hfull, if_neg (by omega)]
    simp only
    by_cases hhalf : cap > limit / 2
    · rw [if_pos hhalf, if_neg (by omega)]
      exact ⟨limit, rfl, hlimit, Nat.le_refl _⟩
    · rw [if_neg hhalf, if_neg (by omega)]
      exact ⟨cap * 2, rfl, by omega, by omega⟩
  · rw [if_neg hfull]
    exact ⟨cap, rfl, by omega, hle⟩

theorem makeRoom_le {limit cap used next : Nat} (hle : cap ≤ limit) (h : makeRoom limit cap used = some next) :
    cap ≤ next ∧ next ≤ limit := by
  unfold makeRoom at h
  by_cases hfull : used = cap
  · rw [if_pos hfull] at h
    obtain ⟨-, h⟩ := Option.ite_none_left_eq_some.mp h
    simp only at h
    obtain ⟨-, hnext⟩ := Option.ite_none_left_eq_some.mp h
    rw [← Option.some.inj hnext]
    split
    · exact ⟨hle, Nat.le_refl _⟩
    · omega
  · rw [if_neg hfull] at h
    rw [← Option.some.inj h]
    exact ⟨Nat.le_refl _, hle⟩

/-! ## Without a sink -/

variable {method : Option Bytes} {reads : Nat → Nat} {raw pending bytes d : Bytes} {h : Headers} {redirectCount : Nat}

/-- The bytes end the loop. -/
def Stops (method : Option Bytes) (raw : Bytes) : Prop :=
  ∃ h, parseResponseHeaders raw method = .accepted h ∧ bufferedComplete h raw = true

/-- **The loop ends with all that there is, or with bytes that are complete.** -/
theorem bufferedLoop_some : ∀ {fuel i cap : Nat} {raw pending raw' unread : Bytes},
    bufferedLoop method reads fuel i cap raw pending = some (raw', unread) →
    raw ++ pending = raw' ++ unread ∧ (unread = [] ∨ Stops method raw')
  | 0, _, _, _, _, _, _, hrun => nomatch hrun
  | fuel + 1, i, cap, raw, pending, raw', unread, hrun => by
      rw [bufferedLoop] at hrun
      cases hroom : makeRoom bufferedLimit cap raw.length with
      | none =>
          rw [hroom] at hrun
          cases hrun
      | some next =>
          rw [hroom] at hrun
          simp only at hrun
          by_cases hnil : pending = []
          · rw [if_pos hnil] at hrun
            cases hrun
            exact ⟨by rw [hnil], Or.inl rfl⟩
          rw [if_neg hnil] at hrun
          obtain ⟨amount, hamount⟩ : ∃ amount, min (reads i + 1) (next - raw.length) = amount := ⟨_, rfl⟩
          rw [hamount] at hrun
          have hsplit : raw ++ pending = (raw ++ pending.take amount) ++ pending.drop amount := by
            rw [List.append_assoc, List.take_append_drop]
          rw [hsplit]
          cases hparse : parseResponseHeaders (raw ++ pending.take amount) method with
          | malformed =>
              rw [hparse] at hrun
              cases hrun
          | incomplete =>
              rw [hparse] at hrun
              exact bufferedLoop_some hrun
          | accepted found =>
              rw [hparse] at hrun
              simp only at hrun
              by_cases hstop : bufferedComplete found (raw ++ pending.take amount) = true
              · rw [if_pos hstop] at hrun
                cases hrun
                exact ⟨rfl, Or.inr ⟨found, hparse, hstop⟩⟩
              · rw [if_neg hstop] at hrun
                exact bufferedLoop_some hrun

/-- A response below the limit gets to the end of the loop. -/
theorem bufferedLoop_ends : ∀ {fuel i cap : Nat} {raw pending : Bytes}, pending.length < fuel → raw.length ≤ cap → 0 < cap →
    cap ≤ bufferedLimit → (raw ++ pending).length < bufferedLimit →
    (∀ part, part <+: raw ++ pending → parseResponseHeaders part method ≠ .malformed) →
    ∃ r, bufferedLoop method reads fuel i cap raw pending = some r
  | 0, _, _, _, _, hfuel, _, _, _, _, _ => absurd hfuel (Nat.not_lt_zero _)
  | fuel + 1, i, cap, raw, pending, hfuel, hraw, hpos, hcap, hlimit, hparse => by
      have hused : raw.length < bufferedLimit := by
        rw [List.length_append] at hlimit
        omega
      obtain ⟨next, hnext, hroom, hnextLe⟩ := makeRoom_some hraw hused hpos hcap (by decide)
      rw [bufferedLoop, hnext]
      simp only
      by_cases hnil : pending = []
      · rw [if_pos hnil]
        exact ⟨_, rfl⟩
      rw [if_neg hnil]
      obtain ⟨amount, hamount⟩ : ∃ amount, min (reads i + 1) (next - raw.length) = amount := ⟨_, rfl⟩
      rw [hamount]
      have hsplit : raw ++ pending = (raw ++ pending.take amount) ++ pending.drop amount := by
        rw [List.append_assoc, List.take_append_drop]
      have hmore : ∃ r, bufferedLoop method reads fuel (i + 1) next (raw ++ pending.take amount) (pending.drop amount) = some r := by
        apply bufferedLoop_ends
        · have hlen := List.length_pos_iff.mpr hnil
          rw [List.length_drop]
          omega
        · rw [List.length_append, List.length_take]
          omega
        · omega
        · exact hnextLe
        · rw [← hsplit]
          exact hlimit
        · rw [← hsplit]
          exact hparse
      cases hresult : parseResponseHeaders (raw ++ pending.take amount) method with
      | malformed => exact absurd hresult (hparse _ ⟨pending.drop amount, hsplit.symm⟩)
      | incomplete => exact hmore
      | accepted found =>
          simp only
          by_cases hstop : bufferedComplete found (raw ++ pending.take amount) = true
          · rw [if_pos hstop]
            exact ⟨_, rfl⟩
          · rw [if_neg hstop]
            exact hmore

variable {head : ResponseHead}

/-- A part of a response ends inside its header block, or behind it. -/
theorem part_cases {part body : Bytes} (hpart : part <+: head.render ++ body) :
    parseResponseHeaders part method = .incomplete ∨
      ∃ arrived rest, part = head.render ++ arrived ∧ body = arrived ++ rest := by
  obtain ⟨rest, hrest⟩ := hpart
  rcases List.append_eq_append_iff.mp hrest with ⟨x, hx, -⟩ | ⟨x, hx, hbody⟩
  · by_cases hwhole : part = head.render
    · right
      exact ⟨[], body, by rw [hwhole, List.append_nil], rfl⟩
    · exact Or.inl (parse_part head ⟨x, hx.symm⟩ hwhole method)
  · exact Or.inr ⟨x, rest, hx, hbody⟩

theorem parse_not_malformed {part body : Bytes} (hpart : part <+: head.render ++ body) :
    parseResponseHeaders part method ≠ .malformed := by
  rcases @part_cases method head part body hpart with hresult | ⟨arrived, rest, rfl, -⟩
  · rw [hresult]
    exact nofun
  · rw [parse_head]
    exact nofun

theorem drop_head (head : ResponseHead) (method : Option Bytes) (arrived : Bytes) :
    (head.render ++ arrived).drop (head.headers method).headerLength = arrived := List.drop_left

/-- When a response stops the loop. -/
theorem stops_head (arrived : Bytes) : Stops method (head.render ++ arrived) ↔
    responseNoBody method head.code = true ∨
      (head.contentLength.isSome = true ∧ min (head.contentLength.getD 0) (2 ^ 64 - 1) ≤ arrived.length) ∨
      (head.chunked = true ∧ chunkedBodyComplete arrived = true) := by
  have hlen : (head.render ++ arrived).length - (head.headers method).headerLength = arrived.length := by
    rw [List.length_append]
    exact Nat.add_sub_cancel_left _ _
  have hcomplete : bufferedComplete (head.headers method) (head.render ++ arrived) = true ↔
      responseNoBody method head.code = true ∨
        (head.contentLength.isSome = true ∧ min (head.contentLength.getD 0) (2 ^ 64 - 1) ≤ arrived.length) ∨
        (head.chunked = true ∧ chunkedBodyComplete arrived = true) := by
    unfold bufferedComplete
    rw [decide_eq_true_iff, hlen, chunkedResponse_head, drop_head]
    rfl
  rw [← hcomplete]
  constructor
  · rintro ⟨h, hparse, hstop⟩
    rw [parse_head] at hparse
    cases hparse
    exact hstop
  · intro hstop
    exact ⟨_, parse_head head arrived method, hstop⟩

/-- What is behind the loop, for a response that stays. -/
theorem finishBuffered_head (arrived : Bytes)
    (hstays : redirectTarget redirectCount (head.headers method) (head.render ++ arrived) = none) :
    finishBuffered method redirectCount (head.render ++ arrived) =
      if head.contentLength.isSome = true ∧ arrived.length < min (head.contentLength.getD 0) (2 ^ 64 - 1) then .failed
      else
        let read := if responseNoBody method head.code then [] else arrived
        let read := if head.contentLength.isSome = true ∧ read.length > min (head.contentLength.getD 0) (2 ^ 64 - 1) then
          read.take (min (head.contentLength.getD 0) (2 ^ 64 - 1)) else read
        if head.chunked = true ∧ read ≠ [] then
          match decodeChunked read with
          | none => .failed
          | some (decoded, _) => .delivered head.code decoded
        else .delivered head.code read := by
  have hlen : (head.render ++ arrived).length - (head.headers method).headerLength = arrived.length := by
    rw [List.length_append]
    exact Nat.add_sub_cancel_left _ _
  unfold finishBuffered
  rw [parse_head]
  simp only
  rw [hlen, drop_head, hstays, chunkedResponse_head]
  rfl

/-- The four framings, by what the block says. -/
theorem framing_cases (head : ResponseHead) (method : Option Bytes) :
    (head.framing method = .noBody ∧ responseNoBody method head.code = true) ∨
    (head.framing method = .chunked ∧ responseNoBody method head.code = false ∧ head.chunked = true ∧
      head.contentLength = none) ∨
    (∃ n, head.framing method = .length n ∧ responseNoBody method head.code = false ∧ head.chunked = false ∧
      head.contentLength = some n) ∨
    (head.framing method = .toClose ∧ responseNoBody method head.code = false ∧ head.chunked = false ∧
      head.contentLength = none) := by
  unfold ResponseHead.framing
  by_cases hbody : responseNoBody method head.code = true
  · rw [if_pos hbody]
    exact Or.inl ⟨rfl, hbody⟩
  rw [if_neg hbody]
  rw [Bool.not_eq_true] at hbody
  by_cases hchunked : head.chunked = true
  · rw [if_pos hchunked]
    refine Or.inr (Or.inl ⟨rfl, hbody, hchunked, ?_⟩)
    rw [← Option.not_isSome_iff_eq_none, contentLength_isSome]
    intro hany
    have hno := head.exclusive hany
    rw [ResponseHead.chunked, hno] at hchunked
    cases hchunked
  rw [if_neg hchunked]
  rw [Bool.not_eq_true] at hchunked
  cases hlength : head.contentLength with
  | some n => exact Or.inr (Or.inr (Or.inl ⟨n, rfl, hbody, hchunked, rfl⟩))
  | none => exact Or.inr (Or.inr (Or.inr ⟨rfl, hbody, hchunked, rfl⟩))

theorem Exchange.framing_cases (x : Exchange) :
    (x.framing = .noBody ∧ responseNoBody x.method x.head.code = true) ∨
    (x.framing = .chunked ∧ responseNoBody x.method x.head.code = false ∧ x.head.chunked = true ∧
      x.head.contentLength = none) ∨
    (∃ n, x.framing = .length n ∧ responseNoBody x.method x.head.code = false ∧ x.head.chunked = false ∧
      x.head.contentLength = some n) ∨
    (x.framing = .toClose ∧ responseNoBody x.method x.head.code = false ∧ x.head.chunked = false ∧
      x.head.contentLength = none) := Net.framing_cases x.head x.method

theorem Exchange.not_redirected (x : Exchange) (arrived : Bytes) :
    redirectTarget x.redirectCount (x.head.headers x.method) (x.head.render ++ arrived) = none := by
  unfold redirectTarget
  rw [acceptedLines_head]
  split
  · rename_i hfollow
    rcases x.stays hfollow.1 hfollow.2 with hnone | hempty
    · rw [hnone]
    · rw [hempty]
  · rfl

/-- The bytes that are there when a buffered response ends: all of them, or as many as stop the loop. -/
structure Ended (method : Option Bytes) (head : ResponseHead) (body arrived : Bytes) : Prop where
  part : arrived <+: body
  ended : arrived = body ∨ Stops method (head.render ++ arrived)
  fits : body.length < sizeMax

variable {body arrived : Bytes} {x : Exchange}

theorem Ended.noBody (hbody : responseNoBody method head.code = true) (hlength : head.contentLength.getD 0 = 0)
    (hstays : redirectTarget redirectCount (head.headers method) (head.render ++ arrived) = none) :
    finishBuffered method redirectCount (head.render ++ arrived) = .delivered head.code [] := by
  rw [finishBuffered_head arrived hstays, hlength, hbody]
  simp

theorem Ended.length {n : Nat} (h : Ended method head body arrived) (hbody : responseNoBody method head.code = false)
    (hchunked : head.chunked = false) (hlength : head.contentLength = some n)
    (hstays : redirectTarget redirectCount (head.headers method) (head.render ++ arrived) = none) :
    finishBuffered method redirectCount (head.render ++ arrived) =
      if n ≤ body.length then .delivered head.code (body.take n) else .failed := by
  have hmax : sizeMax = 2 ^ 64 - 1 := rfl
  have hfits := h.fits
  have hpart := h.part.length_le
  have hread : arrived.length = body.length ∨ min n (2 ^ 64 - 1) ≤ arrived.length := by
    rcases h.ended with hall | hstop
    · exact Or.inl (by rw [hall])
    · rw [stops_head, hbody, hchunked, hlength] at hstop
      rcases hstop with hstop | hstop | hstop
      · cases hstop
      · exact Or.inr hstop.2
      · cases hstop.1
  rw [finishBuffered_head arrived hstays, hbody, hchunked, hlength]
  simp only [Option.isSome_some, Option.getD_some, true_and, Bool.false_eq_true, if_false, false_and]
  by_cases hn : n ≤ body.length
  · have hmin : min n (2 ^ 64 - 1) = n := by omega
    rw [hmin] at hread ⊢
    rw [if_pos hn, if_neg (by omega)]
    obtain ⟨rest, rfl⟩ := h.part
    have htake : (if arrived.length > n then arrived.take n else arrived) = (arrived ++ rest).take n := by
      rw [List.take_append_of_le_length (by omega)]
      split
      · rfl
      · rw [List.take_of_length_le (by omega)]
    rw [htake]
  · rw [if_neg hn, if_pos (by omega)]

theorem Ended.toClose (h : Ended method head body arrived) (hbody : responseNoBody method head.code = false)
    (hchunked : head.chunked = false) (hlength : head.contentLength = none)
    (hstays : redirectTarget redirectCount (head.headers method) (head.render ++ arrived) = none) :
    finishBuffered method redirectCount (head.render ++ arrived) = .delivered head.code body := by
  have hall : arrived = body := by
    rcases h.ended with hall | hstop
    · exact hall
    · rw [stops_head, hbody, hchunked, hlength] at hstop
      rcases hstop with hstop | hstop | hstop
      · cases hstop
      · cases hstop.1
      · cases hstop.1
  rw [finishBuffered_head arrived hstays, hbody, hchunked, hlength, hall]
  simp

/-- What is decoded of the bytes that stop the loop is what all bytes stand for. -/
theorem Ended.chunked (h : Ended method head body arrived) (hbody : responseNoBody method head.code = false)
    (hchunked : head.chunked = true) (hlength : head.contentLength = none) (hne : body ≠ [])
    (hstays : redirectTarget redirectCount (head.headers method) (head.render ++ arrived) = none) :
    finishBuffered method redirectCount (head.render ++ arrived) =
      match decodeChunked body with
      | none => .failed
      | some (decoded, _) => .delivered head.code decoded := by
  obtain ⟨rest, hrest⟩ := h.part
  have hfits := h.fits
  have hfits' : arrived.length < sizeMax := Nat.lt_of_le_of_lt h.part.length_le hfits
  have hstop : arrived = body ∨ chunkedBodyComplete arrived = true := by
    rcases h.ended with hall | hstop
    · exact Or.inl hall
    · rw [stops_head, hbody, hlength] at hstop
      rcases hstop with hstop | hstop | hstop
      · cases hstop
      · cases hstop.1
      · exact Or.inr hstop.2
  have hread : arrived ≠ [] := by
    rintro rfl
    rcases hstop with hall | hcomplete
    · exact hne hall.symm
    · cases hcomplete
  rw [finishBuffered_head arrived hstays, hbody, hchunked, hlength]
  simp only [Option.isSome_none, Bool.false_eq_true, false_and, if_false, true_and]
  rw [if_pos hread]
  cases hdecoded : decodeChunked body with
  | none =>
      cases hpart : decodeChunked arrived with
      | none => rfl
      | some r =>
          -- what is decoded of a part is decoded of the whole
          exfalso
          obtain ⟨c, lines, hbytes, hc, hwithin⟩ := (@decodeChunked_iff r.1 ⟨arrived, hfits'⟩ r.2).mp hpart
          have hwhole := (@decodeChunked_iff r.1 ⟨body, hfits⟩ (r.2 ++ rest)).mpr ⟨c, lines, by
            show body = _
            rw [← hrest, show arrived = c ++ r.2 from hbytes, List.append_assoc], hc, hwithin⟩
          rw [show decodeChunked body = _ from hwhole] at hdecoded
          cases hdecoded
  | some r =>
      obtain ⟨d, left⟩ := r
      obtain ⟨c, lines, hbytes, hc, hwithin⟩ := (@decodeChunked_iff d ⟨body, hfits⟩ left).mp hdecoded
      have hbody' : arrived ++ rest = c ++ left := hrest.trans hbytes
      -- the loop does not stop before the last byte of the body
      obtain ⟨left', hleft⟩ : ∃ left', arrived = c ++ left' := by
        rcases List.append_eq_append_iff.mp hbody' with ⟨more, hmore, -⟩ | ⟨more, hmore, -⟩
        · by_cases hnil : more = []
          · exact ⟨[], by rw [hmore, hnil, List.append_nil, List.append_nil]⟩
          · exfalso
            have hproper : arrived ≠ c := by
              intro heq
              rw [heq] at hmore
              exact hnil (List.append_right_eq_self.mp hmore.symm)
            rcases hstop with hall | hcomplete
            · rw [hall, show body = c ++ left from hbytes] at hmore
              have hlen := congrArg List.length hmore
              simp only [List.length_append] at hlen
              exact hnil (List.length_eq_zero_iff.mp (by omega))
            · rw [chunkedBodyComplete, completeChunks_prefix hc ⟨more, hmore.symm⟩ hproper] at hcomplete
              cases hcomplete
        · exact ⟨more, hmore⟩
      have hpart := (@decodeChunked_iff d ⟨arrived, hfits'⟩ left').mpr ⟨c, lines, hleft, hc, hwithin⟩
      rw [show decodeChunked arrived = _ from hpart]

/-- The peer closes inside the header block, or behind it. -/
theorem received_cases (x : Exchange) :
    (x.closed < x.head.render.length ∧ x.received <+: x.head.render ∧ x.received ≠ x.head.render) ∨
      (x.head.render.length ≤ x.closed ∧ x.received = x.head.render ++ x.arrived) := by
  by_cases hclosed : x.closed < x.head.render.length
  · left
    have hreceived : x.received = x.head.render.take x.closed := by
      unfold Exchange.received
      rw [List.take_append_of_le_length (Nat.le_of_lt hclosed)]
    refine ⟨hclosed, ?_, ?_⟩
    · rw [hreceived]
      exact List.take_prefix _ _
    · intro heq
      have hlen := congrArg List.length heq
      rw [hreceived, List.length_take] at hlen
      omega
  · right
    rw [not_lt] at hclosed
    refine ⟨hclosed, ?_⟩
    unfold Exchange.received Exchange.arrived
    rw [List.take_append, List.take_of_length_le hclosed]

theorem Exchange.arrived_fits (x : Exchange) : x.arrived.length < sizeMax := by
  have hfits := x.fits
  unfold Exchange.arrived
  rw [List.length_append] at hfits
  rw [List.length_take]
  omega

theorem Exchange.received_prefix (x : Exchange) : x.received <+: x.head.render ++ x.body := List.take_prefix _ _

/-- A chunked body is complete just where it is decoded, when its lines are short. -/
theorem Exchange.chunked_complete (x : Exchange) (hshort : ShortLines x.arrived) (d : Bytes) :
    Framing.chunked.Complete 8192 x.arrived d ↔ ∃ left, decodeChunked x.arrived = some (d, left) := by
  constructor
  · rintro ⟨c, lines, left, hbytes, hc, hwithin⟩
    exact ⟨left, (@decodeChunked_iff d ⟨x.arrived, x.arrived_fits⟩ left).mpr
      ⟨c, lines, hbytes, hc, fun line hline => Nat.le_succ_of_le (hwithin line hline)⟩⟩
  · rintro ⟨left, hdecoded⟩
    obtain ⟨c, lines, hbytes, hc, hwithin⟩ := (@decodeChunked_iff d ⟨x.arrived, x.arrived_fits⟩ left).mp hdecoded
    refine ⟨c, lines, left, hbytes, hc, fun line hline => ?_⟩
    have hle := hwithin line hline
    have hne := hshort c d lines left hbytes hc hwithin line hline
    omega

/-- Behind the loop, on the bytes that ended it. -/
theorem buffered_ended (hplain : x.Plain false) (hclosed : x.head.render.length ≤ x.closed)
    (hreceived : x.received = x.head.render ++ x.arrived) (hended : Ended x.method x.head x.arrived arrived) :
    x.Exact false (finishBuffered x.method x.redirectCount (x.head.render ++ arrived)) := by
  have hstays := x.not_redirected arrived
  have hallowed : ∀ d, x.framing.Complete 8192 x.arrived d → x.Admitted false d := fun d hd => ⟨⟨hclosed, hd⟩, by simp⟩
  rcases x.framing_cases with ⟨hframing, hbody⟩ | ⟨hframing, hbody, hchunked, hlength⟩ |
    ⟨n, hframing, hbody, hchunked, hlength⟩ | ⟨hframing, hbody, hchunked, hlength⟩
  · left
    refine ⟨[], hallowed [] ?_, Ended.noBody hbody (hplain.bodyless rfl hframing) hstays⟩
    rw [hframing]
    rfl
  · have hne : x.arrived ≠ [] := by
      intro hnil
      rw [hnil, List.append_nil] at hreceived
      exact hplain.started rfl hframing hreceived
    have hcomplete := x.chunked_complete (hplain.shortLines rfl hframing)
    rw [hended.chunked hbody hchunked hlength hne hstays]
    cases hdecoded : decodeChunked x.arrived with
    | none =>
        right
        refine ⟨?_, rfl⟩
        rintro ⟨d, hd, -⟩
        have hd' := hd.2
        rw [hframing] at hd'
        obtain ⟨left, hsome⟩ := (hcomplete d).mp hd'
        rw [hdecoded] at hsome
        cases hsome
    | some r =>
        obtain ⟨d, left⟩ := r
        left
        refine ⟨d, hallowed d ?_, rfl⟩
        rw [hframing]
        exact (hcomplete d).mpr ⟨left, hdecoded⟩
  · rw [hended.length hbody hchunked hlength hstays]
    by_cases hn : n ≤ x.arrived.length
    · rw [if_pos hn]
      left
      refine ⟨x.arrived.take n, hallowed _ ?_, rfl⟩
      rw [hframing]
      exact ⟨hn, rfl⟩
    · rw [if_neg hn]
      right
      refine ⟨?_, rfl⟩
      rintro ⟨d, hd, -⟩
      have hcomplete := hd.2
      rw [hframing] at hcomplete
      exact hn hcomplete.1
  · left
    refine ⟨x.arrived, hallowed _ ?_, hended.toClose hbody hchunked hlength hstays⟩
    rw [hframing]
    rfl

/-- **Buffered delivery is exact.** -/
theorem buffered_exact (hplain : x.Plain false) (reads : Nat → Nat) :
    x.Exact false (receiveBuffered x.method x.redirectCount reads x.received).outcome := by
  have hparse : ∀ part, part <+: [] ++ x.received → parseResponseHeaders part x.method ≠ .malformed :=
    fun part hpart => parse_not_malformed (hpart.trans x.received_prefix)
  obtain ⟨⟨raw, unread⟩, hloop⟩ := @bufferedLoop_ends x.method reads (x.received.length + 1) 0 8192 [] x.received
    (Nat.lt_succ_self _) (Nat.zero_le _) (by decide) (by decide) (hplain.small rfl) hparse
  obtain ⟨hbytes, hend⟩ := bufferedLoop_some hloop
  rw [List.nil_append] at hbytes
  have houtcome : (receiveBuffered x.method x.redirectCount reads x.received).outcome =
      finishBuffered x.method x.redirectCount raw := by
    unfold receiveBuffered
    rw [hloop]
  rw [houtcome]
  rcases received_cases x with ⟨hclosed, hpart, hne⟩ | ⟨hclosed, hreceived⟩
  · -- the header block is not there in full
    right
    refine ⟨fun ⟨d, hd⟩ => absurd hd.1.1 (by omega), ?_⟩
    have hraw : raw <+: x.head.render := (show raw <+: x.received from ⟨unread, hbytes.symm⟩).trans hpart
    have hproper : raw ≠ x.head.render := by
      rintro rfl
      have hlen := hpart.length_le
      rw [hbytes, List.length_append] at hlen
      have hnil : unread = [] := List.length_eq_zero_iff.mp (by omega)
      rw [hnil, List.append_nil] at hbytes
      exact hne hbytes
    unfold finishBuffered
    rw [parse_part x.head hraw hproper]
  · obtain ⟨arrived, rest, hraw, harrived⟩ : ∃ arrived rest, raw = x.head.render ++ arrived ∧ x.arrived = arrived ++ rest := by
      have hpart : raw <+: x.head.render ++ x.arrived := ⟨unread, by rw [← hbytes, hreceived]⟩
      rcases @part_cases x.method x.head raw x.arrived hpart with hincomplete | hbehind
      · rcases hend with hnil | ⟨h, haccepted, -⟩
        · rw [hnil, List.append_nil] at hbytes
          exact ⟨x.arrived, [], hbytes.symm.trans hreceived, (List.append_nil _).symm⟩
        · rw [hincomplete] at haccepted
          cases haccepted
      · exact hbehind
    have hrest : rest = unread := by
      rw [hbytes, hraw, harrived, List.append_assoc] at hreceived
      exact (List.append_cancel_left (List.append_cancel_left hreceived)).symm
    rw [hraw]
    apply buffered_ended hplain hclosed hreceived
    refine ⟨⟨rest, harrived.symm⟩, ?_, x.arrived_fits⟩
    rcases hend with hnil | hstop
    · rw [hrest, hnil, List.append_nil] at harrived
      exact Or.inl harrived.symm
    · rw [hraw] at hstop
      exact Or.inr hstop

end Vnt.Net
