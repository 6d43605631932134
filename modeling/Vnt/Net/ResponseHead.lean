import Vnt.Net.ChunkAgree
import Vnt.Net.Framing

/-!
# `Vnt.Net.Receive`: the receive loop of `vnt_native_http_request_impl` (`native_net.c`)

The peer's bytes are all that it sends before it closes the connection. `reads i` says how much the `i`-th call of `recv`
has to give, one byte at least and no more than there is room for; at the end of the bytes `recv` returns zero. A call
that returns `EAGAIN` or `EINTR` is made again and leaves no trace.
-/

namespace Vnt.Net

/-- `VNT_HTTP_MAX_BUFFERED_RESPONSE`. -/
def bufferedLimit : Nat := 64 * 1024 * 1024

/-- The limit for the header block of a streamed response. -/
def streamLimit : Nat := 65536

/-- What became of a request. -/
inductive Outcome where
  | failed
  | redirected (location : Bytes)
  | delivered (status : Int) (body : Bytes)
  deriving DecidableEq

/-- The outcome, with `raw` as it is then and the bytes that are still on the connection. -/
structure Received where
  outcome : Outcome
  raw : Bytes
  unread : Bytes

/-- `goto fail`. -/
def Received.failure : Received := ⟨.failed, [], []⟩

/-- `if (used == cap)`: the capacity after it, or failure. -/
def makeRoom (limit cap used : Nat) : Option Nat :=
  if used = cap then
    if cap ≥ limit then none
    else
      let next := if cap > limit / 2 then limit else cap * 2
      if next ≤ cap ∨ next > sizeMax - 1 then none else some next
  else some cap

/-- The response has the chunked coding, as `http_header_has_token` sees it. -/
def chunkedResponse (h : Headers) (raw : Bytes) : Bool :=
  httpHeaderHasToken (raw.take h.headerLength) (ascii "Transfer-Encoding") (ascii "chunked")

/-- A status that is followed when there is a location. -/
def redirectStatus (code : Int) : Bool := code = 301 ∨ code = 302 ∨ code = 303 ∨ code = 307 ∨ code = 308

/-- The value of the first `Location` line. -/
def findLocation (lines : List Bytes) : Option Bytes :=
  (lines.find? fun line => line.length > 9 ∧ startsFold line (ascii "Location:")).map fun line => (line.drop 9).dropWhile blank

/-- The location that is followed. -/
def redirectTarget (redirectCount : Nat) (h : Headers) (raw : Bytes) : Option Bytes :=
  if redirectStatus h.statusCode ∧ redirectCount < 10 then
    match findLocation (acceptedLines raw h) with
    | some (c :: rest) => some (c :: rest)
    | _ => none
  else none

/-! ## Without a sink -/

/-- The test that ends the loop. -/
def bufferedComplete (h : Headers) (raw : Bytes) : Bool :=
  h.noBody ∨ (h.hasContentLength ∧ raw.length - h.headerLength ≥ h.contentLength) ∨
    (chunkedResponse h raw ∧ chunkedBodyComplete (raw.drop h.headerLength))

/-- The loop: what has been received when it ends, and what has not. -/
def bufferedLoop (method : Option Bytes) (reads : Nat → Nat) : Nat → Nat → Nat → Bytes → Bytes → Option (Bytes × Bytes)
  | 0, _, _, _, _ => none
  | fuel + 1, i, cap, raw, pending =>
      match makeRoom bufferedLimit cap raw.length with
      | none => none
      | some cap =>
          if pending = [] then some (raw, [])
          else
            let amount := min (reads i + 1) (cap - raw.length)
            let raw := raw ++ pending.take amount
            match parseResponseHeaders raw method with
            | .malformed => none
            | .incomplete => bufferedLoop method reads fuel (i + 1) cap raw (pending.drop amount)
            | .accepted h =>
                if bufferedComplete h raw then some (raw, pending.drop amount)
                else bufferedLoop method reads fuel (i + 1) cap raw (pending.drop amount)

/-- What is behind the loop. -/
def finishBuffered (method : Option Bytes) (redirectCount : Nat) (raw : Bytes) : Outcome :=
  match parseResponseHeaders raw method with
  | .incomplete | .malformed => .failed
  | .accepted h =>
      if h.hasContentLength ∧ raw.length - h.headerLength < h.contentLength then .failed
      else
        let read := if h.noBody then [] else raw.drop h.headerLength
        let read := if h.hasContentLength ∧ read.length > h.contentLength then read.take h.contentLength else read
        match redirectTarget redirectCount h raw with
        | some location => .redirected location
        | none =>
            if chunkedResponse h raw ∧ read ≠ [] then
              match decodeChunked read with
              | none => .failed
              | some (decoded, _) => .delivered h.statusCode decoded
            else .delivered h.statusCode read

def receiveBuffered (method : Option Bytes) (redirectCount : Nat) (reads : Nat → Nat) (bytes : Bytes) : Received :=
  match bufferedLoop method reads (bytes.length + 1) 0 8192 [] bytes with
  | none => .failure
  | some (raw, unread) => ⟨finishBuffered method redirectCount raw, raw, unread⟩

/-! ## With a sink -/

/-- The loop up to the end of the header block. -/
def streamHead (method : Option Bytes) (reads : Nat → Nat) :
    Nat → Nat → Nat → Bytes → Bytes → Option (Headers × Nat × Bytes × Bytes)
  | 0, _, _, _, _ => none
  | fuel + 1, i, cap, raw, pending =>
      match makeRoom streamLimit cap raw.length with
      | none => none
      | some cap =>
          if pending = [] then none
          else
            let amount := min (reads i + 1) (cap - raw.length)
            let raw := raw ++ pending.take amount
            match parseResponseHeaders raw method with
            | .malformed => none
            | .incomplete => streamHead method reads fuel (i + 1) cap raw (pending.drop amount)
            | .accepted h => some (h, i + 1, raw, pending.drop amount)

/-- A piece of the body goes to the sink; whether the body is complete. -/
def streamPiece (h : Headers) (chunked : Bool) (decoder : ChunkStream) (piece : Bytes) : Option (ChunkStream × Bool) :=
  if chunked then (streamFeedChunked decoder piece).map fun decoder => (decoder, decoder.state = .done)
  else if h.hasContentLength then
    (streamEmit decoder (piece.take (min piece.length (h.contentLength - decoder.emitted.length)))).map
      fun decoder => (decoder, decoder.emitted.length ≥ h.contentLength)
  else (streamEmit decoder piece).map fun decoder => (decoder, false)

/-- `recv` returned zero in the body: it is complete, or the request has failed. -/
def streamEnd (h : Headers) (chunked : Bool) (decoder : ChunkStream) : Bool :=
  if chunked then decoder.state = .done
  else if h.hasContentLength then decoder.emitted.length ≥ h.contentLength
  else true

/-- The loop over the body, with reads of at most 65536 bytes: the decoder at its end, and what was not received. -/
def streamBody (h : Headers) (chunked : Bool) (reads : Nat → Nat) :
    Nat → Nat → ChunkStream → Bytes → Option (ChunkStream × Bytes)
  | 0, _, _, _ => none
  | fuel + 1, i, decoder, pending =>
      if pending = [] then if streamEnd h chunked decoder then some (decoder, []) else none
      else
        let amount := min (reads i + 1) 65536
        match streamPiece h chunked decoder (pending.take amount) with
        | none => none
        | some (decoder, true) => some (decoder, pending.drop amount)
        | some (decoder, false) => streamBody h chunked reads fuel (i + 1) decoder (pending.drop amount)

/-- The loop behind the header block: the bytes that came with it, then the others. -/
def streamRest (redirectCount : Nat) (h : Headers) (reads : Nat → Nat) (i : Nat) (raw pending : Bytes) :
    Option (ChunkStream × Bytes) :=
  if redirectStatus h.statusCode ∧ redirectCount < 10 then some (.fresh, pending)
  else if h.noBody then some (.fresh, pending)
  else
    let chunked := chunkedResponse h raw
    let initial := raw.drop h.headerLength
    if initial ≠ [] then
      match streamPiece h chunked .fresh initial with
      | none => none
      | some (decoder, true) => some (decoder, pending)
      | some (decoder, false) => streamBody h chunked reads (pending.length + 1) i decoder pending
    else if h.hasContentLength ∧ h.contentLength = 0 then some (.fresh, pending)
    else streamBody h chunked reads (pending.length + 1) i .fresh pending

/-- What is behind the loop; `raw` is cut back to the header block. -/
def finishStream (method : Option Bytes) (redirectCount : Nat) (raw emitted : Bytes) : Outcome :=
  match parseResponseHeaders raw method with
  | .incomplete | .malformed => .failed
  | .accepted h =>
      if h.hasContentLength ∧ emitted.length < h.contentLength ∧ h.noBody = false ∧
          ¬(redirectStatus h.statusCode ∧ redirectCount < 10) then .failed
      else
        match redirectTarget redirectCount h raw with
        | some location => .redirected location
        | none => .delivered h.statusCode emitted

def receiveStream (method : Option Bytes) (redirectCount : Nat) (reads : Nat → Nat) (bytes : Bytes) : Received :=
  match streamHead method reads (bytes.length + 1) 0 8192 [] bytes with
  | none => .failure
  | some (h, i, raw, pending) =>
      match streamRest redirectCount h reads i raw pending with
      | none => .failure
      | some (decoder, unread) =>
          let raw := raw.take h.headerLength
          ⟨finishStream method redirectCount raw decoder.emitted, raw, unread⟩

/-- The response in either mode. -/
def receive (sink : Bool) (method : Option Bytes) (redirectCount : Nat) (reads : Nat → Nat) (bytes : Bytes) : Received :=
  if sink then receiveStream method redirectCount reads bytes else receiveBuffered method redirectCount reads bytes

/-!
## Well-formed header blocks

A response's status line and fields, as a server writes them. `parse_response_headers` reads such a block back: it finds
its end, its status and its framing, and not before the last byte of the block is there.
-/

/-- A well-formed header block: a version, a status of three digits, field lines. The `Content-Length` fields have the same
    number and do not stand beside the chunked coding. -/
structure ResponseHead where
  major : UInt8
  minor : UInt8
  hundreds : UInt8
  tens : UInt8
  units : UInt8
  /-- What stands behind the status: nothing, or a space and the reason. -/
  reason : Bytes
  fields : List Bytes
  digits : ∀ c ∈ [major, minor, hundreds, tens, units], isDigit c = true
  reasonChars : reason.all fieldValueChar = true
  reasonSpace : reason = [] ∨ reason.head? = some space
  fieldLines : ∀ line ∈ fields, fieldLine line = true
  lengths : ∀ line ∈ fields, isField "Content-Length" line = true → ∃ n, decimalValue (fieldValue line) = some n ∧
    ∀ other ∈ fields, isField "Content-Length" other = true → decimalValue (fieldValue other) = some n
  exclusive : fields.any (isField "Content-Length") = true → fields.any chunkedField = false

namespace ResponseHead

variable (head : ResponseHead)

def statusDigits : Bytes := [head.hundreds, head.tens, head.units]

/-- The status. -/
def code : Int := digitsValue head.statusDigits

def statusLine : Bytes := ascii "HTTP/" ++ [head.major, 46, head.minor, space] ++ head.statusDigits ++ head.reason

def lines : List Bytes := head.statusLine :: head.fields

/-- The bytes of the block. -/
def render : Bytes := head.lines.flatMap (· ++ crlf) ++ crlf

/-- The length that the block announces. -/
def contentLength : Option Nat :=
  (head.fields.find? (isField "Content-Length")).bind fun line => decimalValue (fieldValue line)

/-- The chunked coding. -/
def chunked : Bool := head.fields.any chunkedField

/-- What `parse_response_headers` stores for the block. -/
def headers (method : Option Bytes) : Headers where
  headerLength := head.render.length
  contentLength := min (head.contentLength.getD 0) (2 ^ 64 - 1)
  hasContentLength := head.contentLength.isSome
  statusCode := head.code
  noBody := responseNoBody method head.code
  chunked := head.chunked

end ResponseHead

/-! ## The status -/

variable {head : ResponseHead} {text rest line : Bytes} {lines : List Bytes}

theorem isDigit_bounds {c : UInt8} (h : isDigit c = true) : 48 ≤ c.toNat ∧ c.toNat ≤ 57 := by
  have hc : 48 ≤ c ∧ c ≤ 57 := of_decide_eq_true h
  rw [UInt8.le_iff_toNat_le, UInt8.le_iff_toNat_le] at hc
  exact hc

theorem isSpace_of_digit {c : UInt8} (h : isDigit c = true) : isSpace c = false := by
  have hc : 48 ≤ c ∧ c ≤ 57 := of_decide_eq_true h
  unfold isSpace
  rw [decide_eq_false_iff_not]
  rintro (rfl | ⟨-, h⟩)
  · exact absurd hc (by decide)
  · rw [UInt8.le_iff_toNat_le] at hc h
    have hbound : (48 : UInt8).toNat ≤ c.toNat := hc.1
    have hsmall : c.toNat ≤ (13 : UInt8).toNat := h
    have h48 : (48 : UInt8).toNat = 48 := rfl
    have h13 : (13 : UInt8).toNat = 13 := rfl
    omega

/-- A number is read up to the first byte that is no digit. -/
theorem scanInt_digits {digits : Bytes} (hne : digits ≠ []) (hdigits : ∀ c ∈ digits, isDigit c = true)
    (hrest : ∀ c ∈ rest.head?, isDigit c = false) : scanInt (digits ++ rest) = some ((digitsValue digits : Int), rest) := by
  have htake : (digits ++ rest).takeWhile isDigit = digits := by
    rw [List.takeWhile_append_of_pos hdigits]
    cases rest with
    | nil => rw [List.takeWhile_nil, List.append_nil]
    | cons c rest =>
        rw [List.takeWhile_cons, hrest c rfl]
        exact List.append_nil _
  have hscan : scanDigits false (digits ++ rest) = some ((digitsValue digits : Int), rest) := by
    unfold scanDigits
    simp only
    rw [htake, if_neg hne, List.drop_left]
    rfl
  cases digits with
  | nil => exact absurd rfl hne
  | cons d digits =>
      have hd := hdigits d List.mem_cons_self
      have hbounds := isDigit_bounds hd
      have hdrop : (d :: digits ++ rest).dropWhile isSpace = d :: digits ++ rest := by
        rw [List.cons_append, List.dropWhile_cons, isSpace_of_digit hd]
        rfl
      unfold scanInt
      rw [hdrop]
      split
      · rename_i h
        have hc := (List.cons.inj h).1
        rw [hc] at hbounds
        exact absurd hbounds (by decide)
      · rename_i h
        have hc := (List.cons.inj h).1
        rw [hc] at hbounds
        exact absurd hbounds (by decide)
      · exact hscan

theorem storedInt_small {n : Nat} (h : n < 1000) : storedInt n = n := by
  unfold storedInt
  have hmin : min (n : Int) (2 ^ 63 - 1) = n := by omega
  have hmax : max (-2 ^ 63) (n : Int) = n := by omega
  rw [hmin, hmax]
  exact Int.bmod_eq_of_le (by omega) (by omega)

theorem code_small (head : ResponseHead) : digitsValue head.statusDigits < 1000 := by
  have h₁ := isDigit_bounds (head.digits head.hundreds (by simp))
  have h₂ := isDigit_bounds (head.digits head.tens (by simp))
  have h₃ := isDigit_bounds (head.digits head.units (by simp))
  show 10 * (10 * (10 * 0 + (head.hundreds.toNat - 48)) + (head.tens.toNat - 48)) + (head.units.toNat - 48) < 1000
  omega

/-- **The status of a block is found.** -/
theorem scanStatus_head (hrest : ∀ c ∈ rest.head?, isDigit c = false) :
    scanStatus (head.statusLine ++ rest) = some head.code := by
  have hone : ∀ d ∈ [head.major, head.minor, head.hundreds, head.tens, head.units], ∀ c ∈ [d], isDigit c = true := by
    intro d hd c hc
    rw [List.mem_singleton.mp hc]
    exact head.digits d hd
  have hstatus : ∀ c ∈ head.statusDigits, isDigit c = true := by
    intro c hc
    exact head.digits c (List.mem_cons_of_mem _ (List.mem_cons_of_mem _ hc))
  have hafter : ∀ c ∈ (head.reason ++ rest).head?, isDigit c = false := by
    intro c hc
    rcases head.reasonSpace with hnil | hspace
    · rw [hnil] at hc
      exact hrest c hc
    · rw [List.head?_append, hspace] at hc
      cases hc
      decide
  obtain ⟨tail, htail⟩ : ∃ tail, head.reason ++ rest = tail := ⟨_, rfl⟩
  rw [htail] at hafter
  have htext : head.statusLine ++ rest =
      ascii "HTTP/" ++ head.major :: 46 :: head.minor :: space :: (head.statusDigits ++ tail) := by
    rw [← htail]
    simp [ResponseHead.statusLine]
  have hmajor := @scanInt_digits (46 :: head.minor :: space :: (head.statusDigits ++ tail)) [head.major] (by simp)
    (hone _ (by simp)) (by simp; decide)
  have hminor := @scanInt_digits (space :: (head.statusDigits ++ tail)) [head.minor] (by simp) (hone _ (by simp))
    (by simp; decide)
  have hcode := @scanInt_digits tail head.statusDigits (List.cons_ne_nil _ _) hstatus hafter
  have hspaces : (space :: (head.statusDigits ++ tail)).dropWhile isSpace = head.statusDigits ++ tail := by
    have hfirst := isSpace_of_digit (head.digits head.hundreds (by simp))
    rw [List.dropWhile_cons, if_pos (by decide)]
    show List.dropWhile isSpace (head.hundreds :: _) = _
    rw [List.dropWhile_cons, hfirst]
    rfl
  rw [htext]
  show (scanInt (head.major :: 46 :: head.minor :: space :: (head.statusDigits ++ tail))).bind _ = _
  rw [show head.major :: 46 :: head.minor :: space :: (head.statusDigits ++ tail) =
    [head.major] ++ (46 :: head.minor :: space :: (head.statusDigits ++ tail)) from rfl, hmajor]
  show (scanInt ([head.minor] ++ (space :: (head.statusDigits ++ tail)))).bind _ = _
  rw [hminor]
  show (scanInt ((space :: (head.statusDigits ++ tail)).dropWhile isSpace)).bind _ = _
  rw [hspaces, hcode]
  show some (storedInt (digitsValue head.statusDigits)) = _
  rw [storedInt_small (code_small head)]
  rfl

/-! ## The bytes of the lines -/

/-- A byte that may stand in a line of the block. -/
def Printable (line : Bytes) : Prop := ∀ c ∈ line, c ≠ cr ∧ c ≠ lf ∧ c ≠ 0

theorem Printable.append {a b : Bytes} (ha : Printable a) (hb : Printable b) : Printable (a ++ b) := by
  intro c hc
  rcases List.mem_append.mp hc with hc | hc
  · exact ha c hc
  · exact hb c hc

theorem printable_of_fieldValueChar (h : ∀ c ∈ line, fieldValueChar c = true) : Printable line := by
  intro c hc
  have hchar := h c hc
  refine ⟨?_, ?_, ?_⟩
  · rintro rfl
    exact absurd hchar (by decide)
  · rintro rfl
    exact absurd hchar (by decide)
  · rintro rfl
    exact absurd hchar (by decide)

theorem printable_of_fieldLine (h : fieldLine line = true) : Printable line := by
  unfold fieldLine at h
  split at h
  · cases h
  rename_i name value hsplit
  obtain ⟨-, hname, hvalue⟩ := of_decide_eq_true h
  rw [splitColon_some hsplit]
  apply Printable.append
  · intro c hc
    have hchar := List.all_eq_true.mp hname c hc
    refine ⟨?_, ?_, ?_⟩
    · rintro rfl
      exact absurd hchar (by decide)
    · rintro rfl
      exact absurd hchar (by decide)
    · rintro rfl
      exact absurd hchar (by decide)
  · apply printable_of_fieldValueChar
    intro c hc
    rcases List.mem_cons.mp hc with rfl | hc
    · decide
    · exact List.all_eq_true.mp hvalue c hc

theorem printable_digit {c : UInt8} (h : isDigit c = true) : c ≠ cr ∧ c ≠ lf ∧ c ≠ 0 := by
  refine ⟨?_, ?_, ?_⟩
  · rintro rfl
    exact absurd h (by decide)
  · rintro rfl
    exact absurd h (by decide)
  · rintro rfl
    exact absurd h (by decide)

theorem printable_statusLine (head : ResponseHead) : Printable head.statusLine := by
  have hdigit : ∀ c ∈ [head.major, head.minor, head.hundreds, head.tens, head.units], c ≠ cr ∧ c ≠ lf ∧ c ≠ 0 :=
    fun c hc => printable_digit (head.digits c hc)
  unfold ResponseHead.statusLine
  apply Printable.append
  · apply Printable.append
    · apply Printable.append
      · exact forall_mem_of_all (by decide)
      · intro c hc
        simp only [List.mem_cons, List.not_mem_nil, or_false] at hc
        rcases hc with rfl | rfl | rfl | rfl
        · exact hdigit _ (by simp)
        · decide
        · exact hdigit _ (by simp)
        · decide
    · intro c hc
      exact hdigit c (List.mem_cons_of_mem _ (List.mem_cons_of_mem _ hc))
  · exact printable_of_fieldValueChar (List.all_eq_true.mp head.reasonChars)

theorem printable_lines (head : ResponseHead) : ∀ line ∈ head.lines, Printable line := by
  intro line hline
  rcases List.mem_cons.mp hline with rfl | hline
  · exact printable_statusLine head
  · exact printable_of_fieldLine (head.fieldLines line hline)

theorem lines_ne_nil (head : ResponseHead) : ∀ line ∈ head.lines, line ≠ [] := by
  intro line hline
  rcases List.mem_cons.mp hline with rfl | hline
  · exact List.cons_ne_nil _ _
  · exact fieldLine_ne_nil (head.fieldLines line hline)

/-! ## The end of the block -/

theorem strstr_skip (h : cr ∉ line) (rest : Bytes) :
    strstr (crlf ++ crlf) (line ++ rest) = (strstr (crlf ++ crlf) rest).map (· + line.length) := by
  induction line with
  | nil =>
      rw [List.nil_append]
      cases strstr (crlf ++ crlf) rest with
      | none => rfl
      | some k => rfl
  | cons c line ih =>
      rw [List.mem_cons, not_or] at h
      have hstarts : ¬(crlf ++ crlf).isPrefixOf (c :: (line ++ rest)) = true := by
        rw [List.isPrefixOf_iff_prefix]
        rintro ⟨after, hafter⟩
        exact h.1 (List.cons.inj hafter).1
      rw [List.cons_append, strstr, if_neg hstarts, ih h.2, Option.map_map]
      rfl

/-- **The block ends where its lines do.** -/
theorem strstr_lines (hprint : ∀ line ∈ lines, Printable line) (hsolid : ∀ line ∈ lines, line ≠ []) (hne : lines ≠ [])
    (rest : Bytes) : ∃ k, strstr (crlf ++ crlf) (lines.flatMap (· ++ crlf) ++ crlf ++ rest) = some k ∧
      k + 2 = (lines.flatMap (· ++ crlf)).length := by
  induction lines with
  | nil => exact absurd rfl hne
  | cons line lines ih =>
      have hcr : cr ∉ line := fun hmem => (hprint line List.mem_cons_self cr hmem).1 rfl
      have hcrlf : crlf.length = 2 := rfl
      cases lines with
      | nil =>
          refine ⟨line.length, ?_, ?_⟩
          · have hbytes : [line].flatMap (· ++ crlf) ++ crlf ++ rest = line ++ (crlf ++ crlf ++ rest) := by simp
            rw [hbytes, strstr_skip hcr]
            show some (0 + line.length) = _
            rw [Nat.zero_add]
          · simp [crlf]
      | cons next lines =>
          obtain ⟨k, hk, hlen⟩ := ih (fun l hl => hprint l (List.mem_cons_of_mem _ hl))
            (fun l hl => hsolid l (List.mem_cons_of_mem _ hl)) (List.cons_ne_nil _ _)
          have hbytes : (line :: next :: lines).flatMap (· ++ crlf) ++ crlf ++ rest =
              line ++ (cr :: lf :: ((next :: lines).flatMap (· ++ crlf) ++ crlf ++ rest)) := by
            simp [crlf]
          obtain ⟨c, more, hmore⟩ : ∃ c more, next = c :: more :=
            List.exists_cons_of_ne_nil (hsolid next (List.mem_cons_of_mem _ List.mem_cons_self))
          have hc : c ≠ cr := by
            have hmem : c ∈ next := by rw [hmore]; exact List.mem_cons_self
            exact (hprint next (List.mem_cons_of_mem _ List.mem_cons_self) c hmem).1
          obtain ⟨tail, htail⟩ : ∃ tail, (next :: lines).flatMap (· ++ crlf) ++ crlf ++ rest = c :: tail := by
            rw [hmore]
            exact ⟨_, rfl⟩
          -- a CRLF with a line behind it is not the end
          have hstep : strstr (crlf ++ crlf) (cr :: lf :: (c :: tail)) = (strstr (crlf ++ crlf) (c :: tail)).map (· + 2) := by
            have hfirst : ¬(crlf ++ crlf).isPrefixOf (cr :: lf :: c :: tail) = true := by
              rw [List.isPrefixOf_iff_prefix]
              rintro ⟨after, hafter⟩
              have htwo := (List.cons.inj (List.cons.inj hafter).2).2
              exact hc (List.cons.inj htwo).1.symm
            have hsecond := @strstr_skip [lf] (by decide) (c :: tail)
            rw [strstr, if_neg hfirst]
            show Option.map (· + 1) (strstr (crlf ++ crlf) ([lf] ++ c :: tail)) = _
            rw [hsecond, Option.map_map]
            rfl
          refine ⟨k + 2 + line.length, ?_, ?_⟩
          · rw [hbytes, strstr_skip hcr, htail, hstep, ← htail, hk]
            rfl
          · rw [List.flatMap_cons, List.length_append, List.length_append, ← hlen]
            omega

/-! ## The fields -/

theorem digitsFold_some (digits : Bytes) : ∀ {n m : Nat},
    digits.foldlM (fun n c => if 48 ≤ c ∧ c ≤ 57 then some (10 * n + (c.toNat - 48)) else none) n = some m →
    ∀ c ∈ digits, isDigit c = true := by
  induction digits with
  | nil => exact nofun
  | cons d digits ih =>
      intro n m h c hc
      rw [List.foldlM_cons] at h
      obtain ⟨next, hnext, hrest⟩ := Option.bind_eq_some_iff.mp h
      obtain ⟨hd, -⟩ := Option.ite_none_right_eq_some.mp hnext
      rcases List.mem_cons.mp hc with rfl | hc
      · exact decide_eq_true hd
      · exact ih hrest c hc

theorem decimalValue_some {t : Bytes} {n : Nat} (h : decimalValue t = some n) :
    t ≠ [] ∧ (∀ c ∈ t, isDigit c = true) ∧ n = digitsValue t := by
  have hne : t ≠ [] := by
    rintro rfl
    cases h
  have hdigits : ∀ c ∈ t, isDigit c = true := by
    unfold decimalValue at h
    rw [if_neg hne] at h
    exact digitsFold_some t h
  rw [decimalValue_digits hne hdigits] at h
  exact ⟨hne, hdigits, (Option.some.inj h).symm⟩

theorem takeWhile_digits {digits blanks : Bytes} {p : UInt8 → Bool} (hdigits : ∀ c ∈ digits, p c = true)
    (hblanks : ∀ c ∈ blanks, p c = false) : (digits ++ blanks).takeWhile p = digits := by
  rw [List.takeWhile_append_of_pos hdigits]
  cases blanks with
  | nil => rw [List.takeWhile_nil, List.append_nil]
  | cons c blanks =>
      rw [List.takeWhile_cons, hblanks c List.mem_cons_self]
      exact List.append_nil _

/-- A `Content-Length` line with a number is taken. -/
theorem scanLine_length {scan : HeaderScan} {n : Nat} (hfield : isField "Content-Length" line = true)
    (hvalue : decimalValue (fieldValue line) = some n)
    (hsame : scan.hasLength = true → scan.contentLength = min n (2 ^ 64 - 1)) :
    scanLine scan line = some { scan with contentLength := min n (2 ^ 64 - 1), hasLength := true } := by
  have hname : colon ∉ ascii "Content-Length" := by decide
  have hstart := lengthField_iff.mp hfield
  obtain ⟨found, hsplit, -⟩ := (startsFold_field line hname).mp hstart
  obtain ⟨value, hval⟩ : ∃ value, (line.drop 15).dropWhile blank = value := ⟨_, rfl⟩
  have hfieldValue : fieldValue line = value.rdropWhile blank := by
    unfold fieldValue
    rw [hsplit, ← hval]
    rfl
  rw [hfieldValue] at hvalue
  obtain ⟨hne, hdigits, hn⟩ := decimalValue_some hvalue
  -- the value is digits with blanks behind them
  obtain ⟨digits, hdig⟩ : ∃ digits, value.rdropWhile blank = digits := ⟨_, rfl⟩
  obtain ⟨blanks, hparts, hblanks⟩ : ∃ blanks, value = digits ++ blanks ∧ ∀ c ∈ blanks, blank c = true := by
    refine ⟨value.rtakeWhile blank, ?_, fun c hc => List.mem_rtakeWhile_imp hc⟩
    rw [← hdig, List.rdropWhile_append_rtakeWhile]
  rw [hdig] at hne hdigits hn
  have hlong : line.length > 15 ∧ startsFold line (ascii "Content-Length:") = true := by
    refine ⟨?_, hstart⟩
    by_contra hshort
    rw [List.drop_eq_nil_of_le (by omega)] at hval
    rw [← hval] at hdig
    exact hne hdig.symm
  have hvalue_ne : value ≠ [] := by
    intro hnil
    rw [hnil] at hdig
    exact hne hdig.symm
  have hword : (value.takeWhile fun c => ¬blank c) = digits := by
    rw [hparts]
    apply takeWhile_digits
    · intro c hc
      rw [blank_not_digit (hdigits c hc)]
      rfl
    · intro c hc
      rw [hblanks c hc]
      rfl
  have hnumber : value.takeWhile isDigit = digits := by
    rw [hparts]
    apply takeWhile_digits hdigits
    intro c hc
    by_contra hdigit
    rw [Bool.not_eq_false] at hdigit
    have hblank := hblanks c hc
    rw [blank_not_digit hdigit] at hblank
    cases hblank
  have htail : (value.drop digits.length).dropWhile blank = [] := by
    rw [hparts, List.drop_left, List.dropWhile_eq_nil_iff]
    exact hblanks
  have hstrtoull : strtoull digits = min n (2 ^ 64 - 1) := by
    unfold strtoull
    rw [hn]
  unfold scanLine
  rw [if_pos hlong]
  simp only
  rw [hval, if_neg hvalue_ne, hword, hnumber, if_neg, if_neg, if_neg, hstrtoull]
  · rintro ⟨hhas, hclash⟩
    exact hclash (by rw [hstrtoull]; exact hsame hhas)
  · rw [ne_eq, not_not]
    exact htail
  · rw [Bool.not_eq_false, List.all_eq_true]
    exact hdigits

theorem scanLine_other {scan : HeaderScan} (hfield : isField "Content-Length" line = false) :
    scanLine scan line = some { scan with chunked := scan.chunked || chunkedField line } := by
  have hlong : ¬(line.length > 15 ∧ startsFold line (ascii "Content-Length:") = true) := by
    rintro ⟨-, hstart⟩
    rw [lengthField_iff.mpr hstart] at hfield
    cases hfield
  unfold scanLine
  rw [if_neg hlong]
  cases hchunked : chunkedField line with
  | true =>
      rw [if_pos (chunkedField_iff.mp hchunked), Bool.or_true]
  | false =>
      rw [if_neg (fun hc => by rw [chunkedField_iff.mpr hc] at hchunked; cases hchunked), Bool.or_false]

/-- **The fields of a block are taken together.** -/
theorem scanLines_forward {n : Nat} : ∀ {lines : List Bytes} {scan : HeaderScan},
    (∀ line ∈ lines, isField "Content-Length" line = true → decimalValue (fieldValue line) = some n ∧ chunkedField line = false) →
    (scan.hasLength = true → scan.contentLength = min n (2 ^ 64 - 1)) →
    lines.foldlM scanLine scan = some
      ⟨if lines.any (isField "Content-Length") then min n (2 ^ 64 - 1) else scan.contentLength,
        scan.hasLength || lines.any (isField "Content-Length"), scan.chunked || lines.any chunkedField⟩
  | [], scan, _, _ => by
      simp only [List.any_nil, Bool.or_false]
      rfl
  | line :: lines, scan, hlines, hsame => by
      have hrest : ∀ l ∈ lines, isField "Content-Length" l = true →
          decimalValue (fieldValue l) = some n ∧ chunkedField l = false :=
        fun l hl => hlines l (List.mem_cons_of_mem _ hl)
      rw [List.foldlM_cons]
      cases hfield : isField "Content-Length" line with
      | true =>
          obtain ⟨hvalue, hno⟩ := hlines line List.mem_cons_self hfield
          rw [scanLine_length hfield hvalue hsame]
          show lines.foldlM scanLine _ = _
          rw [scanLines_forward hrest (fun _ => rfl)]
          simp only [List.any_cons, hfield, hno, Bool.true_or, Bool.false_or, Bool.or_true, ite_self, if_true]
      | false =>
          rw [scanLine_other hfield]
          have hmore := @scanLines_forward n lines { scan with chunked := scan.chunked || chunkedField line } hrest hsame
          show lines.foldlM scanLine _ = _
          rw [hmore]
          simp only [List.any_cons, hfield, Bool.false_or, Bool.or_assoc]

/-! ## The block is read back -/

theorem crlfLines_flatMap : ∀ {lines : List Bytes} {fuel : Nat}, (∀ line ∈ lines, lf ∉ line) →
    (lines.flatMap (· ++ crlf)).length ≤ fuel → crlfLines fuel (lines.flatMap (· ++ crlf)) = lines
  | [], fuel, _, _ => by cases fuel <;> rfl
  | line :: lines, fuel, hlf, hfuel => by
      have hcrlf : crlf.length = 2 := rfl
      rw [List.flatMap_cons, List.length_append, List.length_append] at hfuel
      obtain ⟨fuel, rfl⟩ := Nat.exists_eq_add_one_of_ne_zero (show fuel ≠ 0 by omega)
      rw [List.flatMap_cons, crlfLines, splitCrlf_line (hlf line List.mem_cons_self)]
      simp only
      rw [crlfLines_flatMap (fun l hl => hlf l (List.mem_cons_of_mem _ hl)) (by omega)]

theorem statusLine_other (head : ResponseHead) :
    isField "Content-Length" head.statusLine = false ∧ chunkedField head.statusLine = false := by
  have hfirst : ∃ rest, head.statusLine = 72 :: rest := ⟨_, rfl⟩
  obtain ⟨rest, hrest⟩ := hfirst
  constructor
  · rw [← Bool.not_eq_true, lengthField_iff, hrest]
    intro h
    exact absurd (List.cons.inj (sameFold_iff.mp h)).1 (by decide)
  · rw [← Bool.not_eq_true, chunkedField_iff, hrest]
    rintro ⟨-, h, -⟩
    exact absurd (List.cons.inj (sameFold_iff.mp h)).1 (by decide)

theorem contentLength_field (head : ResponseHead) (hline : line ∈ head.fields) (hfield : isField "Content-Length" line = true) :
    ∃ n, head.contentLength = some n ∧ decimalValue (fieldValue line) = some n := by
  unfold ResponseHead.contentLength
  cases hfind : head.fields.find? (isField "Content-Length") with
  | none => exact absurd hfield (List.find?_eq_none.mp hfind line hline)
  | some first =>
      obtain ⟨n, hn, hall⟩ := head.lengths line hline hfield
      exact ⟨n, hall first (List.mem_of_find?_eq_some hfind) (List.find?_some hfind), hn⟩

theorem contentLength_isSome (head : ResponseHead) :
    head.contentLength.isSome = head.fields.any (isField "Content-Length") := by
  rw [Bool.eq_iff_iff, List.any_eq_true]
  constructor
  · intro h
    unfold ResponseHead.contentLength at h
    cases hfind : head.fields.find? (isField "Content-Length") with
    | none =>
        rw [hfind] at h
        cases h
    | some first => exact ⟨first, List.mem_of_find?_eq_some hfind, List.find?_some hfind⟩
  · rintro ⟨line, hline, hfield⟩
    obtain ⟨n, hn, -⟩ := contentLength_field head hline hfield
    rw [hn]
    rfl

/-- The loop over the lines of a block. -/
theorem scanLines_head (head : ResponseHead) : head.lines.foldlM scanLine ⟨0, false, false⟩ =
    some ⟨min (head.contentLength.getD 0) (2 ^ 64 - 1), head.contentLength.isSome, head.chunked⟩ := by
  obtain ⟨hlength, hchunked⟩ := statusLine_other head
  have hlines : ∀ line ∈ head.lines, isField "Content-Length" line = true →
      decimalValue (fieldValue line) = some (head.contentLength.getD 0) ∧ chunkedField line = false := by
    intro line hline hfield
    rcases List.mem_cons.mp hline with rfl | hline
    · rw [hlength] at hfield
      cases hfield
    · obtain ⟨n, hn, hvalue⟩ := contentLength_field head hline hfield
      refine ⟨by rw [hn]; exact hvalue, ?_⟩
      rw [← Bool.not_eq_true, chunkedField_iff]
      rintro ⟨-, hstart, -⟩
      exact not_both_starts (lengthField_iff.mp hfield) hstart
  have hany : head.lines.any (isField "Content-Length") = head.contentLength.isSome := by
    rw [contentLength_isSome, ResponseHead.lines, List.any_cons, hlength, Bool.false_or]
  have hanyChunked : head.lines.any chunkedField = head.chunked := by
    rw [ResponseHead.lines, List.any_cons, hchunked, Bool.false_or]
    rfl
  rw [scanLines_forward hlines (fun h => absurd h (by decide)), hany, hanyChunked, Bool.false_or, Bool.false_or]
  cases head.contentLength with
  | none => rfl
  | some n => rfl

theorem render_eq (head : ResponseHead) : head.render = head.lines.flatMap (· ++ crlf) ++ crlf := rfl

theorem printable_nul (head : ResponseHead) : ∀ c ∈ head.render, c ≠ 0 := by
  intro c hc
  rcases List.mem_append.mp hc with hc | hc
  · obtain ⟨line, hline, hc⟩ := List.mem_flatMap.mp hc
    rcases List.mem_append.mp hc with hc | hc
    · exact (printable_lines head line hline c hc).2.2
    · rintro rfl
      exact absurd hc (by decide)
  · rintro rfl
    exact absurd hc (by decide)

theorem cString_head (head : ResponseHead) (body : Bytes) : cString (head.render ++ body) = head.render ++ cString body := by
  unfold cString
  apply List.takeWhile_append_of_pos
  intro c hc
  exact decide_eq_true (printable_nul head c hc)

/-- The block starts with the status line, and the first empty line ends it. -/
theorem strstr_head (head : ResponseHead) (rest : Bytes) :
    ∃ k, strstr (crlf ++ crlf) (head.render ++ rest) = some k ∧ k + 4 = head.render.length := by
  obtain ⟨k, hk, hlen⟩ := strstr_lines (printable_lines head) (lines_ne_nil head) (List.cons_ne_nil _ _) rest
  refine ⟨k, hk, ?_⟩
  rw [render_eq, List.length_append, ← hlen]
  rfl

/-- **A block that is there in full is accepted, whatever stands behind it.** -/
theorem parse_head (head : ResponseHead) (body : Bytes) (method : Option Bytes) :
    parseResponseHeaders (head.render ++ body) method = .accepted (head.headers method) := by
  obtain ⟨k, hk, hlen⟩ := strstr_head head (cString body)
  have hfits : ¬(k + 4 > (head.render ++ body).length) := by
    rw [List.length_append]
    omega
  have hstatus : scanStatus (cString (head.render ++ body)) = some head.code := by
    have hbytes : head.render ++ cString body =
        head.statusLine ++ (cr :: lf :: (head.fields.flatMap (· ++ crlf) ++ crlf ++ cString body)) := by
      rw [render_eq, ResponseHead.lines, List.flatMap_cons]
      simp [crlf]
    rw [cString_head, hbytes]
    apply scanStatus_head
    intro c hc
    cases hc
    decide
  have htake : (head.render ++ body).take (k + 2) = head.lines.flatMap (· ++ crlf) := by
    rw [render_eq, List.append_assoc]
    apply List.take_left'
    rw [render_eq, List.length_append] at hlen
    have hcrlf : crlf.length = 2 := rfl
    omega
  have hlines : headerLines (head.lines.flatMap (· ++ crlf)) = head.lines :=
    crlfLines_flatMap (fun line hline hmem => (printable_lines head line hline lf hmem).2.1 rfl) (Nat.le_refl _)
  have hexclusive : ¬(head.contentLength.isSome = true ∧ head.chunked = true) := by
    rintro ⟨hsome, hchunked⟩
    rw [contentLength_isSome] at hsome
    have hno := head.exclusive hsome
    rw [ResponseHead.chunked, hno] at hchunked
    cases hchunked
  unfold parseResponseHeaders
  rw [cString_head, hk]
  simp only
  rw [if_neg hfits, ← cString_head, hstatus]
  simp only
  rw [htake, hlines, scanLines_head]
  simp only
  rw [if_neg hexclusive, hlen]
  rfl

/-- **A block that is not there in full is not accepted.** -/
theorem parse_part (head : ResponseHead) {part : Bytes} (hpart : part <+: head.render) (hne : part ≠ head.render)
    (method : Option Bytes) : parseResponseHeaders part method = .incomplete := by
  unfold parseResponseHeaders
  cases hfind : strstr (crlf ++ crlf) (cString part) with
  | none => rfl
  | some j =>
      exfalso
      obtain ⟨k, hk, hlen⟩ := strstr_head head []
      rw [List.append_nil] at hk
      obtain ⟨after, htext, hj⟩ := strstr_some hfind
      obtain ⟨tail, htail⟩ := cString_append part
      obtain ⟨rest, hrest⟩ := hpart
      have hwhole : head.render = (cString part).take j ++ (crlf ++ crlf) ++ (after ++ tail ++ rest) := by
        rw [← hrest]
        nth_rewrite 1 [htail, htext]
        simp only [List.append_assoc]
      have hfirst := strstr_first hk _ _ hwhole
      rw [List.length_take_of_le hj] at hfirst
      -- the part holds all of the block
      have hpartLen : j + 4 ≤ part.length := by
        have hcount := congrArg List.length htext
        rw [List.length_append, List.length_append, List.length_take_of_le hj] at hcount
        have hfour : (crlf ++ crlf).length = 4 := rfl
        have htailLen := congrArg List.length htail
        rw [List.length_append] at htailLen
        omega
      have hnil : rest = [] := by
        have hcount := congrArg List.length hrest
        rw [List.length_append] at hcount
        exact List.length_eq_zero_iff.mp (by omega)
      rw [hnil, List.append_nil] at hrest
      exact hne hrest

theorem acceptedLines_head (head : ResponseHead) (body : Bytes) (method : Option Bytes) :
    acceptedLines (head.render ++ body) (head.headers method) = head.lines := by
  have htake : (head.render ++ body).take (head.render.length - 2) = head.lines.flatMap (· ++ crlf) := by
    rw [render_eq, List.append_assoc]
    apply List.take_left'
    rw [List.length_append]
    rfl
  show headerLines ((head.render ++ body).take (head.render.length - 2)) = _
  rw [htake]
  exact crlfLines_flatMap (fun line hline hmem => (printable_lines head line hline lf hmem).2.1 rfl) (Nat.le_refl _)

/-- **The receive loops see the coding of the block.** -/
theorem chunkedResponse_head (head : ResponseHead) (body : Bytes) (method : Option Bytes) :
    chunkedResponse (head.headers method) (head.render ++ body) = head.chunked := by
  obtain ⟨scan, hacc⟩ := parseResponseHeaders_accepted (parse_head head body method)
  rw [acceptedLines_head] at hacc
  have hharmless := hacc.harmless fun line hline hmem => (printable_lines head line hline lf hmem).2.1 rfl
  have hflag : (head.headers method).chunked = head.chunked := rfl
  rw [chunkedResponse, ← hflag, Bool.eq_iff_iff, hacc.token_iff, hacc.chunked_iff]
  constructor
  · rintro ⟨piece, hpiece, hchunked⟩
    exact hharmless.smuggled piece hpiece hchunked
  · rintro ⟨line, hline, hchunked⟩
    exact hharmless.hidden line hline hchunked

/-! ## A line `HTTP/1.1 200 OK` -/

theorem http200_digits : ∀ c ∈ ([49, 49, 50, 48, 48] : Bytes), isDigit c = true := forall_mem_of_all (by decide)

theorem okReason_chars : (ascii " OK").all fieldValueChar = true := by decide

theorem okReason_space : ascii " OK" = [] ∨ (ascii " OK").head? = some space := by decide

end Vnt.Net
