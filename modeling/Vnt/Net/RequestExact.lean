import Vnt.Net.Request

/-!
# `Vnt.Net.RequestExact`: when the request buffer is large enough

The buffer is sized for the header text as it is given, while each of its lines is sent with two bytes behind it. The
whole request is sent exactly when it is shorter than the buffer.
-/

namespace Vnt.Net

variable {reqcap : Nat} {w w' : Writer} {text bytes : Bytes}

/-- The buffer holds `bytes` before its position. -/
def Writer.Holds (w : Writer) (bytes : Bytes) : Prop := w.position = bytes.length ∧ slice w.memory 0 w.position = bytes

theorem Writer.Holds.blit (h : w.Holds bytes) (text : Bytes) :
    Writer.Holds ⟨Vnt.blit w.memory w.position text, w.position + text.length⟩ (bytes ++ text) := by
  refine ⟨?_, ?_⟩
  · rw [List.length_append, ← h.1]
  · rw [slice_blit, h.2]

/-! ## The header text -/

/-- The bytes of lines with their ends. -/
abbrev ended (lines : List Bytes) : Bytes := lines.flatMap (· ++ crlf)

theorem length_ended_cons (line : Bytes) (lines : List Bytes) :
    (ended (line :: lines)).length = line.length + 2 + (ended lines).length := by
  simp [ended, crlf]
  omega

/-- The lines the loop copies, from a position on. -/
def copiedLines (reqcap : Nat) : Nat → List Bytes → List Bytes
  | _, [] => []
  | position, line :: lines =>
      if goesOut (dropCrs line) ∧ position + (dropCrs line).length + 2 < reqcap then
        dropCrs line :: copiedLines reqcap (position + (dropCrs line).length + 2) lines
      else copiedLines reqcap position lines

theorem copyHeader_holds (lines : List Bytes) : ∀ {w : Writer} {bytes : Bytes}, w.Holds bytes →
    (lines.foldl (copyHeader reqcap) w).Holds (bytes ++ ended (copiedLines reqcap w.position lines)) := by
  induction lines with
  | nil =>
      intro w bytes h
      simpa [ended, copiedLines] using h
  | cons line lines ih =>
      intro w bytes h
      rw [List.foldl_cons, copiedLines]
      by_cases hcopy : goesOut (dropCrs line) ∧ w.position + (dropCrs line).length + 2 < reqcap
      · have hstep : copyHeader reqcap w line = ⟨blit w.memory w.position (dropCrs line ++ crlf),
            w.position + (dropCrs line ++ crlf).length⟩ := by
          rw [copyHeader, if_pos hcopy, List.length_append]
          rfl
        have hlen : w.position + (dropCrs line ++ crlf).length = w.position + (dropCrs line).length + 2 := by
          rw [List.length_append]
          rfl
        have hnext := ih (h.blit (dropCrs line ++ crlf))
        rw [if_pos hcopy, hstep]
        rw [hlen] at hnext ⊢
        simpa [ended, List.append_assoc] using hnext
      · rw [if_neg hcopy, copyHeader, if_neg hcopy]
        exact ih h

/-- Lines that fit are all copied. -/
theorem copiedLines_eq (lines : List Bytes) : ∀ {position : Nat},
    position + (ended ((lines.map dropCrs).filter goesOut)).length < reqcap →
    copiedLines reqcap position lines = (lines.map dropCrs).filter goesOut := by
  induction lines with
  | nil => intro position _; rfl
  | cons line lines ih =>
      intro position h
      rw [List.map_cons, List.filter_cons] at h ⊢
      rw [copiedLines]
      by_cases hcarried : goesOut (dropCrs line) = true
      · rw [if_pos hcarried] at h ⊢
        rw [length_ended_cons] at h
        rw [if_pos ⟨hcarried, by omega⟩, ih (by omega)]
      · rw [if_neg hcarried] at h ⊢
        rw [if_neg fun hcopy => hcarried hcopy.1]
        exact ih h

theorem copiedLines_le (reqcap : Nat) (lines : List Bytes) : ∀ (position : Nat),
    (ended (copiedLines reqcap position lines)).length ≤ (ended ((lines.map dropCrs).filter goesOut)).length := by
  induction lines with
  | nil => intro position; exact Nat.le_refl _
  | cons line lines ih =>
      intro position
      rw [List.map_cons, List.filter_cons, copiedLines]
      by_cases hcarried : goesOut (dropCrs line) = true
      · rw [if_pos hcarried, length_ended_cons]
        split
        · have hnext := ih (position + (dropCrs line).length + 2)
          rw [length_ended_cons]
          omega
        · have hnext := ih position
          omega
      · rw [if_neg hcarried, if_neg fun hcopy => hcarried hcopy.1]
        exact ih position

/-! ## The rest of the buffer -/

/-- A text that fits is stored whole. -/
theorem snprintfAt_fits (h : w.Holds bytes) (hfits : bytes.length + text.length < reqcap) :
    ∃ w', snprintfAt reqcap w text = some w' ∧ w'.Holds (bytes ++ text) := by
  have hroom : reqcap - w.position ≠ 0 := by rw [h.1]; omega
  have htake : text.take (reqcap - w.position - 1) = text := List.take_of_length_le (by rw [h.1]; omega)
  refine ⟨_, if_neg (by rw [h.1]; omega), ?_, ?_⟩
  · show w.position + text.length = _
    rw [List.length_append, h.1]
  · show slice (blit w.memory w.position (stored text (reqcap - w.position))) 0 (w.position + text.length) = _
    rw [stored, if_neg hroom, htake, slice_blit_append, h.2]

/-- The position moves by the length of the text, stored or not. -/
theorem snprintfAt_position (h : snprintfAt reqcap w text = some w') : w'.position = w.position + text.length := by
  unfold snprintfAt at h
  split at h
  · cases h
  · cases h
    rfl

theorem snprintfAt_all_fit (texts : List Bytes) : ∀ {w : Writer} {bytes : Bytes}, w.Holds bytes →
    bytes.length + texts.flatten.length < reqcap →
    ∃ w', texts.foldlM (snprintfAt reqcap) w = some w' ∧ w'.Holds (bytes ++ texts.flatten) := by
  induction texts with
  | nil =>
      intro w bytes h _
      exact ⟨w, rfl, by simpa using h⟩
  | cons text texts ih =>
      intro w bytes h hfits
      rw [List.flatten_cons, List.length_append] at hfits
      obtain ⟨w₁, hw₁, h₁⟩ := snprintfAt_fits h (show bytes.length + text.length < reqcap by omega)
      obtain ⟨w₂, hw₂, h₂⟩ := ih h₁ (by rw [List.length_append]; omega)
      refine ⟨w₂, ?_, by simpa [List.append_assoc] using h₂⟩
      rw [List.foldlM_cons, hw₁]
      exact hw₂

theorem snprintfAt_all_position (texts : List Bytes) : ∀ {w w' : Writer},
    texts.foldlM (snprintfAt reqcap) w = some w' → w'.position = w.position + texts.flatten.length := by
  induction texts with
  | nil =>
      intro w w' h
      cases h
      rfl
  | cons text texts ih =>
      intro w w' h
      rw [List.foldlM_cons] at h
      obtain ⟨w₁, hw₁, h₁⟩ := Option.bind_eq_some_iff.mp h
      rw [ih h₁, snprintfAt_position hw₁, List.flatten_cons, List.length_append, Nat.add_assoc]

theorem finishRequest_fits (headers body : Bytes) (h : w.Holds bytes)
    (hfits : bytes.length + (bodyHeaders headers body).flatten.length + 2 + body.length < reqcap) :
    ∃ w', finishRequest reqcap headers body w = some w' ∧
      w'.Holds (bytes ++ (bodyHeaders headers body).flatten ++ crlf ++ body) := by
  obtain ⟨w₁, hw₁, h₁⟩ := snprintfAt_all_fit (bodyHeaders headers body) h
    (show bytes.length + (bodyHeaders headers body).flatten.length < reqcap by omega)
  have hlen₁ : (bytes ++ (bodyHeaders headers body).flatten).length + crlf.length < reqcap := by
    rw [List.length_append]
    show _ + 2 < reqcap
    omega
  obtain ⟨w₂, hw₂, h₂⟩ := snprintfAt_fits h₁ hlen₁
  have hfinish : finishRequest reqcap headers body w =
      some (if body ≠ [] ∧ w₂.position + body.length < reqcap then
        ⟨blit w₂.memory w₂.position body, w₂.position + body.length⟩ else w₂) := by
    rw [finishRequest, hw₁]
    show (snprintfAt reqcap w₁ crlf).bind _ = _
    rw [hw₂]
    rfl
  refine ⟨_, hfinish, ?_⟩
  have hroom : w₂.position + body.length < reqcap := by
    rw [h₂.1, List.length_append, List.length_append]
    show _ + 2 + body.length < reqcap
    omega
  by_cases hbody : body = []
  · rw [if_neg fun hc => hc.1 hbody, hbody, List.append_nil, ← hbody]
    exact h₂
  · rw [if_pos ⟨hbody, hroom⟩]
    exact h₂.blit body

/-- A body that does not fit is left out. -/
theorem finishRequest_short {headers body : Bytes} (h : w.Holds bytes)
    (hshort : reqcap ≤ bytes.length + (bodyHeaders headers body).flatten.length + 2 + body.length)
    (hfinish : finishRequest reqcap headers body w = some w') :
    w'.position = bytes.length + (bodyHeaders headers body).flatten.length + 2 ∧
      (body = [] → w'.memory = blit w.memory bytes.length (stored crlf (reqcap - bytes.length))) := by
  unfold finishRequest at hfinish
  obtain ⟨w₁, hw₁, hrest⟩ := Option.bind_eq_some_iff.mp hfinish
  obtain ⟨w₂, hw₂, hlast⟩ := Option.bind_eq_some_iff.mp hrest
  have hpos₁ := snprintfAt_all_position _ hw₁
  have hpos₂ := snprintfAt_position hw₂
  have hpos : w₂.position = bytes.length + (bodyHeaders headers body).flatten.length + 2 := by
    rw [hpos₂, hpos₁, h.1]
    rfl
  rw [if_neg fun hc => absurd hc.2 (by rw [hpos]; omega)] at hlast
  cases hlast
  refine ⟨hpos, fun hbody => ?_⟩
  rw [hbody] at hw₁
  cases hw₁
  unfold snprintfAt at hw₂
  split at hw₂
  · cases hw₂
  · cases hw₂
    show blit w.memory w.position (stored crlf (reqcap - w.position)) = _
    rw [h.1]

/-! ## The whole assembly -/

/-- `reqcap`, as a number. -/
def capacityOf (method : Bytes) (u : ParsedUrl) (headers body : Bytes) : Nat :=
  512 + method.length + u.target.length + u.host.length + headers.length + body.length

theorem requestCapacity_eq (parts : List Nat) : ∀ {cap : Nat}, cap ≤ sizeMax →
    parts.foldlM (fun cap part => if part > sizeMax - cap then none else some (cap + part)) cap =
      if cap + parts.sum ≤ sizeMax then some (cap + parts.sum) else none := by
  induction parts with
  | nil =>
      intro cap h
      rw [List.sum_nil, Nat.add_zero, if_pos h]
      rfl
  | cons part parts ih =>
      intro cap h
      rw [List.foldlM_cons, List.sum_cons]
      by_cases hpart : part > sizeMax - cap
      · rw [if_pos hpart, if_neg (by omega)]
        rfl
      · rw [if_neg hpart]
        show List.foldlM _ (cap + part) parts = _
        rw [ih (by omega), Nat.add_assoc]

theorem requestCapacity_parts (method : Bytes) (u : ParsedUrl) (headers body : Bytes) :
    requestCapacity [method.length, u.target.length, u.host.length, headers.length, body.length] =
      if capacityOf method u headers body ≤ sizeMax then some (capacityOf method u headers body) else none := by
  rw [requestCapacity, requestCapacity_eq _ (by decide)]
  have hsum : 512 + [method.length, u.target.length, u.host.length, headers.length, body.length].sum =
      capacityOf method u headers body := by
    simp only [List.sum_cons, List.sum_nil, capacityOf]
    omega
  rw [hsum]

/-- The requests that are given up before a byte is written. -/
def TooLarge (useProxy : Bool) (method : Bytes) (u : ParsedUrl) (headers body : Bytes) : Prop :=
  sizeMax < capacityOf method u headers body ∨ 2 ^ 31 - 1 < (requestHead useProxy method u).length ∨
    capacityOf method u headers body ≤ (requestHead useProxy method u).length

variable {useProxy : Bool} {method headers body : Bytes} {u : ParsedUrl}

/-- The buffer behind the header text. -/
theorem headers_hold (reqcap : Nat) (useProxy : Bool) (method : Bytes) (u : ParsedUrl) (headers : Bytes) :
    Writer.Holds ((textLines headers).foldl (copyHeader reqcap)
      ⟨blit (fun _ => 0) 0 (requestHead useProxy method u ++ [0]), (requestHead useProxy method u).length⟩)
      (requestHead useProxy method u ++
        ended (copiedLines reqcap (requestHead useProxy method u).length (textLines headers))) := by
  apply copyHeader_holds (textLines headers)
  refine ⟨rfl, ?_⟩
  have hslice := slice_blit_append (fun _ => (0 : UInt8)) 0 (requestHead useProxy method u) [0]
  rw [Nat.zero_add] at hslice
  exact hslice

/-- What the assembly does when it is not given up. -/
theorem assembleRequest_eq (h : ¬ TooLarge useProxy method u headers body) :
    assembleRequest useProxy method u headers body =
      match finishRequest (capacityOf method u headers body) headers body
        ((textLines headers).foldl (copyHeader (capacityOf method u headers body))
          ⟨blit (fun _ => 0) 0 (requestHead useProxy method u ++ [0]), (requestHead useProxy method u).length⟩) with
      | none => .overrun
      | some w => if capacityOf method u headers body < w.position then .overrun
          else .sent (slice w.memory 0 w.position) := by
  unfold TooLarge at h
  rw [assembleRequest, requestCapacity_parts, if_pos (by omega)]
  simp only
  exact if_neg (by omega)

theorem assembleRequest_tooLarge (h : TooLarge useProxy method u headers body) :
    assembleRequest useProxy method u headers body = .refused := by
  rw [assembleRequest, requestCapacity_parts]
  by_cases hsize : capacityOf method u headers body ≤ sizeMax
  · rw [if_pos hsize]
    simp only
    rw [if_pos]
    rcases h with h | h
    · omega
    · exact h
  · rw [if_neg hsize]

theorem length_fullRequest : (fullRequest useProxy method u headers body).length =
    (requestHead useProxy method u).length + (ended (carriedLines headers)).length +
      (bodyHeaders headers body).flatten.length + 2 + body.length := by
  simp only [fullRequest, List.length_append]
  rfl

/-- A request that fits is sent whole. -/
theorem assembleRequest_fits (hlarge : ¬ TooLarge useProxy method u headers body)
    (h : (fullRequest useProxy method u headers body).length < capacityOf method u headers body) :
    assembleRequest useProxy method u headers body = .sent (fullRequest useProxy method u headers body) := by
  rw [assembleRequest_eq hlarge]
  obtain ⟨reqcap, hcap⟩ : ∃ reqcap, capacityOf method u headers body = reqcap := ⟨_, rfl⟩
  rw [hcap] at h ⊢
  have hlen := h
  rw [length_fullRequest] at hlen
  have hcopied : copiedLines reqcap (requestHead useProxy method u).length (textLines headers) = carriedLines headers :=
    copiedLines_eq (textLines headers) (by show _ + (ended (carriedLines headers)).length < reqcap; omega)
  have hheld := headers_hold reqcap useProxy method u headers
  rw [hcopied] at hheld
  obtain ⟨w, hw, hw'⟩ := finishRequest_fits headers body hheld (by rw [List.length_append]; omega)
  rw [hw]
  simp only
  have hfull : w.Holds (fullRequest useProxy method u headers body) := hw'
  rw [if_neg (by rw [hfull.1]; omega), hfull.2]

/-- **A request that does not fit is not sent whole.** -/
theorem assembleRequest_short (hlarge : ¬ TooLarge useProxy method u headers body)
    (h : capacityOf method u headers body ≤ (fullRequest useProxy method u headers body).length) :
    assembleRequest useProxy method u headers body ≠ .sent (fullRequest useProxy method u headers body) := by
  have hhead : (requestHead useProxy method u).length < capacityOf method u headers body := by
    unfold TooLarge at hlarge
    omega
  rw [assembleRequest_eq hlarge]
  obtain ⟨reqcap, hcap⟩ : ∃ reqcap, capacityOf method u headers body = reqcap := ⟨_, rfl⟩
  rw [hcap] at h hhead ⊢
  have hheld := headers_hold reqcap useProxy method u headers
  have hle : _ ≤ (ended (carriedLines headers)).length :=
    copiedLines_le reqcap (textLines headers) (requestHead useProxy method u).length
  obtain ⟨copied, hcopied⟩ : ∃ copied,
      ended (copiedLines reqcap (requestHead useProxy method u).length (textLines headers)) = copied := ⟨_, rfl⟩
  obtain ⟨start, hstart⟩ : ∃ start, (textLines headers).foldl (copyHeader reqcap)
      ⟨blit (fun _ => 0) 0 (requestHead useProxy method u ++ [0]), (requestHead useProxy method u).length⟩ = start :=
    ⟨_, rfl⟩
  rw [hcopied, hstart] at hheld
  rw [hcopied] at hle
  rw [length_fullRequest] at h
  rw [hstart]
  intro hsent
  have hlength : ∀ {w : Writer}, slice w.memory 0 w.position = fullRequest useProxy method u headers body →
      w.position = (requestHead useProxy method u).length + (ended (carriedLines headers)).length +
        (bodyHeaders headers body).flatten.length + 2 + body.length := by
    intro w hw
    rw [← length_fullRequest, ← hw]
    simp [slice]
  by_cases hfits : (requestHead useProxy method u ++ copied).length + (bodyHeaders headers body).flatten.length + 2 +
      body.length < reqcap
  · -- a line was dropped
    obtain ⟨w, hw, hw'⟩ := finishRequest_fits headers body hheld hfits
    rw [hw] at hsent
    simp only at hsent
    split at hsent
    · cases hsent
    · rename_i hbound
      have hpos := hlength (Assembly.sent.inj hsent)
      rw [hw'.1] at hpos
      simp only [List.length_append] at hpos hfits
      have hcrlf : crlf.length = 2 := rfl
      omega
  · split at hsent
    · cases hsent
    rename_i w hw
    split at hsent
    · cases hsent
    rename_i hbound
    have hbytes := Assembly.sent.inj hsent
    have hpos := hlength hbytes
    obtain ⟨hshort, hmemory⟩ := finishRequest_short hheld (by omega) hw
    rw [List.length_append] at hshort hmemory
    have hempty : body = [] := List.length_eq_zero_iff.mp (by omega)
    have hnone : (bodyHeaders headers body).flatten = [] := by rw [hempty]; rfl
    -- the last byte of the buffer is the zero of `snprintf`
    rw [hnone, List.length_nil, Nat.add_zero] at hshort
    have hend : reqcap - ((requestHead useProxy method u).length + copied.length) = 2 := by
      rw [hnone, hempty, List.length_nil] at h hpos
      omega
    rw [hshort, hmemory hempty, hend] at hbytes
    have hslice := slice_blit start.memory ((requestHead useProxy method u).length + copied.length) (stored crlf 2)
    obtain ⟨front, hfull⟩ : ∃ front, fullRequest useProxy method u headers body = front ++ crlf :=
      ⟨_, by rw [fullRequest, hempty, List.append_nil]⟩
    have hlast := congrArg List.getLast? (hslice.symm.trans (hbytes.trans hfull))
    rw [List.getLast?_append_of_ne_nil _ (by decide), List.getLast?_append_of_ne_nil _ (by decide)] at hlast
    exact absurd hlast (by decide)

theorem assembleRequest_refused (hlarge : ¬ TooLarge useProxy method u headers body) :
    assembleRequest useProxy method u headers body ≠ .refused := by
  rw [assembleRequest_eq hlarge]
  split
  · exact nofun
  · split <;> exact nofun

/-- What the assembly does, for every request: it stays inside its buffer and sends the whole request, or nothing,
    exactly when the request is given up before it is written or is shorter than the buffer. -/
theorem assembleRequest_iff (useProxy : Bool) (method : Bytes) (u : ParsedUrl) (headers body : Bytes) :
    (assembleRequest useProxy method u headers body = .refused ∨
      assembleRequest useProxy method u headers body = .sent (fullRequest useProxy method u headers body)) ↔
    (TooLarge useProxy method u headers body ∨
      (fullRequest useProxy method u headers body).length < capacityOf method u headers body) := by
  by_cases hlarge : TooLarge useProxy method u headers body
  · exact ⟨fun _ => .inl hlarge, fun _ => .inl (assembleRequest_tooLarge hlarge)⟩
  constructor
  · rintro (hrefused | hsent)
    · exact absurd hrefused (assembleRequest_refused hlarge)
    · right
      by_contra hshort
      exact assembleRequest_short hlarge (Nat.le_of_not_lt hshort) hsent
  · rintro (h | hfits)
    · exact absurd h hlarge
    · exact .inr (assembleRequest_fits hlarge hfits)

/-- **The request buffer.** For every request whose headers and URL are accepted, the assembly stays inside its buffer
    and hands the whole request to `write_all`, or nothing, exactly when it is given up before it is written or the
    whole request is shorter than the buffer. -/
theorem requestBytes_whole_iff (useProxy : Bool) (method : Option Bytes) (url headers body : Bytes) {u : ParsedUrl}
    (hheaders : validRequestHeaders headers = true) (hurl : parseUrl url = some u) :
    (requestBytes useProxy method url headers body = .refused ∨
      requestBytes useProxy method url headers body =
        .sent (fullRequest useProxy (method.getD (ascii "GET")) u headers body)) ↔
    (TooLarge useProxy (method.getD (ascii "GET")) u headers body ∨
      (fullRequest useProxy (method.getD (ascii "GET")) u headers body).length <
        capacityOf (method.getD (ascii "GET")) u headers body) := by
  have hbytes : requestBytes useProxy method url headers body =
      assembleRequest useProxy (method.getD (ascii "GET")) u headers body := by
    rw [requestBytes, if_neg (by rw [hheaders]; decide), hurl]
  rw [hbytes]
  exact assembleRequest_iff _ _ _ _ _

/-- Lines `a:` with a line feed each. -/
def shortLines (n : Nat) : Bytes := (List.replicate n [97, 58, 10]).flatten

theorem length_shortLines (n : Nat) : (shortLines n).length = 3 * n := by
  induction n with
  | zero => rfl
  | succ n ih =>
      have hcons : shortLines (n + 1) = [97, 58, 10] ++ shortLines n := rfl
      rw [hcons, List.length_append, ih]
      show 3 + 3 * n = 3 * (n + 1)
      omega

theorem length_ended_replicate (n : Nat) : (ended (List.replicate n [97, 58])).length = 4 * n := by
  induction n with
  | zero => rfl
  | succ n ih =>
      rw [List.replicate_succ, length_ended_cons, ih]
      show 2 + 2 + 4 * n = 4 * (n + 1)
      omega

theorem textLines_shortLines (n : Nat) : textLines (shortLines n) = List.replicate n [97, 58] := by
  induction n with
  | zero => rfl
  | succ n ih =>
      have hcons : shortLines (n + 1) = [97, 58] ++ lf :: shortLines n := rfl
      rw [hcons, textLines_line (by decide), ih]
      rfl

theorem valid_shortLines (n : Nat) : validRequestHeaders (shortLines n) = true := by
  rw [validRequestHeaders, textLines_shortLines, List.all_eq_true]
  intro line hline
  rw [List.eq_of_mem_replicate hline]
  decide

theorem carried_shortLines (n : Nat) : carriedLines (shortLines n) = List.replicate n [97, 58] := by
  rw [carriedLines, textLines_shortLines, List.map_replicate]
  have hdrop : dropCrs [97, 58] = [97, 58] := by decide
  rw [hdrop]
  exact List.filter_replicate_of_pos (by decide)

/-- `http://a/`. -/
def plainUrl : ParsedUrl := ⟨ascii "a", ascii "80", ascii "/", false⟩

/-- 500 short lines that end in a line feed do not all go into the buffer. -/
theorem shortLines_lost : validRequestHeaders (shortLines 500) = true ∧ parseUrl (ascii "http://a/") = some plainUrl ∧
    requestBytes false (some (ascii "GET")) (ascii "http://a/") (shortLines 500) [] ≠ .refused ∧
    requestBytes false (some (ascii "GET")) (ascii "http://a/") (shortLines 500) [] ≠
      .sent (fullRequest false (ascii "GET") plainUrl (shortLines 500) []) := by
  have hurl : parseUrl (ascii "http://a/") = some plainUrl := by decide
  have hbytes : requestBytes false (some (ascii "GET")) (ascii "http://a/") (shortLines 500) [] =
      assembleRequest false (ascii "GET") plainUrl (shortLines 500) [] := by
    rw [requestBytes, if_neg (by rw [valid_shortLines]; decide), hurl]
    rfl
  have hcapacity : capacityOf (ascii "GET") plainUrl (shortLines 500) [] = 2017 := by
    rw [capacityOf, length_shortLines]
    rfl
  have hhead : (requestHead false (ascii "GET") plainUrl).length = 49 := by decide
  have hfull : (fullRequest false (ascii "GET") plainUrl (shortLines 500) []).length = 2051 := by
    rw [length_fullRequest, carried_shortLines, hhead, length_ended_replicate]
    rfl
  have hneither := mt (assembleRequest_iff false (ascii "GET") plainUrl (shortLines 500) []).mp (by
    unfold TooLarge
    rw [hcapacity, hhead, hfull]
    decide)
  rw [hbytes]
  rw [not_or] at hneither
  exact ⟨valid_shortLines 500, hurl, hneither⟩

/-- The same lines fit when there are few. -/
theorem shortLines_whole : requestBytes false (some (ascii "GET")) (ascii "http://a/") (shortLines 3) [] = .refused ∨
    requestBytes false (some (ascii "GET")) (ascii "http://a/") (shortLines 3) [] =
      .sent (fullRequest false (ascii "GET") plainUrl (shortLines 3) []) :=
  (requestBytes_whole_iff false (some (ascii "GET")) (ascii "http://a/") (shortLines 3) [] (valid_shortLines 3)
    (by decide)).mpr (.inr (by decide))

end Vnt.Net
