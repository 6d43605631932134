import Vnt.Net.RequestExact
import Vnt.Net.Grammar

/-!
# `Vnt.Net.Splitting`: no request splitting

The request that is meant is one request of the grammar as soon as its method is a token: header text and URL are
checked before they are used. The POSIX path does not check the method.
-/

namespace Vnt.Net

variable {useProxy : Bool} {method url headers body : Bytes} {u : ParsedUrl}

/-- The request target: the path and the query, behind the origin when a proxy is asked. -/
def requestTarget (useProxy : Bool) (u : ParsedUrl) : Bytes :=
  if useProxy = true ∧ u.tls = false then ascii "http://" ++ u.host ++ ascii ":" ++ u.port ++ u.target else u.target

def hostLine (u : ParsedUrl) : Bytes := ascii "Host: " ++ u.host

def connectionLine (useProxy : Bool) (u : ParsedUrl) : Bytes :=
  ascii "Connection: " ++ (if u.tls = false ∧ useProxy = false then ascii "keep-alive" else ascii "close")

/-- The fields generated for a body. -/
def generatedLines (headers body : Bytes) : List Bytes :=
  if body = [] then []
  else
    (ascii "Content-Length: " ++ decimal body.length) ::
      (if hasRequestHeader headers (ascii "Content-Type") then [] else [ascii "Content-Type: application/octet-stream"])

/-- The one request that a method, a URL, a header text and a body ask for. -/
def expectedMessage (useProxy : Bool) (method : Bytes) (u : ParsedUrl) (headers body : Bytes) : Message where
  method := method
  target := requestTarget useProxy u
  fields := hostLine u :: connectionLine useProxy u :: carriedLines headers ++ generatedLines headers body
  body := body

theorem bodyHeaders_flatten (headers body : Bytes) :
    (bodyHeaders headers body).flatten = (generatedLines headers body).flatMap (· ++ crlf) := by
  unfold bodyHeaders generatedLines
  by_cases hbody : body = []
  · rw [if_pos hbody, if_pos hbody]
    rfl
  · rw [if_neg hbody, if_neg hbody]
    split <;> simp

theorem render_expected : (expectedMessage useProxy method u headers body).render =
    fullRequest useProxy method u headers body := by
  have hrender : (expectedMessage useProxy method u headers body).render =
      (method ++ ascii " " ++ requestTarget useProxy u ++ ascii " HTTP/1.1" ++ crlf ++ (hostLine u ++ crlf) ++
        (connectionLine useProxy u ++ crlf)) ++ (carriedLines headers).flatMap (· ++ crlf) ++
        (generatedLines headers body).flatMap (· ++ crlf) ++ crlf ++ body := by
    simp [Message.render, expectedMessage, List.append_assoc]
  have hhead : method ++ ascii " " ++ requestTarget useProxy u ++ ascii " HTTP/1.1" ++ crlf ++ (hostLine u ++ crlf) ++
      (connectionLine useProxy u ++ crlf) = requestHead useProxy method u := by
    have hhost : ascii " HTTP/1.1\r\nHost: " = ascii " HTTP/1.1" ++ crlf ++ ascii "Host: " := by decide
    have hclose : ascii "\r\nConnection: close\r\n" = crlf ++ ascii "Connection: " ++ ascii "close" ++ crlf := by decide
    have hconnection : ascii "\r\nConnection: " = crlf ++ ascii "Connection: " := by decide
    have hend : ascii "\r\n" = crlf := by decide
    have hproxy : ascii " http://" = ascii " " ++ ascii "http://" := by decide
    unfold requestHead requestTarget hostLine connectionLine
    by_cases hcase : useProxy = true ∧ u.tls = false
    · have hkeep : ¬(u.tls = false ∧ useProxy = false) := by simp [hcase.1]
      rw [if_pos hcase, if_pos hcase, if_neg hkeep, hhost, hclose, hproxy]
      simp only [List.append_assoc]
    · rw [if_neg hcase, if_neg hcase, hhost, hconnection, hend]
      simp only [List.append_assoc]
  rw [hrender, hhead, fullRequest, bodyHeaders_flatten]

/-! ## The parts of a URL -/

theorem splitLastColon_parts {t before after : Bytes} (h : splitLastColon t = some (before, after)) :
    t = before ++ colon :: after := by
  induction t generalizing before with
  | nil => cases h
  | cons c t ih =>
      rw [splitLastColon] at h
      split at h
      · rename_i before' after' hsplit
        cases h
        rw [ih hsplit]
        rfl
      · split at h
        · rename_i hc
          cases h
          rw [hc]
          rfl
        · cases h

theorem bracketPort_parts {t port : Bytes} (h : bracketPort t = some port) : t = 93 :: 58 :: port := by
  unfold bracketPort at h
  split at h
  · cases h
    rfl
  · cases h

theorem parseAuthority_mem {authority host : Bytes} {port : Option Bytes}
    (h : parseAuthority authority = some (host, port)) :
    (∀ c ∈ host, c ∈ authority) ∧ ∀ p, port = some p → ∀ c ∈ p, c ∈ authority := by
  by_cases hbracket : authority.head? = some 91
  · obtain ⟨inner, rfl⟩ : ∃ inner, authority = 91 :: inner := by
      cases authority with
      | nil => cases hbracket
      | cons c inner => exact ⟨inner, by rw [Option.some.inj hbracket]⟩
    rw [parseAuthority_bracket] at h
    split at h
    swap
    · cases h
    have hpair := Option.some.inj h
    cases hport : bracketPort (inner.dropWhile (· ≠ 93)) with
    | none =>
        rw [hport] at hpair
        cases hpair
        exact ⟨fun c hc => List.mem_cons_of_mem _ (List.dropLast_subset _ hc), nofun⟩
    | some p =>
        rw [hport] at hpair
        cases hpair
        refine ⟨fun c hc => List.mem_cons_of_mem _ ((List.takeWhile_sublist _).subset hc), ?_⟩
        rintro q heq c hc
        cases heq
        have hdrop : c ∈ inner.dropWhile (· ≠ 93) := by
          rw [bracketPort_parts hport]
          exact List.mem_cons_of_mem _ (List.mem_cons_of_mem _ hc)
        exact List.mem_cons_of_mem _ ((List.dropWhile_sublist _).subset hdrop)
  · rw [parseAuthority_plain hbracket] at h
    have hpair := Option.some.inj h
    cases hsplit : splitLastColon authority with
    | none =>
        rw [hsplit] at hpair
        cases hpair
        exact ⟨fun c hc => hc, nofun⟩
    | some r =>
        rw [hsplit] at hpair
        cases hpair
        have hparts := splitLastColon_parts hsplit
        refine ⟨fun c hc => ?_, ?_⟩
        · rw [hparts]
          exact List.mem_append_left _ hc
        · rintro q heq c hc
          cases heq
          rw [hparts]
          exact List.mem_append_right _ (List.mem_cons_of_mem _ hc)

/-- The bytes of the parts of a URL are none that could end a word or a line. -/
theorem parseUrl_chars (h : parseUrl url = some u) : (∀ c ∈ u.host, targetChar c = true) ∧
    (∀ c ∈ u.port, targetChar c = true) ∧ (∀ c ∈ u.target, targetChar c = true) ∧ u.target ≠ [] := by
  have hvalid : ∀ c ∈ url, targetChar c = true := by
    unfold parseUrl at h
    split at h
    · cases h
    · rename_i hchars
      rw [Bool.not_eq_false] at hchars
      exact List.all_eq_true.mp (of_decide_eq_true hchars).2
  obtain ⟨-, hrest⟩ := parseUrl_scheme h
  have hsub : ∀ c ∈ url.drop (schemeLength u.tls + 3), targetChar c = true :=
    fun c hc => hvalid c (List.mem_of_mem_drop hc)
  obtain ⟨port, hauthority, hport⟩ := parseRest_some hrest
  obtain ⟨hhost, hportmem⟩ := parseAuthority_mem hauthority
  have hinside : ∀ c ∈ authorityOf (url.drop (schemeLength u.tls + 3)), targetChar c = true :=
    fun c hc => hsub c ((List.takeWhile_sublist _).subset hc)
  have htarget := parseRest_target hrest
  refine ⟨fun c hc => hinside c (hhost c hc), ?_, ?_, ?_⟩
  · rw [hport]
    cases port with
    | some p => exact fun c hc => hinside c (hportmem p rfl c hc)
    | none =>
        cases u.tls with
        | true => exact forall_mem_of_all (by decide)
        | false => exact forall_mem_of_all (by decide)
  · rw [htarget]
    exact target_chars fun c hc => hsub c ((List.dropWhile_sublist _).subset hc)
  · rw [htarget]
    exact target_ne_nil _
where
  parseRest_target {p : Bytes} {tls : Bool} {u : ParsedUrl} (h : parseUrl.parseRest p tls = some u) :
      u.target = parseTarget (p.dropWhile fun c => ¬endsAuthority c) := by
    unfold parseUrl.parseRest at h
    simp only at h
    split at h
    · cases h
    split at h
    · cases h
    split at h
    · cases h
    · cases h
      rfl
  target_chars {rest : Bytes} (h : ∀ c ∈ rest, targetChar c = true) : ∀ c ∈ parseTarget rest, targetChar c = true := by
    unfold parseTarget
    split
    · exact fun c hc => h c ((List.takeWhile_sublist _).subset hc)
    · intro c hc
      rcases List.mem_cons.mp hc with rfl | hc
      · decide
      · exact h c ((List.takeWhile_sublist _).subset hc)
    · exact forall_mem_of_all (by decide)
  target_ne_nil (rest : Bytes) : parseTarget rest ≠ [] := by
    unfold parseTarget
    split
    · simp
    · exact List.cons_ne_nil _ _
    · decide

/-! ## The lines of a header text -/

theorem validFieldLine_clean {line : Bytes} (h : validFieldLine line = true) : cr ∉ line := by
  unfold validFieldLine at h
  split at h
  · cases h
  rename_i name value hsplit
  obtain ⟨-, hname, hvalue⟩ := of_decide_eq_true h
  intro hc
  rw [splitColon_some hsplit] at hc
  rcases List.mem_append.mp hc with hc | hc
  · exact absurd (List.all_eq_true.mp hname cr hc) (by decide)
  · rcases List.mem_cons.mp hc with heq | hc
    · exact absurd heq (by decide)
    · exact absurd (List.all_eq_true.mp hvalue cr hc) (by decide)

/-- A line that is accepted ends in at most one carriage return. -/
theorem dropCrs_eq_dropCr {line : Bytes} (h : cr ∉ dropCr line) : dropCrs line = dropCr line := by
  unfold dropCr at h ⊢
  rcases List.eq_nil_or_concat line with rfl | ⟨l, c, rfl⟩
  · rfl
  rw [List.concat_eq_append, List.getLast?_append_of_ne_nil _ (List.cons_ne_nil _ _), List.getLast?_singleton] at h ⊢
  by_cases hc : c = cr
  · subst hc
    rw [if_pos rfl, List.dropLast_concat] at h ⊢
    rw [dropCrs, List.rdropWhile_concat_pos _ _ _ (by decide), List.rdropWhile_eq_self_iff]
    intro hl hlast
    exact h (of_decide_eq_true hlast ▸ List.getLast_mem hl)
  · rw [if_neg fun heq => hc (Option.some.inj heq), dropCrs, List.rdropWhile_concat_neg _ _ _ (by simpa using hc)]

theorem fieldLine_of_valid {line : Bytes} (h : validFieldLine line = true) (hnul : 0 ∉ line) : fieldLine line = true := by
  unfold validFieldLine at h
  unfold fieldLine
  cases hsplit : splitColon line with
  | none =>
      rw [hsplit] at h
      cases h
  | some r =>
  obtain ⟨name, value⟩ := r
  rw [hsplit] at h
  obtain ⟨hne, hname, hvalue⟩ := of_decide_eq_true h
  apply decide_eq_true
  refine ⟨hne, ?_, hvalue⟩
  rw [List.all_eq_true] at hname ⊢
  intro c hc
  apply decide_eq_true
  refine ⟨hname c hc, ?_⟩
  rintro rfl
  apply hnul
  rw [splitColon_some hsplit]
  exact List.mem_append_left _ hc

theorem mem_textLines {t line : Bytes} (h : line ∈ textLines t) : ∀ c ∈ line, c ∈ t := by
  induction t generalizing line with
  | nil => cases h
  | cons c t ih =>
      intro d hd
      unfold textLines at h
      split at h
      · rcases List.mem_cons.mp h with rfl | hmore
        · cases hd
        · exact List.mem_cons_of_mem _ (ih hmore d hd)
      · split at h
        · rw [List.mem_singleton] at h
          subst h
          rw [List.mem_singleton] at hd
          exact hd ▸ List.mem_cons_self
        · rename_i first more htail
          rw [htail] at ih
          rcases List.mem_cons.mp h with rfl | hmore
          · rcases List.mem_cons.mp hd with rfl | hd
            · exact List.mem_cons_self
            · exact List.mem_cons_of_mem _ (ih List.mem_cons_self d hd)
          · exact List.mem_cons_of_mem _ (ih (List.mem_cons_of_mem _ hmore) d hd)

/-- What goes out of an accepted header text are field lines that are not reserved. -/
theorem carriedLines_fields (h : validRequestHeaders headers = true) (hnul : 0 ∉ headers) {line : Bytes}
    (hline : line ∈ carriedLines headers) : fieldLine line = true ∧ reservedRequestHeader line = false := by
  obtain ⟨hmem, hout⟩ := List.mem_filter.mp hline
  obtain ⟨raw, hraw, rfl⟩ := List.mem_map.mp hmem
  have hvalid := List.all_eq_true.mp h raw hraw
  have hclean := validFieldLine_clean hvalid
  rw [dropCrs_eq_dropCr hclean] at hout ⊢
  refine ⟨fieldLine_of_valid hvalid fun hzero => ?_, (of_decide_eq_true hout).2⟩
  apply hnul
  apply mem_textLines hraw
  unfold dropCr at hzero
  split at hzero
  · exact List.dropLast_subset _ hzero
  · exact hzero

/-! ## The announced length -/

theorem digit_spec : ∀ n < 10, (48 ≤ digit n ∧ digit n ≤ 57) ∧ (digit n).toNat - 48 = n := by decide

theorem decimalDigits_chars {fuel : Nat} : ∀ {n : Nat}, ∀ c ∈ decimalDigits fuel n, 48 ≤ c ∧ c ≤ 57 := by
  induction fuel with
  | zero => intro n c hc; cases hc
  | succ fuel ih =>
      intro n c hc
      rw [decimalDigits] at hc
      split at hc
      · rename_i hn
        rw [List.mem_singleton] at hc
        exact hc ▸ (digit_spec n hn).1
      · rcases List.mem_append.mp hc with hc | hc
        · exact ih c hc
        · rw [List.mem_singleton] at hc
          exact hc ▸ (digit_spec (n % 10) (Nat.mod_lt _ (by decide))).1

theorem decimalDigits_value {fuel : Nat} : ∀ {n : Nat}, fuel ≠ 0 → n < 10 ^ fuel →
    (decimalDigits fuel n).foldlM
      (fun n c => if 48 ≤ c ∧ c ≤ 57 then some (10 * n + (c.toNat - 48)) else none) 0 = some n := by
  induction fuel with
  | zero => intro n h; exact absurd rfl h
  | succ fuel ih =>
      intro n _ hn
      rw [decimalDigits]
      split
      · rename_i hsmall
        obtain ⟨hrange, hvalue⟩ := digit_spec n hsmall
        show (if 48 ≤ digit n ∧ digit n ≤ 57 then some (10 * 0 + ((digit n).toNat - 48)) else none) >>= pure = _
        rw [if_pos hrange, hvalue, Nat.mul_zero, Nat.zero_add]
        rfl
      · rename_i hlarge
        obtain ⟨hrange, hvalue⟩ := digit_spec (n % 10) (Nat.mod_lt _ (by decide))
        have hfuel : fuel ≠ 0 := by
          rintro rfl
          omega
        have hdiv : n / 10 < 10 ^ fuel := by
          rw [Nat.pow_succ] at hn
          omega
        rw [List.foldlM_append, ih hfuel hdiv]
        show (if 48 ≤ digit (n % 10) ∧ digit (n % 10) ≤ 57 then
          some (10 * (n / 10) + ((digit (n % 10)).toNat - 48)) else none) >>= pure = _
        rw [if_pos hrange, hvalue, Nat.div_add_mod]
        rfl

theorem decimal_ne_nil (n : Nat) : decimal n ≠ [] := by
  unfold decimal decimalDigits
  split
  · exact List.cons_ne_nil _ _
  · exact List.append_ne_nil_of_right_ne_nil _ (List.cons_ne_nil _ _)

theorem decimalValue_decimal {n : Nat} (h : n < 10 ^ 20) : decimalValue (decimal n) = some n := by
  rw [decimalValue, if_neg (decimal_ne_nil n)]
  exact decimalDigits_value (by decide) h

theorem fieldValue_length (n : Nat) : fieldValue (ascii "Content-Length: " ++ decimal n) = decimal n := by
  have hsplit : splitColon (ascii "Content-Length: " ++ decimal n) = some (ascii "Content-Length", space :: decimal n) :=
    rfl
  have hblank : ∀ c ∈ decimal n, ¬(c = space ∨ c = tab) := by
    intro c hc
    have hrange := decimalDigits_chars c hc
    rintro (rfl | rfl)
    · exact absurd hrange (by decide)
    · exact absurd hrange (by decide)
  rw [fieldValue, hsplit]
  show List.rdropWhile _ (List.dropWhile _ (space :: decimal n)) = _
  rw [List.dropWhile_cons_of_pos (by decide)]
  have hfront : (decimal n).dropWhile (fun c => decide (c = space ∨ c = tab)) = decimal n := by
    rw [List.dropWhile_eq_self_iff]
    intro hl hblank'
    exact hblank _ (List.getElem_mem hl) (of_decide_eq_true hblank')
  rw [hfront, List.rdropWhile_eq_self_iff]
  intro hl hblank'
  exact hblank _ (List.getLast_mem hl) (of_decide_eq_true hblank')

/-! ## The request that is meant is one request -/

/-- A line that is not reserved is none of the framing fields. -/
theorem isField_of_unreserved {line : Bytes} (h : reservedRequestHeader line = false) (hfield : fieldLine line = true) :
    isField "host" line = false ∧ isField "content-length" line = false ∧
      isField "transfer-encoding" line = false ∧ isField "connection" line = false := by
  unfold fieldLine at hfield
  unfold reservedRequestHeader at h
  unfold isField fieldName
  cases hsplit : splitColon line with
  | none => rw [hsplit] at hfield; cases hfield
  | some r =>
      rw [hsplit] at h
      simp only [Bool.or_eq_false_iff] at h
      exact ⟨h.1.1.1.1, h.1.1.1.2, h.1.1.2, h.1.2⟩

/-- How the generated fields answer the questions about framing fields. -/
theorem generatedLines_fields (headers body : Bytes) :
    (generatedLines headers body).filter (isField "content-length") =
      (if body = [] then [] else [ascii "Content-Length: " ++ decimal body.length]) ∧
    ∀ line ∈ generatedLines headers body, isField "host" line = false ∧ isField "connection" line = false ∧
      isField "transfer-encoding" line = false ∧ fieldLine line = true := by
  have hlength : ∀ n, isField "content-length" (ascii "Content-Length: " ++ decimal n) = true := fun n => rfl
  have htype : isField "content-length" (ascii "Content-Type: application/octet-stream") = false := by decide
  have hfield : ∀ n, isField "host" (ascii "Content-Length: " ++ decimal n) = false ∧
      isField "connection" (ascii "Content-Length: " ++ decimal n) = false ∧
      isField "transfer-encoding" (ascii "Content-Length: " ++ decimal n) = false := fun n => ⟨rfl, rfl, rfl⟩
  have hdigits : ∀ n, fieldLine (ascii "Content-Length: " ++ decimal n) = true := by
    intro n
    have hsplit : splitColon (ascii "Content-Length: " ++ decimal n) =
        some (ascii "Content-Length", space :: decimal n) := rfl
    rw [fieldLine, hsplit]
    apply decide_eq_true
    refine ⟨by decide, by decide, ?_⟩
    rw [List.all_eq_true]
    intro c hc
    rcases List.mem_cons.mp hc with rfl | hc
    · decide
    · have hrange := decimalDigits_chars c hc
      apply decide_eq_true
      simp only [UInt8.le_iff_toNat_le, UInt8.lt_iff_toNat_lt, ← UInt8.toNat_inj, UInt8.reduceToNat] at hrange ⊢
      omega
  unfold generatedLines
  by_cases hbody : body = []
  · rw [if_pos hbody, if_pos hbody]
    exact ⟨rfl, nofun⟩
  · rw [if_neg hbody, if_neg hbody]
    split
    · refine ⟨List.filter_cons_of_pos (hlength _), ?_⟩
      intro line hline
      rw [List.mem_singleton] at hline
      subst hline
      exact ⟨(hfield _).1, (hfield _).2.1, (hfield _).2.2, hdigits _⟩
    · constructor
      · rw [List.filter_cons_of_pos (hlength _), List.filter_cons_of_neg (by rw [htype]; decide)]
        rfl
      · intro line hline
        rcases List.mem_cons.mp hline with rfl | hline
        · exact ⟨(hfield _).1, (hfield _).2.1, (hfield _).2.2, hdigits _⟩
        · rw [List.mem_singleton] at hline
          subst hline
          decide

theorem fieldValueChar_of_targetChar {c : UInt8} (h : targetChar c = true) : fieldValueChar c = true := by
  have hc := of_decide_eq_true h
  apply decide_eq_true
  simp only [UInt8.le_iff_toNat_le, UInt8.lt_iff_toNat_lt, ← UInt8.toNat_inj, UInt8.reduceToNat] at hc ⊢
  omega

theorem hostLine_field (h : ∀ c ∈ u.host, targetChar c = true) : fieldLine (hostLine u) = true := by
  have hsplit : splitColon (hostLine u) = some (ascii "Host", space :: u.host) := rfl
  rw [fieldLine, hsplit]
  apply decide_eq_true
  refine ⟨by decide, by decide, ?_⟩
  rw [List.all_eq_true]
  intro c hc
  rcases List.mem_cons.mp hc with rfl | hc
  · decide
  · exact fieldValueChar_of_targetChar (h c hc)

theorem connectionLine_field (useProxy : Bool) (u : ParsedUrl) : fieldLine (connectionLine useProxy u) = true := by
  unfold connectionLine
  split <;> decide

/-- The two fields every request begins with. -/
theorem leading_fields (useProxy : Bool) (u : ParsedUrl) :
    (isField "host" (hostLine u) = true ∧ isField "connection" (hostLine u) = false ∧
      isField "content-length" (hostLine u) = false ∧ isField "transfer-encoding" (hostLine u) = false) ∧
    (isField "host" (connectionLine useProxy u) = false ∧ isField "connection" (connectionLine useProxy u) = true ∧
      isField "content-length" (connectionLine useProxy u) = false ∧
      isField "transfer-encoding" (connectionLine useProxy u) = false) := by
  refine ⟨⟨rfl, rfl, rfl, rfl⟩, ?_⟩
  unfold connectionLine
  split <;> decide

/-- The framing fields of the request that is meant. -/
theorem expected_lengthFields (hheaders : validRequestHeaders headers = true) (hnul : 0 ∉ headers) :
    (expectedMessage useProxy method u headers body).fields.filter (isField "content-length") =
      if body = [] then [] else [ascii "Content-Length: " ++ decimal body.length] := by
  obtain ⟨hhost, hconnection⟩ := leading_fields useProxy u
  have hcarried : (carriedLines headers).filter (isField "content-length") = [] := by
    rw [List.filter_eq_nil_iff]
    intro line hline
    obtain ⟨hfield, hreserved⟩ := carriedLines_fields hheaders hnul hline
    rw [(isField_of_unreserved hreserved hfield).2.1]
    decide
  show (hostLine u :: connectionLine useProxy u :: (carriedLines headers ++ generatedLines headers body)).filter _ = _
  rw [List.filter_cons_of_neg (by rw [hhost.2.2.1]; decide), List.filter_cons_of_neg (by rw [hconnection.2.2.1]; decide),
    List.filter_append, hcarried, (generatedLines_fields headers body).1]
  rfl

theorem expected_wellFormed (useProxy : Bool) (hmethod : validHttpMethod method = true) (hmethodNul : 0 ∉ method)
    (hurl : parseUrl url = some u) (hheaders : validRequestHeaders headers = true) (hnul : 0 ∉ headers)
    (hbody : body.length < 10 ^ 20) : (expectedMessage useProxy method u headers body).WellFormed := by
  obtain ⟨hhost, hport, htarget, hne⟩ := parseUrl_chars hurl
  obtain ⟨hmethodNe, htoken⟩ := of_decide_eq_true hmethod
  refine ⟨⟨hmethodNe, ?_⟩, ⟨?_, ?_⟩, ?_, ?_⟩
  · rw [List.all_eq_true] at htoken ⊢
    intro c hc
    exact decide_eq_true ⟨htoken c hc, fun hzero => hmethodNul (hzero ▸ hc)⟩
  · show requestTarget useProxy u ≠ []
    unfold requestTarget
    split
    · exact List.append_ne_nil_of_right_ne_nil _ hne
    · exact hne
  · show (requestTarget useProxy u).all targetChar = true
    unfold requestTarget
    split
    · rw [List.all_append, List.all_append, List.all_append, List.all_append, List.all_eq_true.mpr hhost,
        List.all_eq_true.mpr hport, List.all_eq_true.mpr htarget]
      decide
    · exact List.all_eq_true.mpr htarget
  · intro line hline
    rcases List.mem_cons.mp hline with rfl | hline
    · exact hostLine_field hhost
    rcases List.mem_cons.mp hline with rfl | hline
    · exact connectionLine_field useProxy u
    rcases List.mem_append.mp hline with hline | hline
    · exact (carriedLines_fields hheaders hnul hline).1
    · exact ((generatedLines_fields headers body).2 line hline).2.2.2
  · have hnone : (expectedMessage useProxy method u headers body).fields.any (isField "transfer-encoding") = false := by
      rw [List.any_eq_false]
      obtain ⟨hhostLine, hconnection⟩ := leading_fields useProxy u
      intro line hline
      rw [Bool.not_eq_true]
      rcases List.mem_cons.mp hline with rfl | hline
      · exact hhostLine.2.2.2
      rcases List.mem_cons.mp hline with rfl | hline
      · exact hconnection.2.2.2
      rcases List.mem_append.mp hline with hline | hline
      · obtain ⟨hfield, hreserved⟩ := carriedLines_fields hheaders hnul hline
        exact (isField_of_unreserved hreserved hfield).2.2.1
      · exact ((generatedLines_fields headers body).2 line hline).2.2.1
    rw [bodyLength, if_neg (by rw [hnone]; decide), expected_lengthFields hheaders hnul]
    by_cases hempty : body = []
    · rw [if_pos hempty]
      show some 0 = some body.length
      rw [hempty]
      rfl
    · rw [if_neg hempty]
      show decimalValue (fieldValue (ascii "Content-Length: " ++ decimal body.length)) = some body.length
      rw [fieldValue_length, decimalValue_decimal hbody]

/-- The fields that frame a request occur once: `Content-Length` when there is a body. -/
def OneOfEach (m : Message) : Prop :=
  m.fields.countP (isField "host") = 1 ∧ m.fields.countP (isField "connection") = 1 ∧
    m.fields.countP (isField "content-length") = if m.body = [] then 0 else 1

theorem expected_oneOfEach (hheaders : validRequestHeaders headers = true) (hnul : 0 ∉ headers) :
    OneOfEach (expectedMessage useProxy method u headers body) := by
  obtain ⟨hhost, hconnection⟩ := leading_fields useProxy u
  have hrest : ∀ line ∈ carriedLines headers ++ generatedLines headers body,
      isField "host" line = false ∧ isField "connection" line = false := by
    intro line hline
    rcases List.mem_append.mp hline with hline | hline
    · obtain ⟨hfield, hreserved⟩ := carriedLines_fields hheaders hnul hline
      have hnone := isField_of_unreserved hreserved hfield
      exact ⟨hnone.1, hnone.2.2.2⟩
    · have hnone := (generatedLines_fields headers body).2 line hline
      exact ⟨hnone.1, hnone.2.1⟩
  have hzero : ∀ name, (∀ line ∈ carriedLines headers ++ generatedLines headers body, isField name line = false) →
      (carriedLines headers ++ generatedLines headers body).countP (isField name) = 0 := by
    intro name hname
    rw [List.countP_eq_zero]
    intro line hline
    rw [hname line hline]
    decide
  refine ⟨?_, ?_, ?_⟩
  · show (hostLine u :: connectionLine useProxy u :: (carriedLines headers ++ generatedLines headers body)).countP _ = 1
    rw [List.countP_cons, List.countP_cons, hhost.1, hconnection.1, hzero "host" fun line hl => (hrest line hl).1]
    rfl
  · show (hostLine u :: connectionLine useProxy u :: (carriedLines headers ++ generatedLines headers body)).countP _ = 1
    rw [List.countP_cons, List.countP_cons, hhost.2.1, hconnection.2.1,
      hzero "connection" fun line hl => (hrest line hl).2]
    rfl
  · rw [List.countP_eq_length_filter, expected_lengthFields hheaders hnul]
    show _ = if body = [] then 0 else 1
    split <;> rfl

/-- The bytes are exactly the one request that was asked for. -/
def SingleRequest (useProxy : Bool) (method : Bytes) (u : ParsedUrl) (headers body bytes : Bytes) : Prop :=
  parseMessage bytes = some (expectedMessage useProxy method u headers body) ∧
    OneOfEach (expectedMessage useProxy method u headers body)

/-- A request that was assembled is one request exactly when its method is a token and it fits its buffer. -/
theorem assembleRequest_single_iff (useProxy : Bool) (body : Bytes) (hmethodNul : 0 ∉ method) (hurl : parseUrl url = some u)
    (hheaders : validRequestHeaders headers = true) (hnul : 0 ∉ headers) :
    (assembleRequest useProxy method u headers body = .refused ∨ ∃ bytes,
      assembleRequest useProxy method u headers body = .sent bytes ∧
        SingleRequest useProxy method u headers body bytes) ↔
    (TooLarge useProxy method u headers body ∨ (validHttpMethod method = true ∧
      (fullRequest useProxy method u headers body).length < capacityOf method u headers body)) := by
  by_cases hlarge : TooLarge useProxy method u headers body
  · exact ⟨fun _ => .inl hlarge, fun _ => .inl (assembleRequest_tooLarge hlarge)⟩
  have hexact := assembleRequest_iff useProxy method u headers body
  constructor
  · rintro (hrefused | ⟨bytes, hsent, hparse, -⟩)
    · exact absurd hrefused (assembleRequest_refused hlarge)
    · obtain ⟨hrender, hne, htoken⟩ := parseMessage_some hparse
      rw [hrender, render_expected] at hsent
      refine .inr ⟨decide_eq_true ⟨hne, ?_⟩, (hexact.mp (.inr hsent)).resolve_left hlarge⟩
      rw [List.all_eq_true] at htoken ⊢
      exact fun c hc => (of_decide_eq_true (htoken c hc)).1
  · rintro (h | ⟨hmethod, hfits⟩)
    · exact absurd h hlarge
    · have hbody : body.length < 10 ^ 20 := by
        have hsize : body.length ≤ capacityOf method u headers body := by unfold capacityOf; omega
        unfold TooLarge sizeMax at hlarge
        omega
      have hwell := expected_wellFormed useProxy hmethod hmethodNul hurl hheaders hnul hbody
      refine .inr ⟨_, assembleRequest_fits hlarge hfits, ?_, expected_oneOfEach hheaders hnul⟩
      rw [← render_expected]
      exact parseMessage_render hwell

/-- **Request splitting.** For all strings a program can pass: nothing is sent, or what is sent is exactly the one
    request that was asked for, if and only if the header text or the URL is not accepted, the request is given up for
    its size, or its method is a token and it is shorter than its buffer. -/
theorem requestBytes_single_iff (useProxy : Bool) (method url headers : Text) (body : Bytes) :
    (requestBytes useProxy (some method.bytes) url.bytes headers.bytes body = .refused ∨ ∃ u bytes,
      parseUrl url.bytes = some u ∧
      requestBytes useProxy (some method.bytes) url.bytes headers.bytes body = .sent bytes ∧
      SingleRequest useProxy method.bytes u headers.bytes body bytes) ↔
    (validRequestHeaders headers.bytes = false ∨ ∀ u, parseUrl url.bytes = some u →
      TooLarge useProxy method.bytes u headers.bytes body ∨ (validHttpMethod method.bytes = true ∧
        (fullRequest useProxy method.bytes u headers.bytes body).length <
          capacityOf method.bytes u headers.bytes body)) := by
  unfold requestBytes
  by_cases hheaders : validRequestHeaders headers.bytes = false
  · rw [if_pos hheaders]
    exact ⟨fun _ => .inl hheaders, fun _ => .inl rfl⟩
  rw [if_neg hheaders]
  cases hurl : parseUrl url.bytes with
  | none => exact ⟨fun _ => .inr nofun, fun _ => .inl rfl⟩
  | some u =>
      have hvalid : validRequestHeaders headers.bytes = true := by
        rw [Bool.not_eq_false] at hheaders
        exact hheaders
      have hsingle := assembleRequest_single_iff useProxy body method.noNul hurl hvalid headers.noNul
      constructor
      · intro h
        right
        rintro u' hu'
        cases hu'
        apply hsingle.mp
        rcases h with h | ⟨u', bytes, hu', hsent, hrequest⟩
        · exact .inl h
        · cases hu'
          exact .inr ⟨bytes, hsent, hrequest⟩
      · rintro (h | h)
        · exact absurd h hheaders
        · rcases hsingle.mpr (h u rfl) with hrefused | ⟨bytes, hsent, hrequest⟩
          · exact .inl hrefused
          · exact .inr ⟨u, bytes, rfl, hsent, hrequest⟩

/-- A method that ends its line and begins another request. -/
def splittingMethod : Text := ⟨ascii "GET /a HTTP/1.1\r\nHost: b\r\n\r\nGET", by decide⟩

/-- With this method two requests go out where one was asked for. -/
theorem splittingMethod_sent : ¬(requestBytes false (some splittingMethod.bytes) (ascii "http://a/") [] [] = .refused ∨
    ∃ u bytes, parseUrl (ascii "http://a/") = some u ∧
      requestBytes false (some splittingMethod.bytes) (ascii "http://a/") [] [] = .sent bytes ∧
      SingleRequest false splittingMethod.bytes u [] [] bytes) := by
  have hurl : parseUrl (ascii "http://a/") = some plainUrl := by decide
  have hbytes : requestBytes false (some splittingMethod.bytes) (ascii "http://a/") [] [] =
      assembleRequest false splittingMethod.bytes plainUrl [] [] := by
    rw [requestBytes, if_neg (by decide), hurl]
    rfl
  have hsingle := assembleRequest_single_iff false [] splittingMethod.noNul hurl (show validRequestHeaders [] = true by decide)
    (show 0 ∉ ([] : Bytes) by decide)
  have hneither : ¬(TooLarge false splittingMethod.bytes plainUrl [] [] ∨ (validHttpMethod splittingMethod.bytes = true ∧
      (fullRequest false splittingMethod.bytes plainUrl [] []).length <
        capacityOf splittingMethod.bytes plainUrl [] [])) := by
    unfold TooLarge
    decide
  rw [hbytes]
  rintro (h | ⟨u, bytes, hu, hsent, hrequest⟩)
  · exact hneither (hsingle.mp (.inl h))
  · cases hurl.symm.trans hu
    exact hneither (hsingle.mp (.inr ⟨bytes, hsent, hrequest⟩))

end Vnt.Net
