import Vnt.Net.Splitting

/-!
# `Vnt.Net.Redirect`: credentials along a chain of redirects (`native_net.c`)

The requests that `vnt_native_http_request_impl` and `vnt_native_http_download_stream_impl` send for one call, for all
answers of the servers. Both drop the credential lines when `same_origin` fails, and hand the header text on.
-/

namespace Vnt.Net

/-- What a hop sends: the URL it was called with, what `parse_url` made of it, the method and the header text. -/
structure Hop where
  url : Bytes
  target : ParsedUrl
  method : Bytes
  headers : Bytes
  body : Bytes
  deriving DecidableEq

/-- An answer, as far as redirects go: the status and the value of its first `Location` line. -/
structure Answer where
  code : Int
  location : Option Bytes

def Answer.redirects (a : Answer) : Bool :=
  a.code = 301 ∨ a.code = 302 ∨ a.code = 303 ∨ a.code = 307 ∨ a.code = 308

/-- The header text for the next hop. -/
def nextHeaders (url next headers : Bytes) : Bytes :=
  if sameOrigin url next = false then headersWithoutCredentials headers else headers

/-- The request of a call: none when the header text or the URL is not accepted. -/
def sentHop (method url headers body : Bytes) : Option Hop :=
  if validRequestHeaders headers = false then none
  else (parseUrl url).map fun u => ⟨url, u, method, headers, body⟩

/-- The arguments of a call: method, URL, header text and body. -/
abbrev Call := Bytes × Bytes × Bytes × Bytes

/-- The requests of a call when the answers come in this order; `follow` is the call made after an answer, if any. -/
def hops (follow : Nat → Hop → Answer → Option Call) (redirectCount : Nat) (call : Call) : List Answer → List Hop
  | [] => (sentHop call.1 call.2.1 call.2.2.1 call.2.2.2).toList
  | answer :: rest =>
      match sentHop call.1 call.2.1 call.2.2.1 call.2.2.2 with
      | none => []
      | some hop => hop :: ((follow redirectCount hop answer).map fun next => hops follow (redirectCount + 1) next rest).getD []

/-- The call that `vnt_native_http_request_impl` makes when it follows a redirect. -/
def followRequest (redirectCount : Nat) (hop : Hop) (answer : Answer) : Option Call :=
  if answer.redirects = false ∨ redirectCount ≥ 10 then none
  else
    match answer.location with
    | none => none
    | some location =>
        if location = [] then none
        else
          (resolveRedirectUrl hop.target location).map fun next =>
            -- a `POST` becomes a `GET`, and so does everything behind a 303
            if answer.code = 303 ∨ ((answer.code = 301 ∨ answer.code = 302) ∧ sameFold hop.method (ascii "POST")) then
              (ascii "GET", next, nextHeaders hop.url next hop.headers, [])
            else (hop.method, next, nextHeaders hop.url next hop.headers, hop.body)

/-- The requests of `vnt_native_http_request_impl`. -/
def requestHops (method url headers body : Bytes) : List Answer → List Hop :=
  hops followRequest 0 (method, url, headers, body)

/-- The call that `vnt_native_http_download_stream_impl` makes when it follows a redirect. -/
def followDownload (redirectCount : Nat) (hop : Hop) (answer : Answer) : Option Call :=
  if answer.redirects = false ∨ redirectCount ≥ 10 then none
  else
    (resolveRedirectUrl hop.target (answer.location.getD [])).map fun next =>
      (ascii "GET", next, nextHeaders hop.url next hop.headers, [])

/-- The requests of `vnt_native_http_download_stream_impl`. -/
def downloadHops (url headers : Bytes) : List Answer → List Hop := hops followDownload 0 (ascii "GET", url, headers, [])

/-! ## Chains -/

/-- The hops of one call, whichever it is: each was parsed from its URL and got its headers from the hop before. -/
inductive Chain : List Hop → Prop where
  | nil : Chain []
  | single {hop : Hop} : parseUrl hop.url = some hop.target → validRequestHeaders hop.headers = true → Chain [hop]
  | cons {hop next : Hop} {rest : List Hop} : parseUrl hop.url = some hop.target →
      validRequestHeaders hop.headers = true → next.headers = nextHeaders hop.url next.url hop.headers →
      Chain (next :: rest) → Chain (hop :: next :: rest)

/-- A line with one of the names that carry credentials. -/
def credentialLine (line : Bytes) : Bool :=
  match splitColon line with
  | none => false
  | some (name, _) => sameFold name (ascii "Authorization") || sameFold name (ascii "Proxy-Authorization") ||
      sameFold name (ascii "Cookie")

/-- The request of the hop carries no credentials, directly or through a proxy. -/
def Hop.Bare (hop : Hop) : Prop :=
  ∀ useProxy, ∀ line ∈ (expectedMessage useProxy hop.method hop.target hop.headers hop.body).fields,
    credentialLine line = false

theorem sentHop_some {method url headers body : Bytes} {hop : Hop} (h : sentHop method url headers body = some hop) :
    hop.url = url ∧ hop.headers = headers ∧ parseUrl hop.url = some hop.target ∧
      validRequestHeaders hop.headers = true := by
  unfold sentHop at h
  split at h
  · cases h
  · rename_i hvalid
    obtain ⟨u, hu, heq⟩ := Option.map_eq_some_iff.mp h
    cases heq
    rw [Bool.not_eq_false] at hvalid
    exact ⟨rfl, rfl, hu, hvalid⟩

/-- A rule for following redirects that hands the header text on. -/
def HandsOn (follow : Nat → Hop → Answer → Option Call) : Prop := ∀ redirectCount hop answer call,
  follow redirectCount hop answer = some call → call.2.2.1 = nextHeaders hop.url call.2.1 hop.headers

theorem followRequest_handsOn : HandsOn followRequest := by
  intro redirectCount hop answer call h
  unfold followRequest at h
  split at h
  · cases h
  split at h
  · cases h
  split at h
  · cases h
  obtain ⟨next, -, heq⟩ := Option.map_eq_some_iff.mp h
  split at heq <;> cases heq <;> rfl

theorem followDownload_handsOn : HandsOn followDownload := by
  intro redirectCount hop answer call h
  unfold followDownload at h
  split at h
  · cases h
  obtain ⟨next, -, heq⟩ := Option.map_eq_some_iff.mp h
  cases heq
  rfl

/-- A hop in front of the chain of the call that it makes. -/
theorem Chain.follow {hop : Hop} {rest : List Hop} {url headers : Bytes} (hurl : parseUrl hop.url = some hop.target)
    (hvalid : validRequestHeaders hop.headers = true) (hnext : headers = nextHeaders hop.url url hop.headers)
    (hrest : Chain rest) (hhead : ∀ next, rest.head? = some next → next.url = url ∧ next.headers = headers) :
    Chain (hop :: rest) := by
  cases rest with
  | nil => exact .single hurl hvalid
  | cons next rest =>
      obtain ⟨hu, hh⟩ := hhead next rfl
      exact .cons hurl hvalid (by rw [hh, hu, hnext]) hrest

theorem hops_chain {follow : Nat → Hop → Answer → Option Call} (hfollow : HandsOn follow) (answers : List Answer) :
    ∀ (redirectCount : Nat) (call : Call), Chain (hops follow redirectCount call answers) ∧
      ∀ hop, (hops follow redirectCount call answers).head? = some hop →
        hop.url = call.2.1 ∧ hop.headers = call.2.2.1 := by
  induction answers with
  | nil =>
      intro redirectCount call
      rw [hops]
      cases hsent : sentHop call.1 call.2.1 call.2.2.1 call.2.2.2 with
      | none => exact ⟨.nil, nofun⟩
      | some hop =>
          obtain ⟨hurl, hheaders, hparse, hvalid⟩ := sentHop_some hsent
          refine ⟨.single hparse hvalid, ?_⟩
          rintro hop' heq
          cases heq
          exact ⟨hurl, hheaders⟩
  | cons answer rest ih =>
      intro redirectCount call
      rw [hops]
      cases hsent : sentHop call.1 call.2.1 call.2.2.1 call.2.2.2 with
      | none => exact ⟨.nil, nofun⟩
      | some hop =>
          obtain ⟨hurl, hheaders, hparse, hvalid⟩ := sentHop_some hsent
          constructor
          · cases hnext : follow redirectCount hop answer with
            | none =>
                simp only [hnext]
                exact .single hparse hvalid
            | some next =>
                obtain ⟨hchain, hhead⟩ := ih (redirectCount + 1) next
                simp only [hnext]
                exact .follow hparse hvalid (hfollow _ _ _ _ hnext) hchain hhead
          · rintro hop' heq
            cases heq
            exact ⟨hurl, hheaders⟩

/-! ## Credentials -/

/-- A header text without credentials. -/
def Clean (headers : Bytes) : Prop := ∀ line ∈ textLines headers, credentialLine (dropCrs line) = false

theorem startsFold_of_name {line name value start : Bytes} (hline : line = name ++ value)
    (hname : fold name = fold start) : startsFold line start = true := by
  rw [startsFold, sameFold_iff, hline, ← length_of_fold hname, List.take_left, hname]

/-- Every credential line is left out. -/
theorem sensitive_of_credential {line : Bytes} (h : credentialLine line = true) : sensitive line = true := by
  unfold credentialLine at h
  split at h
  · cases h
  rename_i name value hsplit
  have hline := splitColon_some hsplit
  have hcolon : line = (name ++ [colon]) ++ value := by rw [hline, List.append_assoc]; rfl
  have hfold : ∀ start : Bytes, fold name = fold start → fold (name ++ [colon]) = fold (start ++ [colon]) := by
    intro start hstart
    rw [fold_append, fold_append, hstart]
  unfold sensitive
  rw [Bool.or_eq_true, Bool.or_eq_true] at h ⊢
  rcases h with (h | h) | h
  · exact .inl (.inl (startsFold_of_name hcolon (hfold (ascii "Authorization") (sameFold_iff.mp h))))
  · exact .inl (.inr (startsFold_of_name hline (sameFold_iff.mp h)))
  · exact .inr (startsFold_of_name hcolon (hfold (ascii "Cookie") (sameFold_iff.mp h)))

theorem lf_not_mem_dropCrs {line : Bytes} (h : lf ∉ line) : lf ∉ dropCrs line :=
  fun hmem => h ((List.rdropWhile_prefix _ line).subset hmem)

/-- The lines that are left. -/
theorem textLines_filtered (lines : List Bytes) (hlines : ∀ line ∈ lines, lf ∉ line) :
    textLines (lines.flatMap fun line =>
      if sensitive (dropCrs line) = false ∧ dropCrs line ≠ [] then dropCrs line ++ [lf] else []) =
    (lines.map dropCrs).filter fun line => sensitive line = false ∧ line ≠ [] := by
  induction lines with
  | nil => rfl
  | cons line lines ih =>
      have hrest := ih fun l hl => hlines l (List.mem_cons_of_mem _ hl)
      have hline := lf_not_mem_dropCrs (hlines line List.mem_cons_self)
      rw [List.flatMap_cons, List.map_cons, List.filter_cons]
      by_cases hkept : sensitive (dropCrs line) = false ∧ dropCrs line ≠ []
      · rw [if_pos hkept, if_pos (decide_eq_true hkept), List.append_assoc]
        rw [List.singleton_append, textLines_line hline, hrest]
      · rw [if_neg hkept, if_neg (by simpa using hkept), List.nil_append]
        exact hrest

theorem clean_filtered (headers : Bytes) : Clean (headersWithoutCredentials headers) := by
  intro line hline
  rw [headersWithoutCredentials, textLines_filtered _ fun l hl => lf_not_mem_textLines hl] at hline
  obtain ⟨hmem, hkept⟩ := List.mem_filter.mp hline
  obtain ⟨raw, -, rfl⟩ := List.mem_map.mp hmem
  have hsame : dropCrs (dropCrs raw) = dropCrs raw := List.rdropWhile_idempotent _ _
  rw [hsame]
  by_contra hcredential
  rw [Bool.not_eq_false] at hcredential
  exact absurd (sensitive_of_credential hcredential) (by rw [(of_decide_eq_true hkept).1]; decide)

theorem Clean.next {url next headers : Bytes} (h : Clean headers) : Clean (nextHeaders url next headers) := by
  unfold nextHeaders
  split
  · exact clean_filtered headers
  · exact h

/-- A clean header text makes a bare request. -/
theorem Clean.bare {hop : Hop} (h : Clean hop.headers) : hop.Bare := by
  intro useProxy line hline
  rcases List.mem_cons.mp hline with rfl | hline
  · rfl
  rcases List.mem_cons.mp hline with rfl | hline
  · unfold connectionLine
    split <;> decide
  rcases List.mem_append.mp hline with hline | hline
  · obtain ⟨raw, hraw, rfl⟩ := List.mem_map.mp (List.mem_filter.mp hline).1
    exact h raw hraw
  · unfold generatedLines at hline
    split at hline
    · cases hline
    rcases List.mem_cons.mp hline with rfl | hline
    · rfl
    split at hline
    · cases hline
    · rw [List.mem_singleton] at hline
      subst hline
      decide

/-- Once clean, a chain stays clean. -/
theorem Chain.clean {hop : Hop} {rest : List Hop} (h : Chain (hop :: rest)) (hclean : Clean hop.headers) :
    ∀ hop' ∈ hop :: rest, Clean hop'.headers := by
  induction rest generalizing hop with
  | nil =>
      intro hop' hmem
      rw [List.mem_singleton.mp hmem]
      exact hclean
  | cons next rest ih =>
      cases h with
      | cons _ _ hnext hrest =>
          intro hop' hmem
          rcases List.mem_cons.mp hmem with rfl | hmem
          · exact hclean
          · exact ih hrest (by rw [hnext]; exact hclean.next) hop' hmem

theorem Chain.suffix {before rest : List Hop} (h : Chain (before ++ rest)) : Chain rest := by
  induction before with
  | nil => exact h
  | cons hop before ih =>
      apply ih
      cases hlist : before ++ rest with
      | nil => exact .nil
      | cons next more =>
          rw [List.cons_append, hlist] at h
          cases h with
          | cons _ _ _ hrest => exact hrest

/-- **Behind a change of origin no request carries credentials.** -/
theorem Chain.bare_of_crossing {before after : List Hop} {hop next : Hop}
    (h : Chain (before ++ hop :: next :: after)) (hcross : ¬ hop.target.SameOrigin next.target) :
    ∀ hop' ∈ next :: after, hop'.Bare := by
  have hchain := h.suffix
  cases hchain with
  | cons hurl hvalid hheaders hrest =>
      have hnexturl : parseUrl next.url = some next.target := by
        cases hrest with
        | single hu _ => exact hu
        | cons hu _ _ _ => exact hu
      have hdiffers : sameOrigin hop.url next.url = false := by
        by_contra hsame
        rw [Bool.not_eq_false] at hsame
        exact hcross (sameOrigin_sound hsame hurl hnexturl)
      have hclean : Clean next.headers := by
        rw [hheaders, nextHeaders, if_pos hdiffers]
        exact clean_filtered _
      exact fun hop' hmem => (hrest.clean hclean hop' hmem).bare

/-- **Credentials do not cross origins.** For every call of the two functions and every sequence of answers: from the
    first hop on whose scheme, host or port is not that of the hop before, no request carries a credential line. -/
theorem redirects_bare (method url headers body : Bytes) (answers : List Answer) (before after : List Hop)
    (hop next : Hop) (hhops : requestHops method url headers body answers = before ++ hop :: next :: after ∨
      downloadHops url headers answers = before ++ hop :: next :: after)
    (hcross : ¬ hop.target.SameOrigin next.target) : ∀ hop' ∈ next :: after, hop'.Bare := by
  have hchain : Chain (before ++ hop :: next :: after) := by
    rcases hhops with heq | heq
    · rw [← heq]
      exact (hops_chain followRequest_handsOn answers _ _).1
    · rw [← heq]
      exact (hops_chain followDownload_handsOn answers _ _).1
  exact hchain.bare_of_crossing hcross

/-- A redirect from `a` to `b` with a password in the header text. -/
theorem crossing_bare : ∃ hop next : Hop,
    requestHops (ascii "GET") (ascii "http://a/") (ascii "X: 1\nAuthorization: s\n") [] [⟨302, some (ascii "http://b/")⟩] =
      [hop, next] ∧ ¬ hop.target.SameOrigin next.target ∧ next.Bare := by
  have hhops : requestHops (ascii "GET") (ascii "http://a/") (ascii "X: 1\nAuthorization: s\n") []
      [⟨302, some (ascii "http://b/")⟩] =
      [⟨ascii "http://a/", ⟨ascii "a", ascii "80", ascii "/", false⟩, ascii "GET", ascii "X: 1\nAuthorization: s\n", []⟩,
        ⟨ascii "http://b/", ⟨ascii "b", ascii "80", ascii "/", false⟩, ascii "GET", ascii "X: 1\n", []⟩] := by
    decide
  have hcross : ¬ ParsedUrl.SameOrigin ⟨ascii "a", ascii "80", ascii "/", false⟩ ⟨ascii "b", ascii "80", ascii "/", false⟩ := by
    rintro ⟨-, hhost, -⟩
    exact absurd hhost (by decide)
  refine ⟨_, _, hhops, hcross, ?_⟩
  exact redirects_bare _ _ _ _ _ [] [] _ _ (.inl hhops) hcross _ List.mem_cons_self

end Vnt.Net
