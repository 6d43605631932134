import Vnt.Net.UrlForm
import Vnt.Net.Redirect

/-!
# `Vnt.Net.Relative`: relative redirects and the origin they stay on

`resolve_redirect_url` prints the origin with its port and with brackets when the host has a colon; `same_origin` compares
that text with the authority of the URL. So a relative redirect stays on its origin when the authority was written that way.
-/

namespace Vnt.Net

/-- References within the origin: an absolute path, a query, and a relative path without a scheme. -/
inductive Reference : Bytes → Prop
  | absolute {t : Bytes} : t.head? ≠ some 47 → Reference (47 :: t)
  | query {t : Bytes} : Reference (63 :: t)
  | relative {c : UInt8} {t : Bytes} : c ≠ 47 → c ≠ 63 → c ≠ 35 → startsFold (c :: t) (ascii "http://") = false →
      startsFold (c :: t) (ascii "https://") = false → Reference (c :: t)

def ParsedUrl.path (u : ParsedUrl) : Bytes := u.target.takeWhile (· ≠ 63)

/-- The path up to its last slash. -/
def ParsedUrl.directory (u : ParsedUrl) : Bytes := u.path.rdropWhile (· ≠ 47)

/-- What stands behind the origin in the resolved URL. -/
def referenceText (u : ParsedUrl) (location : Bytes) : Bytes :=
  match location with
  | 47 :: _ => location
  | 63 :: _ => u.path ++ location
  | _ => u.directory ++ location

/-- The target of the reference: what it says, without a fragment. -/
def relativeTarget (u : ParsedUrl) (location : Bytes) : Bytes := (referenceText u location).takeWhile (· ≠ 35)

/-- **The redirect stays**: the next request goes to the same scheme, host and port, to the target of the reference, and keeps
    its header text. -/
def Stays (url : Bytes) (u : ParsedUrl) (location : Bytes) : Prop :=
  ∃ resolved, resolveRedirectUrl u location = some resolved ∧
    parseUrl resolved = some { u with target := relativeTarget u location } ∧
    sameOrigin url resolved = true ∧ ∀ headers, nextHeaders url resolved headers = headers

/-- An authority with its port, in brackets if and only if its host has a colon. -/
inductive Explicit : Bytes → Prop
  | plain {host port : Bytes} : (host ++ colon :: port).head? ≠ some 91 → colon ∉ host → colon ∉ port →
      Explicit (host ++ colon :: port)
  | bracketed {host port : Bytes} : 93 ∉ host → colon ∈ host → Explicit (91 :: (host ++ 93 :: 58 :: port))

def ExplicitUrl (url : Bytes) : Prop := ∃ tls authority rest, Split url tls authority rest ∧ Explicit authority

/-- The authority that `resolve_redirect_url` prints. -/
def printedAuthority (u : ParsedUrl) : Bytes :=
  if colon ∈ u.host then 91 :: (u.host ++ 93 :: 58 :: u.port) else u.host ++ colon :: u.port

variable {url url' location authority authority' rest rest' t : Bytes} {tls tls' : Bool} {u : ParsedUrl}

/-! ## The resolved URL -/

theorem startsFold_head {c d : UInt8} {text : Bytes} (hne : lower c ≠ lower d) : startsFold (c :: t) (d :: text) = false := by
  cases hstart : startsFold (c :: t) (d :: text) with
  | false => rfl
  | true =>
      have hfold := fold_of_startsFold hstart
      rw [fold_cons, fold_cons, List.cons_append] at hfold
      exact absurd (List.cons.inj hfold).1 hne

theorem resolve_reference (h : Reference location) :
    resolveRedirectUrl u location = some (schemeText u.tls ++ (printedAuthority u ++ referenceText u location)) := by
  have horigin : ∀ text, (if colon ∈ u.host then (if u.tls then ascii "https" else ascii "http") ++ ascii "://[" ++ u.host ++ ascii "]:" ++ u.port
      else (if u.tls then ascii "https" else ascii "http") ++ ascii "://" ++ u.host ++ ascii ":" ++ u.port) ++ text =
      schemeText u.tls ++ (printedAuthority u ++ text) := by
    intro text
    unfold printedAuthority schemeText
    by_cases hcolon : colon ∈ u.host
    · rw [if_pos hcolon, if_pos hcolon]
      cases u.tls
      · show ascii "http" ++ ascii "://[" ++ u.host ++ ascii "]:" ++ u.port ++ text = _
        simp [ascii]
      · show ascii "https" ++ ascii "://[" ++ u.host ++ ascii "]:" ++ u.port ++ text = _
        simp [ascii]
    · rw [if_neg hcolon, if_neg hcolon]
      cases u.tls
      · show ascii "http" ++ ascii "://" ++ u.host ++ ascii ":" ++ u.port ++ text = _
        simp [ascii, colon]
      · show ascii "https" ++ ascii "://" ++ u.host ++ ascii ":" ++ u.port ++ text = _
        simp [ascii, colon]
  have hne : location ≠ [] := by
    cases h <;> exact List.cons_ne_nil _ _
  have hscheme : ¬(startsFold location (ascii "http://") = true ∨ startsFold location (ascii "https://") = true) := by
    have hhead : ∀ {c : UInt8} {t : Bytes}, lower c ≠ lower 104 →
        ¬(startsFold (c :: t) (ascii "http://") = true ∨ startsFold (c :: t) (ascii "https://") = true) := by
      rintro c t hc (hstart | hstart)
      · rw [show ascii "http://" = 104 :: ascii "ttp://" by decide, startsFold_head hc] at hstart
        cases hstart
      · rw [show ascii "https://" = 104 :: ascii "ttps://" by decide, startsFold_head hc] at hstart
        cases hstart
    cases h with
    | absolute _ => exact hhead (by decide)
    | query => exact hhead (by decide)
    | relative _ _ _ hhttp hhttps =>
        rw [hhttp, hhttps]
        decide
  unfold resolveRedirectUrl
  rw [if_neg hne, if_neg hscheme, ← horigin]
  cases h with
  | absolute hslash =>
      rename_i t
      cases t with
      | nil => rfl
      | cons c t =>
          have hc : c ≠ 47 := fun hc => hslash (by rw [hc]; rfl)
          dsimp only
          split
          · rename_i heq
            cases heq
            exact absurd rfl hc
          · rfl
          · rename_i heq
            cases heq
          · rename_i hno _
            exact absurd rfl (hno (c :: t))
  | query => exact congrArg some (List.append_assoc _ _ _)
  | relative hslash hquery =>
      rename_i c t _ _ _
      have htext : referenceText u (c :: t) = u.directory ++ c :: t := by
        unfold referenceText
        split
        · rename_i heq
          cases heq
          exact absurd rfl hslash
        · rename_i heq
          cases heq
          exact absurd rfl hquery
        · rfl
      rw [htext]
      dsimp only
      split
      · rename_i heq
        cases heq
        exact absurd rfl hslash
      · rename_i heq
        cases heq
        exact absurd rfl hslash
      · rename_i heq
        cases heq
        exact absurd rfl hquery
      · rw [List.append_assoc]
        rfl

theorem ParsedUrl.path_head (h : u.target.head? = some 47) : u.path.head? = some 47 := by
  unfold ParsedUrl.path
  cases htarget : u.target with
  | nil =>
      rw [htarget] at h
      cases h
  | cons c t =>
      rw [htarget] at h
      cases h
      rw [List.takeWhile_cons, if_pos (by decide)]
      rfl

/-- The directory begins with the slash of the path: it ends behind a slash, and the path has one. -/
theorem ParsedUrl.directory_head (h : u.target.head? = some 47) : u.directory.head? = some 47 := by
  have hpath := u.path_head h
  have hmem : 47 ∈ u.path := List.mem_of_head? hpath
  unfold ParsedUrl.directory
  obtain ⟨file, hfile⟩ := List.rdropWhile_prefix (fun c => decide (c ≠ 47)) (l := u.path)
  cases hdirectory : u.path.rdropWhile (fun c => decide (c ≠ 47)) with
  | nil =>
      have hall := List.rdropWhile_eq_nil_iff.mp hdirectory 47 hmem
      exact absurd hall (by decide)
  | cons c t =>
      rw [hdirectory] at hfile
      rw [← hfile] at hpath
      exact hpath

theorem referenceText_head (h : Reference location) (htarget : u.target.head? = some 47) :
    (referenceText u location).head? = some 47 := by
  have happend : ∀ {p : Bytes} (t : Bytes), p.head? = some 47 → (p ++ t).head? = some 47 := by
    intro p t hp
    rw [List.head?_append, hp]
    rfl
  unfold referenceText
  split
  · rfl
  · exact happend _ (u.path_head htarget)
  · exact happend _ (u.directory_head htarget)

/-! ## The texts that `same_origin` compares -/

theorem Split.fold_url (h : Split url tls authority rest) : fold url = schemeText tls ++ fold (authority ++ rest) := by
  obtain ⟨scheme, rfl, hscheme⟩ := h.scheme
  rw [fold_append, hscheme]

theorem Split.strstr (h : Split url tls authority rest) : strstr (ascii "://") url = some (schemeLength tls) := by
  have hneedle : ∀ x ∈ ascii "://", x < 65 ∨ (90 < x ∧ x < 97) ∨ 122 < x := forall_mem_of_all (by decide)
  rw [← strstr_fold hneedle, h.fold_url]
  cases tls <;> rfl

theorem Split.scheme_unique (h : Split url tls authority rest) (h' : Split url tls' authority' rest') : tls = tls' := by
  have hplace := h.strstr
  rw [h'.strstr] at hplace
  exact (schemeLength_injective _ _ (Option.some.inj hplace)).symm

theorem sameOrigin_split (h : Split url tls authority rest) (h' : Split url' tls authority' rest') :
    sameOrigin url url' = true ↔ fold authority = fold authority' := by
  have hscheme : ∀ {url authority rest : Bytes}, Split url tls authority rest →
      fold (url.take (schemeLength tls + 3)) = schemeText tls := by
    intro url authority rest h
    rw [fold, List.map_take, ← fold, h.fold_url, ← length_schemeText, List.take_left]
  have hsame : sameFold (url.take (schemeLength tls + 3)) (url'.take (schemeLength tls + 3)) = true :=
    sameFold_iff.mpr ((hscheme h).trans (hscheme h').symm)
  have htest : ¬(schemeLength tls ≠ schemeLength tls ∨
      sameFold (url.take (schemeLength tls + 3)) (url'.take (schemeLength tls + 3)) = false) := by
    rw [hsame]
    simp
  unfold sameOrigin
  rw [h.strstr, h'.strstr]
  dsimp only
  rw [if_neg htest, h.drop, h'.drop]
  show sameFold (authorityOf (authority ++ rest)) (authorityOf (authority' ++ rest')) = true ↔ _
  rw [takeWhile_authority h.inside h.ends, takeWhile_authority h'.inside h'.ends]
  exact sameFold_iff

/-! ## The printed authority -/

theorem AuthorityParts.mem {host : Bytes} {port : Option Bytes} (h : AuthorityParts authority host port) :
    (∀ c ∈ host, c ∈ authority) ∧ ∀ p, port = some p → ∀ c ∈ p, c ∈ authority := by
  cases h with
  | plain _ _ => exact ⟨fun c hc => hc, nofun⟩
  | plainPort _ _ =>
      refine ⟨fun c hc => List.mem_append_left _ hc, ?_⟩
      rintro p ⟨⟩ c hc
      exact List.mem_append_right _ (List.mem_cons_of_mem _ hc)
  | bracketed _ =>
      refine ⟨fun c hc => List.mem_cons_of_mem _ (List.mem_append_left _ hc), ?_⟩
      rintro p ⟨⟩ c hc
      exact List.mem_cons_of_mem _ (List.mem_append_right _ (List.mem_cons_of_mem _ (List.mem_cons_of_mem _ hc)))
  | behind _ _ => exact ⟨fun c hc => List.mem_cons_of_mem _ (List.dropLast_subset _ hc), nofun⟩

theorem mem_printedAuthority {c : UInt8} (h : c ∈ printedAuthority u) :
    c ∈ u.host ∨ c ∈ u.port ∨ c ∈ ascii "[]:" := by
  have hmarks : ascii "[]:" = [91, 93, 58] := by decide
  unfold printedAuthority at h
  rw [hmarks]
  split at h
  · simp only [List.mem_cons, List.mem_append, List.not_mem_nil, or_false] at h ⊢
    tauto
  · simp only [List.mem_cons, List.mem_append, List.not_mem_nil, or_false, colon] at h ⊢
    tauto

theorem length_printedAuthority : (printedAuthority u).length =
    u.host.length + u.port.length + if colon ∈ u.host then 3 else 1 := by
  unfold printedAuthority
  split
  · simp only [List.length_cons, List.length_append]
    omega
  · simp only [List.length_cons, List.length_append]
    omega

theorem length_defaultPort (tls : Bool) : (defaultPort tls).length = 2 ∨ (defaultPort tls).length = 3 := by
  cases tls
  · exact Or.inl rfl
  · exact Or.inr rfl

/-- An authority is printed as it was written when it has its port and the brackets that belong to it. -/
theorem Explicit.printed (h : Explicit authority) {port : Option Bytes} (hparts : AuthorityParts authority u.host port)
    (hport : u.port = port.getD (defaultPort u.tls)) : printedAuthority u = authority := by
  have hparse := parseAuthority_some_iff.mpr hparts
  unfold printedAuthority
  cases h with
  | plain hhead hhost hcolon =>
      rw [parseAuthority_some_iff.mpr (.plainPort hhead hcolon), Option.some.injEq, Prod.mk.injEq] at hparse
      obtain ⟨hhost', hport'⟩ := hparse
      rw [hport, ← hport', ← hhost', if_neg hhost]
      rfl
  | bracketed hclose hhost =>
      rw [parseAuthority_bracketed hclose, Option.some.injEq, Prod.mk.injEq] at hparse
      obtain ⟨hhost', hport'⟩ := hparse
      rw [hport, ← hport', ← hhost', if_pos hhost]
      rfl

/-- Any other authority is printed with another length. -/
theorem explicit_of_length {port : Option Bytes} (hparts : AuthorityParts authority u.host port)
    (hport : u.port = port.getD (defaultPort u.tls)) (hlen : authority.length = (printedAuthority u).length) :
    Explicit authority := by
  have hdefault := length_defaultPort u.tls
  rw [length_printedAuthority] at hlen
  obtain ⟨host, port', target, tls⟩ := u
  change port' = port.getD (defaultPort tls) at hport
  change (defaultPort tls).length = 2 ∨ (defaultPort tls).length = 3 at hdefault
  change authority.length = host.length + port'.length + (if colon ∈ host then 3 else 1) at hlen
  change AuthorityParts authority host port at hparts
  subst hport
  cases hparts with
  | plain _ hcolon =>
      rw [if_neg hcolon, Option.getD_none] at hlen
      omega
  | plainPort hhead hcolon =>
      by_cases hhost : colon ∈ host
      · rw [if_pos hhost, Option.getD_some, List.length_append, List.length_cons] at hlen
        omega
      · exact .plain hhead hhost hcolon
  | bracketed hclose =>
      by_cases hhost : colon ∈ host
      · exact .bracketed hclose hhost
      · rw [if_neg hhost, Option.getD_some, List.length_cons, List.length_append, List.length_cons, List.length_cons] at hlen
        omega
  | behind _ _ =>
      rw [Option.getD_none, List.length_dropLast, List.length_cons, List.length_append, List.length_cons] at hlen
      split at hlen
      · omega
      · omega

/-! ## Relative redirects -/

/-- A byte that `valid_http_url_chars` lets pass. -/
def UrlChar (c : UInt8) : Prop := ¬(c ≤ 0x20 ∨ c = 0x7f)

theorem validHttpUrlChars_iff {t : Bytes} : validHttpUrlChars t = true ↔ t ≠ [] ∧ ∀ c ∈ t, UrlChar c := by
  unfold validHttpUrlChars UrlChar
  rw [decide_eq_true_iff, List.all_eq_true]
  simp only [decide_eq_true_iff]

theorem defaultPort_chars (tls : Bool) : ∀ c ∈ defaultPort tls, UrlChar c ∧ endsAuthority c = false := by
  cases tls
  · exact forall_mem_of_all (p := fun c => (¬(c ≤ 0x20 ∨ c = 0x7f)) ∧ endsAuthority c = false) (by decide)
  · exact forall_mem_of_all (p := fun c => (¬(c ≤ 0x20 ∨ c = 0x7f)) ∧ endsAuthority c = false) (by decide)

/-- What an accepted URL gives for its redirects. -/
structure AcceptedUrl (u : ParsedUrl) (authority rest : Bytes) : Prop where
  ne_nil : authority ≠ []
  noAt : 64 ∉ authority
  parts : ∃ port, AuthorityParts authority u.host port ∧ u.port = port.getD (defaultPort u.tls)
  port : u.port ≠ []
  target : u.target = parseTarget rest
  chars : ∀ c ∈ authority, UrlChar c ∧ endsAuthority c = false
  restChars : ∀ c ∈ rest, UrlChar c

theorem acceptedUrl_of_parseUrl (h : parseUrl url = some u) :
    ∃ authority rest, Split url u.tls authority rest ∧ AcceptedUrl u authority rest := by
  obtain ⟨hchars, authority, rest, hsplit, hne, hat, port, hparse, hport, hportne, htarget⟩ := parseUrl_eq_some_iff.mp h
  have hurl := (validHttpUrlChars_iff.mp hchars).2
  obtain ⟨scheme, rfl, -⟩ := hsplit.scheme
  refine ⟨authority, rest, hsplit, hne, hat, ⟨port, parseAuthority_some_iff.mp hparse, hport⟩, hportne, htarget, ?_, ?_⟩
  · intro c hc
    exact ⟨hurl c (List.mem_append_right _ (List.mem_append_left _ hc)), hsplit.inside c hc⟩
  · exact fun c hc => hurl c (List.mem_append_right _ (List.mem_append_right _ hc))

theorem AcceptedUrl.printed_chars (h : AcceptedUrl u authority rest) : ∀ c ∈ printedAuthority u, UrlChar c ∧ endsAuthority c = false := by
  obtain ⟨port, hparts, hport⟩ := h.parts
  intro c hc
  rcases mem_printedAuthority hc with hc | hc | hc
  · exact h.chars c (hparts.mem.1 c hc)
  · rw [hport] at hc
    cases port with
    | none => exact defaultPort_chars u.tls c hc
    | some p => exact h.chars c (hparts.mem.2 p rfl c hc)
  · exact forall_mem_of_all (p := fun c => (¬(c ≤ 0x20 ∨ c = 0x7f)) ∧ endsAuthority c = false) (t := ascii "[]:") (by decide) c hc

theorem parseTarget_chars {t : Bytes} (h : ∀ c ∈ t, UrlChar c) : ∀ c ∈ parseTarget t, UrlChar c := by
  have hslash : UrlChar 47 := by
    unfold UrlChar
    decide
  have htake : ∀ c ∈ t.takeWhile (fun c => decide (c ≠ 35)), UrlChar c := fun c hc => h c (List.takeWhile_subset _ hc)
  unfold parseTarget
  split
  · exact htake
  · intro c hc
    rcases List.mem_cons.mp hc with rfl | hc
    · exact hslash
    · exact htake c hc
  · intro c hc
    rw [List.mem_singleton.mp (show c ∈ [47] from hc)]
    exact hslash

theorem AcceptedUrl.reference_chars (h : AcceptedUrl u authority rest) (hlocation : ∀ c ∈ location, UrlChar c) :
    ∀ c ∈ referenceText u location, UrlChar c := by
  have hpath : ∀ c ∈ u.path, UrlChar c := by
    intro c hc
    apply parseTarget_chars h.restChars
    rw [← h.target]
    exact List.takeWhile_subset _ hc
  unfold referenceText
  split
  · exact hlocation
  · intro c hc
    rcases List.mem_append.mp hc with hc | hc
    · exact hpath c hc
    · exact hlocation c hc
  · intro c hc
    rcases List.mem_append.mp hc with hc | hc
    · exact hpath c ((List.rdropWhile_prefix _ u.path).subset hc)
    · exact hlocation c hc

/-- The resolved URL, cut into its parts. -/
theorem AcceptedUrl.resolved_split (h : AcceptedUrl u authority rest) (hsplit : Split url u.tls authority rest)
    (href : Reference location) :
    Split (schemeText u.tls ++ (printedAuthority u ++ referenceText u location)) u.tls (printedAuthority u)
      (referenceText u location) where
  scheme := ⟨schemeText u.tls, rfl, by cases u.tls <;> decide⟩
  inside c hc := (h.printed_chars c hc).2
  ends := by
    have hslash : u.target.head? = some 47 := by
      rw [h.target]
      exact (parseTarget_eq hsplit.ends).2.1
    exact ends_of_head (referenceText_head href hslash) (by decide)

theorem nextHeaders_of_same (h : sameOrigin url url' = true) (headers : Bytes) : nextHeaders url url' headers = headers := by
  unfold nextHeaders
  rw [h, if_neg]
  decide

/-- **A relative redirect stays on its origin if and only if the authority has its port, and its brackets as the host needs
    them.** -/
theorem relative_stays_iff (url : Bytes) (u : ParsedUrl) (location : Bytes) (hurl : parseUrl url = some u)
    (hchars : validHttpUrlChars location = true) (href : Reference location) : Stays url u location ↔ ExplicitUrl url := by
  obtain ⟨authority, rest, hsplit, haccepted⟩ := acceptedUrl_of_parseUrl hurl
  obtain ⟨port, hparts, hport⟩ := haccepted.parts
  have hresolved := haccepted.resolved_split hsplit href
  constructor
  · rintro ⟨resolved, hresolve, -, horigin, -⟩
    rw [resolve_reference href] at hresolve
    cases hresolve
    have hfold := (sameOrigin_split hsplit hresolved).mp horigin
    exact ⟨u.tls, authority, rest, hsplit, explicit_of_length hparts hport (length_of_fold hfold)⟩
  · rintro ⟨tls, authority', rest', hsplit', hexplicit⟩
    have htls := hsplit'.scheme_unique hsplit
    subst htls
    obtain ⟨rfl, rfl⟩ := hsplit'.unique hsplit
    have hprinted := hexplicit.printed hparts hport
    have horigin : sameOrigin url (schemeText u.tls ++ (printedAuthority u ++ referenceText u location)) = true := by
      apply (sameOrigin_split hsplit hresolved).mpr
      rw [hprinted]
    refine ⟨_, resolve_reference href, ?_, horigin, nextHeaders_of_same horigin⟩
    -- the same authority again, in front of the text of the reference
    have hslash : u.target.head? = some 47 := by
      rw [haccepted.target]
      exact (parseTarget_eq hsplit.ends).2.1
    have htarget : relativeTarget u location = parseTarget (referenceText u location) := by
      have hhead := referenceText_head href hslash
      unfold relativeTarget
      cases htext : referenceText u location with
      | nil =>
          rw [htext] at hhead
          cases hhead
      | cons c t =>
          rw [htext] at hhead
          cases hhead
          rfl
    apply parseUrl_eq_some_iff.mpr
    refine ⟨?_, printedAuthority u, referenceText u location, hresolved, ?_, ?_, port, ?_, hport, haccepted.port, htarget⟩
    · apply validHttpUrlChars_iff.mpr
      refine ⟨?_, ?_⟩
      · rw [hprinted]
        simp [haccepted.ne_nil]
      · intro c hc
        rcases List.mem_append.mp hc with hc | hc
        · cases htls : u.tls
          · rw [htls] at hc
            exact forall_mem_of_all (p := fun c => ¬(c ≤ 0x20 ∨ c = 0x7f)) (by decide) c hc
          · rw [htls] at hc
            exact forall_mem_of_all (p := fun c => ¬(c ≤ 0x20 ∨ c = 0x7f)) (by decide) c hc
        rcases List.mem_append.mp hc with hc | hc
        · exact (haccepted.printed_chars c hc).1
        · exact haccepted.reference_chars (validHttpUrlChars_iff.mp hchars).2 c hc
    · rw [hprinted]
      exact haccepted.ne_nil
    · rw [hprinted]
      exact haccepted.noAt
    · rw [hprinted]
      exact parseAuthority_some_iff.mpr hparts

/-- From `http://a:8080/x?k` to `/y`. -/
theorem explicit_port_stays :
    Stays (ascii "http://a:8080/x?k") ⟨ascii "a", ascii "8080", ascii "/x?k", false⟩ (ascii "/y") := by
  have hsplit : Split (ascii "http://a:8080/x?k") false (ascii "a:8080") (ascii "/x?k") :=
    ⟨⟨ascii "http://", by decide, by decide⟩, forall_mem_of_all (by decide), ends_of_head (c := 47) (by decide) (by decide)⟩
  have hexplicit : Explicit (ascii "a" ++ colon :: ascii "8080") := .plain (by decide) (by decide) (by decide)
  have href : Reference (47 :: ascii "y") := .absolute (by decide)
  exact (relative_stays_iff (ascii "http://a:8080/x?k") ⟨ascii "a", ascii "8080", ascii "/x?k", false⟩ (ascii "/y") (by decide)
    (by decide) href).mpr ⟨false, _, _, hsplit, hexplicit⟩

/-- From `http://a/x` to `/y`: the resolved URL is `http://a:80/y`, which `same_origin` takes for another origin. -/
theorem default_port_leaves : ¬∀ (url : Bytes) (u : ParsedUrl) (location : Bytes), parseUrl url = some u →
    validHttpUrlChars location = true → Reference location → Stays url u location := by
  intro h
  have hparse : parseUrl (ascii "http://a/x") = some ⟨ascii "a", ascii "80", ascii "/x", false⟩ := by decide
  have href : Reference (ascii "/y") := show Reference (47 :: ascii "y") from .absolute (by decide)
  obtain ⟨resolved, hresolve, -, horigin, -⟩ := h _ _ (ascii "/y") hparse (by decide) href
  have hnext : resolveRedirectUrl ⟨ascii "a", ascii "80", ascii "/x", false⟩ (ascii "/y") = some (ascii "http://a:80/y") := by
    decide
  rw [hnext] at hresolve
  cases hresolve
  exact absurd horigin (by decide)

end Vnt.Net
