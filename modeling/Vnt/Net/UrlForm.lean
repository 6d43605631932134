import Vnt.Net.Url

/-!
# `Vnt.Net.UrlForm`: what `parse_url` keeps of a URL

`Split` cuts a URL into scheme, authority and the rest. `Form` says that a parsed URL has all of the authority: the host,
in brackets or not, and the port. `parse_url` accepts authorities that are not of this form: those without a host, and those
with text behind a bracket.
-/

namespace Vnt.Net

/-- The scheme with its `://`, in lower case. -/
def schemeText (tls : Bool) : Bytes := if tls then ascii "https://" else ascii "http://"

/-- A URL is a scheme, an authority up to the first of `/`, `?` and `#`, and the rest. -/
structure Split (url : Bytes) (tls : Bool) (authority rest : Bytes) : Prop where
  scheme : ∃ scheme, url = scheme ++ (authority ++ rest) ∧ fold scheme = schemeText tls
  inside : ∀ c ∈ authority, endsAuthority c = false
  ends : ∀ c ∈ rest.head?, endsAuthority c = true

/-- What a host is written as. -/
def Names (name host : Bytes) : Prop := name = host ∨ name = 91 :: (host ++ [93])

/-- The authority is the host and the port, or the host alone when the port is the default. -/
def Spelled (authority : Bytes) (u : ParsedUrl) : Prop :=
  ∃ name, Names name u.host ∧
    ((authority = name ∧ u.port = defaultPort u.tls) ∨ authority = name ++ colon :: u.port)

/-- The path and the query, with a slash when the path is empty. -/
def suppliedTarget (rest : Bytes) : Bytes :=
  match rest.takeWhile (· ≠ 35) with
  | 47 :: t => 47 :: t
  | t => 47 :: t

/-- **Nothing of the URL is lost.** -/
structure Form (url : Bytes) (u : ParsedUrl) : Prop where
  parts : ∃ authority rest, Split url u.tls authority rest ∧ Spelled authority u ∧ u.target = suppliedTarget rest
  host : u.host ≠ []
  port : u.port ≠ []
  slash : u.target.head? = some 47
  noFragment : 35 ∉ u.target

variable {url authority authority' rest rest' t before after : Bytes} {tls tls' : Bool} {u : ParsedUrl}

/-! ## The parts of a URL -/

theorem ends_of_head {c : UInt8} (hhead : rest.head? = some c) (hc : endsAuthority c = true) :
    ∀ c ∈ rest.head?, endsAuthority c = true := by
  intro d hd
  rw [hhead] at hd
  cases hd
  exact hc

theorem length_schemeText (tls : Bool) : (schemeText tls).length = schemeLength tls + 3 := by
  cases tls <;> rfl

theorem takeWhile_authority (hin : ∀ c ∈ authority, endsAuthority c = false)
    (hend : ∀ c ∈ rest.head?, endsAuthority c = true) : authorityOf (authority ++ rest) = authority := by
  have hkeep : ∀ c ∈ authority, (decide ¬endsAuthority c) = true := by
    intro c hc
    rw [hin c hc]
    rfl
  unfold authorityOf
  rw [List.takeWhile_append_of_pos hkeep]
  cases rest with
  | nil => rw [List.takeWhile_nil, List.append_nil]
  | cons c rest =>
      have hc : ¬((decide ¬endsAuthority c) = true) := by
        rw [hend c rfl]
        decide
      rw [List.takeWhile_cons, if_neg hc, List.append_nil]

theorem dropWhile_authority (hin : ∀ c ∈ authority, endsAuthority c = false)
    (hend : ∀ c ∈ rest.head?, endsAuthority c = true) :
    (authority ++ rest).dropWhile (fun c => ¬endsAuthority c) = rest := by
  have happend := List.takeWhile_append_dropWhile (p := fun c => decide ¬endsAuthority c) (l := authority ++ rest)
  have htake : (authority ++ rest).takeWhile (fun c => ¬endsAuthority c) = authority := takeWhile_authority hin hend
  rw [htake] at happend
  exact List.append_cancel_left happend

/-- Any text is an authority and a rest. -/
theorem split_scheme {scheme p : Bytes} (hscheme : fold scheme = schemeText tls) :
    Split (scheme ++ p) tls (authorityOf p) (p.dropWhile fun c => ¬endsAuthority c) where
  scheme := ⟨scheme, by rw [authorityOf, List.takeWhile_append_dropWhile], hscheme⟩
  inside c hc := by
    have hkept := List.mem_takeWhile_imp hc
    simpa using hkept
  ends c hc := by
    have hdropped := List.head?_dropWhile_not (fun c => decide ¬endsAuthority c) p
    rw [show (p.dropWhile fun c => decide ¬endsAuthority c).head? = some c from hc] at hdropped
    simpa using hdropped

theorem Split.drop (h : Split url tls authority rest) : url.drop (schemeLength tls + 3) = authority ++ rest := by
  obtain ⟨scheme, rfl, hscheme⟩ := h.scheme
  have hlen : scheme.length = schemeLength tls + 3 := by
    rw [← length_schemeText, ← hscheme, length_fold]
  rw [← hlen, List.drop_left]

/-- A URL has one scheme, one authority and one rest. -/
theorem Split.unique (h : Split url tls authority rest) (h' : Split url tls authority' rest') :
    authority = authority' ∧ rest = rest' := by
  have hp : authority ++ rest = authority' ++ rest' := by rw [← h.drop, h'.drop]
  have hauthority := takeWhile_authority h.inside h.ends
  rw [hp, takeWhile_authority h'.inside h'.ends] at hauthority
  subst hauthority
  exact ⟨rfl, List.append_cancel_left hp⟩

theorem parseRest_eq (p : Bytes) (tls : Bool) : parseUrl.parseRest p tls =
    if authorityOf p = [] ∨ 64 ∈ authorityOf p then none
    else
      (parseAuthority (authorityOf p)).bind fun r =>
        if r.2.getD (defaultPort tls) = [] then none
        else some ⟨r.1, r.2.getD (defaultPort tls), parseTarget (p.dropWhile fun c => ¬endsAuthority c), tls⟩ := by
  unfold parseUrl.parseRest
  show (if authorityOf p = [] ∨ 64 ∈ authorityOf p then none else _) = _
  congr 1
  unfold authorityOf
  cases parseAuthority (p.takeWhile fun c => ¬endsAuthority c) <;> rfl

/-- What `parse_url` makes of a URL that is cut into its parts. -/
theorem parseUrl_split (hchars : validHttpUrlChars url = true) (h : Split url tls authority rest) :
    parseUrl url =
      if authority = [] ∨ 64 ∈ authority then none
      else
        (parseAuthority authority).bind fun r =>
          if r.2.getD (defaultPort tls) = [] then none
          else some ⟨r.1, r.2.getD (defaultPort tls), parseTarget rest, tls⟩ := by
  have hrest := parseRest_eq (authority ++ rest) tls
  rw [takeWhile_authority h.inside h.ends, dropWhile_authority h.inside h.ends] at hrest
  rw [← hrest, ← h.drop]
  obtain ⟨scheme, hurl, hscheme⟩ := h.scheme
  have hfold : fold url = schemeText tls ++ fold (authority ++ rest) := by rw [hurl, fold_append, hscheme]
  have hchars' : ¬(validHttpUrlChars url = false) := by
    rw [hchars]
    decide
  have hstarts : ∀ text, startsFold url text = decide ((schemeText tls ++ fold (authority ++ rest)).take text.length = fold text) := by
    intro text
    rw [← hfold, fold, ← List.map_take]
    rfl
  unfold parseUrl
  rw [if_neg hchars', hstarts, hstarts]
  cases tls with
  | false => rfl
  | true => rfl

/-- An accepted URL has its parts. -/
theorem parseUrl_some_split (h : parseUrl url = some u) : validHttpUrlChars url = true ∧
    ∃ tls authority rest, Split url tls authority rest := by
  have hparts : ∀ {text : Bytes} {tls : Bool}, startsFold url text = true → fold text = schemeText tls →
      ∃ tls authority rest, Split url tls authority rest := by
    intro text tls hstart htext
    have hscheme : fold (url.take text.length) = schemeText tls := by
      rw [← htext]
      exact sameFold_iff.mp hstart
    have hsplit := @split_scheme tls (url.take text.length) (url.drop text.length) hscheme
    rw [List.take_append_drop] at hsplit
    exact ⟨tls, _, _, hsplit⟩
  unfold parseUrl at h
  split at h
  · cases h
  rename_i hchars
  refine ⟨Bool.not_eq_false _ ▸ hchars, ?_⟩
  split at h
  · rename_i hstart
    exact @hparts _ false hstart (by decide)
  split at h
  · rename_i hstart
    exact @hparts _ true hstart (by decide)
  · cases h

/-- **What `parse_url` accepts.** -/
theorem parseUrl_eq_some_iff : parseUrl url = some u ↔ validHttpUrlChars url = true ∧
    ∃ authority rest, Split url u.tls authority rest ∧ authority ≠ [] ∧ 64 ∉ authority ∧
      ∃ port, parseAuthority authority = some (u.host, port) ∧ u.port = port.getD (defaultPort u.tls) ∧ u.port ≠ [] ∧
        u.target = parseTarget rest := by
  constructor
  · intro h
    obtain ⟨hchars, tls, authority, rest, hsplit⟩ := parseUrl_some_split h
    rw [parseUrl_split hchars hsplit] at h
    split at h
    · cases h
    rename_i hauthority
    rw [not_or] at hauthority
    obtain ⟨⟨host, port⟩, hparse, h⟩ := Option.bind_eq_some_iff.mp h
    split at h
    · cases h
    rename_i hport
    cases h
    exact ⟨hchars, authority, rest, hsplit, hauthority.1, hauthority.2, port, hparse, rfl, hport, rfl⟩
  · rintro ⟨hchars, authority, rest, hsplit, hne, hat, port, hparse, hport, hportne, htarget⟩
    obtain ⟨host, port', target, tls⟩ := u
    change port' = port.getD (defaultPort tls) at hport
    change target = parseTarget rest at htarget
    subst hport htarget
    rw [parseUrl_split hchars hsplit, if_neg (not_or.mpr ⟨hne, hat⟩), hparse]
    exact if_neg hportne

/-! ## The parts of an authority -/

theorem splitLastColon_some : ∀ {t before after : Bytes}, splitLastColon t = some (before, after) →
    t = before ++ colon :: after ∧ colon ∉ after
  | [], _, _, h => nomatch h
  | c :: t, before, after, h => by
      rw [splitLastColon] at h
      split at h
      · rename_i before' after' hlater
        cases h
        obtain ⟨ht, hafter⟩ := splitLastColon_some hlater
        exact ⟨by rw [ht]; rfl, hafter⟩
      · rename_i hnone
        split at h
        · rename_i hc
          cases h
          refine ⟨by rw [hc]; rfl, fun hmem => ?_⟩
          obtain ⟨r, hr⟩ := splitLastColon_isSome hmem
          rw [hnone] at hr
          cases hr
        · cases h
where
  splitLastColon_isSome : ∀ {t : Bytes}, colon ∈ t → ∃ r, splitLastColon t = some r
    | c :: t, h => by
        rw [splitLastColon]
        cases hlater : splitLastColon t with
        | some r => exact ⟨_, rfl⟩
        | none =>
            rcases List.mem_cons.mp h with rfl | h
            · exact ⟨_, rfl⟩
            · obtain ⟨r, hr⟩ := splitLastColon_isSome h
              rw [hlater] at hr
              cases hr

theorem splitLastColon_none (h : splitLastColon t = none) : colon ∉ t := by
  intro hmem
  obtain ⟨r, hr⟩ := splitLastColon_some.splitLastColon_isSome hmem
  rw [h] at hr
  cases hr

theorem splitLastColon_of_not_mem : ∀ {t : Bytes}, colon ∉ t → splitLastColon t = none
  | [], _ => rfl
  | c :: t, h => by
      rw [List.mem_cons, not_or] at h
      rw [splitLastColon, splitLastColon_of_not_mem h.2]
      exact if_neg fun hc => h.1 hc.symm

theorem splitLastColon_append (hafter : colon ∉ after) : ∀ before : Bytes,
    splitLastColon (before ++ colon :: after) = some (before, after)
  | [] => by
      rw [List.nil_append, splitLastColon, splitLastColon_of_not_mem hafter]
      exact if_pos rfl
  | c :: before => by
      rw [List.cons_append, splitLastColon, splitLastColon_append hafter before]

/-- A text is cut at its first closing bracket. -/
theorem takeWhile_close {inner : Bytes} (hinner : 93 ∉ inner) (t : Bytes) :
    (inner ++ 93 :: t).takeWhile (· ≠ 93) = inner ∧ (inner ++ 93 :: t).dropWhile (· ≠ 93) = 93 :: t := by
  have hkeep : ∀ c ∈ inner, decide (c ≠ 93) = true := fun c hc => decide_eq_true fun h => hinner (h ▸ hc)
  rw [List.takeWhile_append_of_pos hkeep, List.dropWhile_append_of_pos hkeep]
  have hstop : ¬(decide ((93 : UInt8) ≠ 93) = true) := by decide
  rw [List.takeWhile_cons, if_neg hstop, List.dropWhile_cons, if_neg hstop, List.append_nil]
  exact ⟨rfl, rfl⟩

theorem parseAuthority_bracketed {inner port : Bytes} (hinner : 93 ∉ inner) :
    parseAuthority (91 :: (inner ++ 93 :: 58 :: port)) = some (inner, some port) := by
  obtain ⟨htake, hdrop⟩ := takeWhile_close hinner (58 :: port)
  have hmem : 93 ∈ inner ++ 93 :: 58 :: port := List.mem_append_right _ List.mem_cons_self
  rw [parseAuthority_bracket, if_pos hmem, htake, hdrop]
  rfl

/-- Without a colon behind the bracket, all but the last byte is the host. -/
theorem parseAuthority_behind {inner behind : Bytes} (hinner : 93 ∉ inner) (hbehind : behind.head? ≠ some 58) :
    parseAuthority (91 :: (inner ++ 93 :: behind)) = some ((inner ++ 93 :: behind).dropLast, none) := by
  obtain ⟨-, hdrop⟩ := takeWhile_close hinner behind
  have hmem : 93 ∈ inner ++ 93 :: behind := List.mem_append_right _ List.mem_cons_self
  have hport : bracketPort (93 :: behind) = none := by
    cases behind with
    | nil => rfl
    | cons c behind =>
        rw [bracketPort_eq, if_neg]
        rintro ⟨-, rfl⟩
        exact hbehind rfl
  rw [parseAuthority_bracket, if_pos hmem, hdrop, hport]
  rfl

/-- The host and the port that `parse_url` reads in an authority. -/
inductive AuthorityParts : Bytes → Bytes → Option Bytes → Prop
  | plain {host : Bytes} : host.head? ≠ some 91 → colon ∉ host → AuthorityParts host host none
  | plainPort {host port : Bytes} : (host ++ colon :: port).head? ≠ some 91 → colon ∉ port →
      AuthorityParts (host ++ colon :: port) host (some port)
  | bracketed {host port : Bytes} : 93 ∉ host → AuthorityParts (91 :: (host ++ 93 :: 58 :: port)) host (some port)
  | behind {inner behind : Bytes} : 93 ∉ inner → behind.head? ≠ some 58 →
      AuthorityParts (91 :: (inner ++ 93 :: behind)) (inner ++ 93 :: behind).dropLast none

theorem parseAuthority_some_iff {host : Bytes} {port : Option Bytes} :
    parseAuthority authority = some (host, port) ↔ AuthorityParts authority host port := by
  constructor
  · intro h
    by_cases hhead : authority.head? = some 91
    · obtain ⟨inner, rfl⟩ : ∃ inner, authority = 91 :: inner := by
        cases authority with
        | nil => cases hhead
        | cons c inner => exact ⟨inner, by rw [Option.some.inj hhead]⟩
      by_cases hmem : 93 ∈ inner
      · obtain ⟨host', behind, rfl, hhost'⟩ := List.eq_append_cons_of_mem hmem
        by_cases hbehind : behind.head? = some 58
        · obtain ⟨port', rfl⟩ : ∃ port', behind = 58 :: port' := by
            cases behind with
            | nil => cases hbehind
            | cons c port' => exact ⟨port', by rw [Option.some.inj hbehind]⟩
          rw [parseAuthority_bracketed hhost'] at h
          cases h
          exact .bracketed hhost'
        · rw [parseAuthority_behind hhost' hbehind] at h
          cases h
          exact .behind hhost' hbehind
      · rw [parseAuthority_bracket, if_neg hmem] at h
        cases h
    · rw [parseAuthority_plain hhead] at h
      cases hcolon : splitLastColon authority with
      | none =>
          rw [hcolon] at h
          cases h
          exact .plain hhead (splitLastColon_none hcolon)
      | some r =>
          obtain ⟨host', port'⟩ := r
          rw [hcolon] at h
          cases h
          obtain ⟨rfl, hport⟩ := splitLastColon_some hcolon
          exact .plainPort hhead hport
  · intro h
    cases h with
    | plain hhead hcolon =>
        rw [parseAuthority_plain hhead, splitLastColon_of_not_mem hcolon]
        rfl
    | plainPort hhead hport =>
        rw [parseAuthority_plain hhead, splitLastColon_append hport]
        rfl
    | bracketed hhost => exact parseAuthority_bracketed hhost
    | behind hinner hbehind => exact parseAuthority_behind hinner hbehind

/-! ## The form of what is accepted -/

/-- An authority that is accepted although it is no host and port: without a host, or with text behind a bracket. -/
inductive Odd : Bytes → Prop
  | noHost {port : Bytes} : port ≠ [] → colon ∉ port → Odd (colon :: port)
  | emptyBrackets : Odd [91, 93]
  | emptyBracketsPort {port : Bytes} : port ≠ [] → Odd (91 :: 93 :: 58 :: port)
  | behindBracket {inner behind : Bytes} : 93 ∉ inner → behind.head? ≠ some 58 → behind ≠ [] → behind.getLast? ≠ some 93 →
      Odd (91 :: (inner ++ 93 :: behind))

/-- An accepted URL with such an authority. -/
def Lossy (url : Bytes) : Prop :=
  validHttpUrlChars url = true ∧ ∃ tls authority rest, Split url tls authority rest ∧ 64 ∉ authority ∧ Odd authority

theorem AuthorityParts.spelled {port : Option Bytes} (h : AuthorityParts authority u.host port)
    (hport : u.port = port.getD (defaultPort u.tls)) (hne : u.port ≠ []) (hauthority : authority ≠ []) (hodd : ¬Odd authority) :
    Spelled authority u ∧ u.host ≠ [] := by
  obtain ⟨host, port', target, tls⟩ := u
  change port' = port.getD (defaultPort tls) at hport
  change port' ≠ [] at hne
  change AuthorityParts authority host port at h
  subst hport
  cases h with
  | plain _ _ => exact ⟨⟨authority, Or.inl rfl, Or.inl ⟨rfl, rfl⟩⟩, hauthority⟩
  | plainPort _ hcolon =>
      refine ⟨⟨host, Or.inl rfl, Or.inr rfl⟩, ?_⟩
      rintro rfl
      exact hodd (.noHost hne hcolon)
  | bracketed hclose =>
      refine ⟨⟨91 :: (host ++ [93]), Or.inr rfl, Or.inr ?_⟩, ?_⟩
      · rw [List.cons_append, List.append_assoc]
        rfl
      · rintro rfl
        exact hodd (.emptyBracketsPort hne)
  | behind hclose hcolon =>
      rename_i inner behind
      by_cases hbehind : behind = []
      · subst hbehind
        rw [List.dropLast_concat]
        refine ⟨⟨91 :: (inner ++ [93]), Or.inr rfl, Or.inl ⟨rfl, rfl⟩⟩, ?_⟩
        rintro rfl
        exact hodd .emptyBrackets
      · -- the last byte is taken for the bracket, so it has to be one
        by_cases hlast : behind.getLast? = some 93
        · obtain ⟨before, rfl⟩ : ∃ before, behind = before ++ [93] := List.getLast?_eq_some_iff.mp hlast
          have hdrop : (inner ++ 93 :: (before ++ [93])).dropLast = inner ++ 93 :: before := by
            rw [← List.cons_append, ← List.append_assoc, List.dropLast_concat]
          refine ⟨⟨91 :: (inner ++ 93 :: (before ++ [93])), Or.inr ?_, Or.inl ⟨rfl, rfl⟩⟩, ?_⟩
          · rw [hdrop, List.append_assoc]
            rfl
          · rw [hdrop]
            exact List.append_ne_nil_of_right_ne_nil _ (List.cons_ne_nil _ _)
        · exact absurd (Odd.behindBracket hclose hcolon hbehind hlast) hodd

/-- What is read in such an authority is not what it says. -/
theorem AuthorityParts.lost {port : Option Bytes} (h : AuthorityParts authority u.host port)
    (hport : u.port = port.getD (defaultPort u.tls)) (hodd : Odd authority) : u.host = [] ∨ ¬Spelled authority u := by
  have hparse := parseAuthority_some_iff.mpr h
  cases hodd with
  | noHost _ hcolon =>
      rename_i port' _
      have hplain : (colon :: port').head? ≠ some 91 := by
        show some colon ≠ some 91
        decide
      rw [parseAuthority_plain hplain, ← List.nil_append (colon :: port'), splitLastColon_append hcolon] at hparse
      exact Or.inl (congrArg Prod.fst (Option.some.inj hparse)).symm
  | emptyBrackets =>
      have hbrackets : parseAuthority [91, 93] = some ([], none) := by decide
      rw [hbrackets] at hparse
      exact Or.inl (congrArg Prod.fst (Option.some.inj hparse)).symm
  | emptyBracketsPort _ =>
      rename_i port' _
      have hbrackets := @parseAuthority_bracketed [] port' List.not_mem_nil
      rw [List.nil_append] at hbrackets
      rw [hbrackets] at hparse
      exact Or.inl (congrArg Prod.fst (Option.some.inj hparse)).symm
  | behindBracket hinner hcolon hne hlast =>
      rename_i inner behind
      rw [parseAuthority_behind hinner hcolon, Option.some.injEq, Prod.mk.injEq] at hparse
      obtain ⟨hhost, hnone⟩ := hparse
      subst hnone
      have hlen : u.host.length = inner.length + behind.length := by
        rw [← hhost, List.length_dropLast, List.length_append, List.length_cons]
        omega
      have hdefault : u.port.length = 2 ∨ u.port.length = 3 := by
        rw [hport]
        show (defaultPort u.tls).length = 2 ∨ (defaultPort u.tls).length = 3
        cases u.tls
        · exact Or.inl rfl
        · exact Or.inr rfl
      have hauthority : (91 :: (inner ++ 93 :: behind)).length = inner.length + behind.length + 2 := by
        rw [List.length_cons, List.length_append, List.length_cons]
        omega
      -- three of the four spellings have another length, the one in brackets another last byte
      refine Or.inr ?_
      rintro ⟨name, hname | hname, ⟨heq, -⟩ | heq⟩
      · rw [heq, hname] at hauthority
        omega
      · rw [heq, hname, List.length_append, List.length_cons] at hauthority
        omega
      · rw [hname, ← List.cons_append, ← List.cons_append] at heq
        have hend := congrArg List.getLast? heq
        rw [List.getLast?_concat, List.getLast?_append_of_ne_nil _ (List.cons_ne_nil _ _),
          List.getLast?_cons_of_ne_nil hne] at hend
        exact hlast hend
      · rw [heq, hname] at hauthority
        simp only [List.length_append, List.length_cons] at hauthority
        omega

theorem Odd.accepted (h : Odd authority) (tls : Bool) : authority ≠ [] ∧
    ∃ r, parseAuthority authority = some r ∧ r.2.getD (defaultPort tls) ≠ [] := by
  have hdefault : defaultPort tls ≠ [] := by
    cases tls
    · exact List.cons_ne_nil _ _
    · exact List.cons_ne_nil _ _
  cases h with
  | noHost hport hcolon =>
      rename_i port
      have hplain : (colon :: port).head? ≠ some 91 := by
        show some colon ≠ some 91
        decide
      refine ⟨List.cons_ne_nil _ _, ([], some port), ?_, hport⟩
      rw [parseAuthority_plain hplain, ← List.nil_append (colon :: port), splitLastColon_append hcolon]
      rfl
  | emptyBrackets => exact ⟨List.cons_ne_nil _ _, ([], none), by decide, hdefault⟩
  | emptyBracketsPort hport => exact ⟨List.cons_ne_nil _ _, _, parseAuthority_bracketed List.not_mem_nil, hport⟩
  | behindBracket hinner hcolon _ _ => exact ⟨List.cons_ne_nil _ _, _, parseAuthority_behind hinner hcolon, hdefault⟩

theorem parseTarget_eq (hends : ∀ c ∈ rest.head?, endsAuthority c = true) : parseTarget rest = suppliedTarget rest ∧
    (parseTarget rest).head? = some 47 ∧ 35 ∉ parseTarget rest := by
  have hcut : ∀ t : Bytes, 35 ∉ t.takeWhile (· ≠ 35) := by
    intro t hmem
    have hne : decide ((35 : UInt8) ≠ 35) = true := List.mem_takeWhile_imp (p := fun c => decide (c ≠ 35)) hmem
    exact absurd hne (by decide)
  have hslash : (47 : UInt8) ≠ 35 := by decide
  cases rest with
  | nil => exact ⟨rfl, rfl, by decide⟩
  | cons c rest =>
      have hc : c = 47 ∨ c = 63 ∨ c = 35 := by
        have hmem := hends c rfl
        unfold endsAuthority at hmem
        simpa [show ascii "/?#" = [47, 63, 35] by decide] using hmem
      rcases hc with rfl | rfl | rfl
      · refine ⟨?_, ?_, ?_⟩
        · show (47 :: rest).takeWhile (· ≠ 35) = _
          rw [suppliedTarget, List.takeWhile_cons, if_pos (by decide)]
          rfl
        · show ((47 :: rest).takeWhile (· ≠ 35)).head? = _
          rw [List.takeWhile_cons, if_pos (by decide)]
          rfl
        · exact hcut (47 :: rest)
      · refine ⟨?_, rfl, ?_⟩
        · show 47 :: (63 :: rest).takeWhile (· ≠ 35) = _
          rw [suppliedTarget, List.takeWhile_cons, if_pos (by decide)]
          rfl
        · show 35 ∉ 47 :: (63 :: rest).takeWhile (· ≠ 35)
          rw [List.mem_cons, not_or]
          exact ⟨hslash.symm, hcut _⟩
      · exact ⟨rfl, rfl, show (35 : UInt8) ∉ ascii "/" by decide⟩

/-- **`parse_url` keeps all of the URLs it accepts, but for those with an authority that names no host or goes on behind a
    bracket.** -/
theorem parseUrl_form_iff (url : Bytes) : (∀ u, parseUrl url = some u → Form url u) ↔ ¬Lossy url := by
  constructor
  · rintro h ⟨hchars, tls, authority, rest, hsplit, hat, hodd⟩
    obtain ⟨hne, ⟨host, port⟩, hparse, hport⟩ := hodd.accepted tls
    have hparts : AuthorityParts authority host port := parseAuthority_some_iff.mp hparse
    obtain ⟨u, hu⟩ : ∃ u : ParsedUrl, u = ⟨host, port.getD (defaultPort tls), parseTarget rest, tls⟩ := ⟨_, rfl⟩
    have haccept : parseUrl url = some u := by
      rw [parseUrl_split hchars hsplit, if_neg (not_or.mpr ⟨hne, hat⟩), hparse, hu]
      exact if_neg hport
    have hform := h u haccept
    subst hu
    obtain ⟨authority', rest', hsplit', hspelled, -⟩ := hform.parts
    obtain ⟨rfl, -⟩ := hsplit.unique hsplit'
    rcases hparts.lost (u := ⟨host, port.getD (defaultPort tls), parseTarget rest, tls⟩) rfl hodd with hempty | hnot
    · exact hform.host hempty
    · exact hnot hspelled
  · intro hlossy u hu
    obtain ⟨hchars, authority, rest, hsplit, hne, hat, port, hparse, hport, hportne, htarget⟩ := parseUrl_eq_some_iff.mp hu
    have hodd : ¬Odd authority := fun hodd => hlossy ⟨hchars, u.tls, authority, rest, hsplit, hat, hodd⟩
    obtain ⟨hspelled, hhost⟩ := (parseAuthority_some_iff.mp hparse).spelled hport hportne hne hodd
    obtain ⟨hsupplied, hslash, hfragment⟩ := parseTarget_eq hsplit.ends
    rw [← htarget] at hsupplied hslash hfragment
    exact ⟨⟨authority, rest, hsplit, hspelled, hsupplied⟩, hhost, hportne, hslash, hfragment⟩

/-- In `http://[::1]x/` the text behind the bracket goes into the host: `::1]`. -/
theorem parseUrl_behind_bracket : ¬∀ url u, parseUrl url = some u → Form url u := by
  intro h
  have hparse : parseUrl (ascii "http://[::1]x/") = some ⟨ascii "::1]", ascii "80", ascii "/", false⟩ := by decide
  have hsplit : Split (ascii "http://[::1]x/") false (ascii "[::1]x") (ascii "/") :=
    ⟨⟨ascii "http://", by decide, by decide⟩, forall_mem_of_all (by decide), ends_of_head (c := 47) (by decide) (by decide)⟩
  obtain ⟨authority, rest, hsplit', ⟨name, hname, hspelled⟩, -⟩ := (h _ _ hparse).parts
  obtain ⟨rfl, -⟩ := hsplit.unique hsplit'
  rcases hname with rfl | rfl
  · rcases hspelled with ⟨heq, -⟩ | heq
    · exact absurd heq (by decide)
    · exact absurd heq (by decide)
  · rcases hspelled with ⟨heq, -⟩ | heq
    · exact absurd heq (by decide)
    · exact absurd heq (by decide)

end Vnt.Net
