import Vnt.Net.Text

/-!
# `Vnt.Net.Url`: URLs and redirect targets (`native_net.c`)
-/

namespace Vnt.Net

structure ParsedUrl where
  host : Bytes
  port : Bytes
  target : Bytes
  tls : Bool
  deriving DecidableEq

/-- The parts of a string around its last colon. -/
def splitLastColon : Bytes → Option (Bytes × Bytes)
  | [] => none
  | c :: rest =>
      match splitLastColon rest with
      | some (before, after) => some (c :: before, after)
      | none => if c = colon then some ([], rest) else none

/-- A byte that `strcspn(p, "/?#")` stops at. -/
def endsAuthority (c : UInt8) : Bool := c ∈ ascii "/?#"

/-- The port behind the bracket that closes a host. -/
def bracketPort : Bytes → Option Bytes
  | 93 :: 58 :: port => some port
  | _ => none

/-- The host and the port, if one is given, of an authority; `none` for a bracket that is not closed. -/
def parseAuthority (authority : Bytes) : Option (Bytes × Option Bytes) :=
  match authority with
  | 91 :: inner =>
      if 93 ∈ inner then
        match bracketPort (inner.dropWhile (· ≠ 93)) with
        | some port => some (inner.takeWhile (· ≠ 93), some port)
        | none => some (inner.dropLast, none)
      else none
  | _ =>
      match splitLastColon authority with
      | some (host, port) => some (host, some port)
      | none => some (authority, none)

/-- The target of what follows the authority. -/
def parseTarget (rest : Bytes) : Bytes :=
  match rest with
  | 47 :: _ => rest.takeWhile (· ≠ 35)
  | 63 :: _ => 47 :: rest.takeWhile (· ≠ 35)
  | _ => ascii "/"

def defaultPort (tls : Bool) : Bytes := if tls then ascii "443" else ascii "80"

/-- `parse_url`. -/
def parseUrl (url : Bytes) : Option ParsedUrl :=
  if validHttpUrlChars url = false then none
  else if startsFold url (ascii "http://") then parseRest (url.drop 7) false
  else if startsFold url (ascii "https://") then parseRest (url.drop 8) true
  else none
where
  /-- Behind the scheme. -/
  parseRest (p : Bytes) (tls : Bool) : Option ParsedUrl :=
    let authority := p.takeWhile fun c => ¬endsAuthority c
    if authority = [] ∨ 64 ∈ authority then none
    else
      match parseAuthority authority with
      | none => none
      | some (host, port) =>
          let port := port.getD (defaultPort tls)
          if port = [] then none
          else some ⟨host, port, parseTarget (p.dropWhile fun c => ¬endsAuthority c), tls⟩

/-- `resolve_redirect_url`. -/
def resolveRedirectUrl (u : ParsedUrl) (location : Bytes) : Option Bytes :=
  if location = [] then none
  else if startsFold location (ascii "http://") ∨ startsFold location (ascii "https://") then some location
  else
    let scheme := if u.tls then ascii "https" else ascii "http"
    let origin :=
      if colon ∈ u.host then scheme ++ ascii "://[" ++ u.host ++ ascii "]:" ++ u.port
      else scheme ++ ascii "://" ++ u.host ++ ascii ":" ++ u.port
    let path := u.target.takeWhile (· ≠ 63)
    let directory := path.rdropWhile (· ≠ 47)
    match location with
    | 47 :: 47 :: _ => some (scheme ++ ascii ":" ++ location)
    | 47 :: _ => some (origin ++ location)
    | 63 :: _ => some (origin ++ path ++ location)
    | _ => some (origin ++ directory ++ location)

/-- `same_origin`. -/
def sameOrigin (a b : Bytes) : Bool :=
  match strstr (ascii "://") a, strstr (ascii "://") b with
  | some i, some j =>
      if i ≠ j ∨ sameFold (a.take (i + 3)) (b.take (i + 3)) = false then false
      else
        sameFold ((a.drop (i + 3)).takeWhile fun c => ¬endsAuthority c)
          ((b.drop (i + 3)).takeWhile fun c => ¬endsAuthority c)
  | _, _ => false

/-! ## Letter case

`same_origin` compares texts without letter case, `parse_url` cuts them at bytes that are no letters: so both see the
same parts. -/

/-- A test that does not look at the letter case. -/
def CaseBlind (p : UInt8 → Bool) : Prop := ∀ c, p (lower c) = p c

theorem CaseBlind.of_ne {x : UInt8} (hx : x < 65 ∨ (90 < x ∧ x < 97) ∨ 122 < x) : CaseBlind fun c => decide (c ≠ x) := by
  intro c
  simp only [ne_eq, lower_eq_iff hx]

theorem fold_takeWhile {p : UInt8 → Bool} (hp : CaseBlind p) (t : Bytes) :
    fold (t.takeWhile p) = (fold t).takeWhile p := by
  induction t with
  | nil => rfl
  | cons c t ih =>
      rw [fold_cons, List.takeWhile_cons, List.takeWhile_cons, hp c]
      split
      · rw [fold_cons, ih]
      · rfl

theorem fold_dropWhile {p : UInt8 → Bool} (hp : CaseBlind p) (t : Bytes) :
    fold (t.dropWhile p) = (fold t).dropWhile p := by
  induction t with
  | nil => rfl
  | cons c t ih =>
      rw [fold_cons, List.dropWhile_cons, List.dropWhile_cons, hp c]
      split
      · exact ih
      · rfl

theorem splitLastColon_fold (t : Bytes) :
    splitLastColon (fold t) = (splitLastColon t).map fun r => (fold r.1, fold r.2) := by
  induction t with
  | nil => rfl
  | cons c t ih =>
      rw [fold_cons, splitLastColon, splitLastColon, ih]
      cases splitLastColon t with
      | some r => rfl
      | none =>
          have hc : lower c = colon ↔ c = colon := lower_eq_iff (by decide)
          show (if lower c = colon then some ([], fold t) else none) =
            Option.map _ (if c = colon then some ([], t) else none)
          by_cases h : c = colon
          · rw [if_pos h, if_pos (hc.mpr h)]
            rfl
          · rw [if_neg h, if_neg (mt hc.mp h)]
            rfl

theorem parseAuthority_plain {t : Bytes} (h : t.head? ≠ some 91) :
    parseAuthority t = some ((splitLastColon t).elim (t, none) fun r => (r.1, some r.2)) := by
  unfold parseAuthority
  split
  · exact absurd rfl h
  · cases splitLastColon t <;> rfl

theorem parseAuthority_bracket (inner : Bytes) : parseAuthority (91 :: inner) =
    if 93 ∈ inner then
      some ((bracketPort (inner.dropWhile (· ≠ 93))).elim (inner.dropLast, none)
        fun port => (inner.takeWhile (· ≠ 93), some port))
    else none := by
  show (if 93 ∈ inner then _ else none) = _
  congr 1
  cases bracketPort (inner.dropWhile (· ≠ 93)) <;> rfl

theorem bracketPort_eq (c d : UInt8) (t : Bytes) :
    bracketPort (c :: d :: t) = if c = 93 ∧ d = 58 then some t else none := by
  by_cases hc : c = 93
  · by_cases hd : d = 58
    · subst hc hd
      rfl
    · rw [if_neg fun h => hd h.2]
      unfold bracketPort
      split
      · rename_i heq
        cases heq
        exact absurd rfl hd
      · rfl
  · rw [if_neg fun h => hc h.1]
    unfold bracketPort
    split
    · rename_i heq
      cases heq
      exact absurd rfl hc
    · rfl

theorem bracketPort_short {t : Bytes} (h : t.length < 2) : bracketPort t = none := by
  unfold bracketPort
  split
  · simp only [List.length_cons] at h
    omega
  · rfl

theorem bracketPort_fold (t : Bytes) : bracketPort (fold t) = (bracketPort t).map fold := by
  match t with
  | [] => rfl
  | [c] => rw [bracketPort_short (by simp), bracketPort_short (by simp)]; rfl
  | c :: d :: t =>
      have hclose : lower c = 93 ↔ c = 93 := lower_eq_iff (by decide)
      have hcolon : lower d = 58 ↔ d = 58 := lower_eq_iff (by decide)
      rw [fold_cons, fold_cons, bracketPort_eq, bracketPort_eq]
      simp only [hclose, hcolon]
      split <;> rfl

/-- The parts of an authority, up to letter case. -/
theorem parseAuthority_fold (t : Bytes) :
    parseAuthority (fold t) = (parseAuthority t).map fun r => (fold r.1, r.2.map fold) := by
  cases t with
  | nil => rfl
  | cons c inner =>
      have hbracket : lower c = 91 ↔ c = 91 := lower_eq_iff (by decide)
      by_cases hc : c = 91
      · subst hc
        have hclose : CaseBlind fun c => decide (c ≠ 93) := .of_ne (by decide)
        show parseAuthority (91 :: fold inner) = _
        rw [parseAuthority_bracket, parseAuthority_bracket]
        by_cases hmem : 93 ∈ inner
        · rw [if_pos hmem, if_pos ((mem_fold_iff (by decide) inner).mpr hmem), ← fold_dropWhile hclose,
            ← fold_takeWhile hclose]
          have hlast : (fold inner).dropLast = fold inner.dropLast := List.map_dropLast.symm
          rw [hlast, bracketPort_fold]
          cases bracketPort (inner.dropWhile (· ≠ 93)) <;> rfl
        · rw [if_neg hmem, if_neg (mt (mem_fold_iff (by decide) inner).mp hmem)]
          rfl
      · have hplain : (fold (c :: inner)).head? ≠ some 91 := by
          intro h
          exact hc (hbracket.mp (Option.some.inj h))
        have hplain' : (c :: inner).head? ≠ some 91 := fun h => hc (Option.some.inj h)
        rw [parseAuthority_plain hplain, parseAuthority_plain hplain', splitLastColon_fold]
        cases splitLastColon (c :: inner) <;> rfl

/-! ## Origins -/

/-- The authority of what follows a scheme. -/
def authorityOf (p : Bytes) : Bytes := p.takeWhile fun c => ¬endsAuthority c

theorem isPrefixOf_fold {needle : Bytes} (hneedle : ∀ x ∈ needle, x < 65 ∨ (90 < x ∧ x < 97) ∨ 122 < x) (t : Bytes) :
    needle.isPrefixOf (fold t) = needle.isPrefixOf t := by
  induction needle generalizing t with
  | nil => simp
  | cons x needle ih =>
      cases t with
      | nil => rfl
      | cons c t =>
          have hx : lower c = x ↔ c = x := lower_eq_iff (hneedle x List.mem_cons_self)
          have hhead : (x == lower c) = (x == c) := by
            rw [Bool.eq_iff_iff, beq_iff_eq, beq_iff_eq, eq_comm, hx, eq_comm]
          rw [fold_cons, List.isPrefixOf_cons_cons, List.isPrefixOf_cons_cons, hhead,
            ih (fun y hy => hneedle y (List.mem_cons_of_mem _ hy))]

theorem strstr_fold {needle : Bytes} (hneedle : ∀ x ∈ needle, x < 65 ∨ (90 < x ∧ x < 97) ∨ 122 < x) (t : Bytes) :
    strstr needle (fold t) = strstr needle t := by
  induction t with
  | nil => rfl
  | cons c t ih =>
      have hstarts := isPrefixOf_fold hneedle (c :: t)
      rw [fold_cons] at hstarts ⊢
      rw [strstr, strstr, hstarts, ih]

theorem fold_of_startsFold {t start : Bytes} (h : startsFold t start = true) :
    fold t = fold start ++ fold (t.drop start.length) := by
  have htake := sameFold_iff.mp h
  rw [← htake, ← fold_append, List.take_append_drop]

/-- The length of a scheme. -/
def schemeLength (tls : Bool) : Nat := if tls then 5 else 4

theorem schemeLength_injective : ∀ s t : Bool, schemeLength s = schemeLength t → s = t := by decide

/-- The two schemes, and where `://` stands in each. -/
theorem parseUrl_scheme {url : Bytes} {u : ParsedUrl} (h : parseUrl url = some u) :
    strstr (ascii "://") url = some (schemeLength u.tls) ∧
      parseUrl.parseRest (url.drop (schemeLength u.tls + 3)) u.tls = some u := by
  have hneedle : ∀ x ∈ ascii "://", x < 65 ∨ (90 < x ∧ x < 97) ∨ 122 < x := forall_mem_of_all (by decide)
  unfold parseUrl at h
  split at h
  · cases h
  split at h
  · rename_i hstart
    have htls : u.tls = false := parseRest_tls h
    rw [htls]
    refine ⟨?_, h⟩
    rw [← strstr_fold hneedle, fold_of_startsFold hstart]
    rfl
  split at h
  · rename_i hstart
    have htls : u.tls = true := parseRest_tls h
    rw [htls]
    refine ⟨?_, h⟩
    rw [← strstr_fold hneedle, fold_of_startsFold hstart]
    rfl
  · cases h
where
  parseRest_tls {p : Bytes} {tls : Bool} {u : ParsedUrl} (h : parseUrl.parseRest p tls = some u) : u.tls = tls := by
    unfold parseUrl.parseRest at h
    simp only at h
    split at h
    · cases h
    split at h
    · cases h
    split at h
    · cases h
    · cases h
      rfl

/-- What `parse_url` makes of an authority. -/
theorem parseRest_some {p : Bytes} {tls : Bool} {u : ParsedUrl} (h : parseUrl.parseRest p tls = some u) :
    ∃ port, parseAuthority (authorityOf p) = some (u.host, port) ∧
      u.port = port.getD (defaultPort tls) := by
  unfold parseUrl.parseRest at h
  simp only at h
  split at h
  · cases h
  split at h
  · cases h
  · rename_i host port hauthority
    split at h
    · cases h
    · cases h
      exact ⟨port, hauthority, rfl⟩

/-- The scheme, the host and the port of a connection; names are compared without letter case. -/
def ParsedUrl.SameOrigin (u v : ParsedUrl) : Prop := u.tls = v.tls ∧ fold u.host = fold v.host ∧ fold u.port = fold v.port

/-- **URLs that `same_origin` accepts lead to one origin.** -/
theorem sameOrigin_sound {a b : Bytes} {u v : ParsedUrl} (h : sameOrigin a b = true) (hu : parseUrl a = some u)
    (hv : parseUrl b = some v) : u.SameOrigin v := by
  obtain ⟨hau, hru⟩ := parseUrl_scheme hu
  obtain ⟨hbv, hrv⟩ := parseUrl_scheme hv
  unfold sameOrigin at h
  rw [hau, hbv] at h
  simp only at h
  split at h
  · cases h
  rename_i hscheme
  rw [not_or, not_not] at hscheme
  have htls : u.tls = v.tls := schemeLength_injective _ _ hscheme.1
  obtain ⟨uport, huauth, huport⟩ := parseRest_some hru
  obtain ⟨vport, hvauth, hvport⟩ := parseRest_some hrv
  rw [htls] at h hru huauth huport
  have hfold : fold (authorityOf (a.drop (schemeLength v.tls + 3))) =
      fold (authorityOf (b.drop (schemeLength v.tls + 3))) := sameFold_iff.mp h
  have hparts := parseAuthority_fold (authorityOf (a.drop (schemeLength v.tls + 3)))
  rw [hfold, parseAuthority_fold, huauth, hvauth, Option.map_some, Option.map_some, Option.some.injEq,
    Prod.mk.injEq] at hparts
  refine ⟨htls, hparts.1.symm, ?_⟩
  rw [huport, hvport]
  have hport := hparts.2
  cases uport <;> cases vport
  · rfl
  · cases hport
  · cases hport
  · exact (Option.some.inj hport).symm

end Vnt.Net
