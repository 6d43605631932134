import Vnt.Runtime.JsonString

/-!
# `Runtime.JsonValueAt` — the scan agrees with the grammar

`Passes` says what the scan of a text meets: characters that are no quotes, strings with no colon behind them, and names of
members. One induction, over the tree, shows that it meets the members of a document in their order; another, over
`Passes`, that the loop counts the members it meets and stops at the one that is wanted.
-/

namespace Vnt.Runtime

open Lib (Buffer Turn)
open Lib.Json (Blanks IsBlank Piece content decoded stringText Number Scalar Name Items Members Member Document
  beginArray endArray beginObject endObject valueSeparator nameSeparator)
open Net (Bytes cString)

variable {p rest after value key follow : Bytes} {s : List Piece} {ms ms' : List Member} {cap n : Nat} {c : UInt8}

/-! ## Blanks -/

theorem isJsonBlank_iff : isJsonBlank c = true ↔ IsBlank c := by
  unfold isJsonBlank IsBlank
  rw [decide_eq_true_eq]
  constructor
  · rintro (h | h | h | h)
    · exact Or.inl h
    · exact Or.inr (Or.inl h)
    · exact Or.inr (Or.inr (Or.inr h))
    · exact Or.inr (Or.inr (Or.inl h))
  · rintro (h | h | h | h)
    · exact Or.inl h
    · exact Or.inr (Or.inl h)
    · exact Or.inr (Or.inr (Or.inr h))
    · exact Or.inr (Or.inr (Or.inl h))

theorem isBlank_plain (h : IsBlank c) : c ≠ doubleQuote := by
  rintro rfl
  exact absurd h (by decide)

theorem skipBlanks_append (b : Blanks) (p : Bytes) : skipBlanks (b.bytes ++ p) = skipBlanks p := by
  obtain ⟨bytes, hblank⟩ := b
  induction bytes with
  | nil => rfl
  | cons c bytes ih =>
      have hc := isJsonBlank_iff.mpr (hblank c List.mem_cons_self)
      rw [List.cons_append, skipBlanks, if_pos hc]
      exact ih fun d hd => hblank d (List.mem_cons_of_mem c hd)

theorem skipBlanks_cons (h : ¬IsBlank c) (p : Bytes) : skipBlanks (c :: p) = c :: p := by
  rw [skipBlanks, if_neg (mt isJsonBlank_iff.mp h)]

theorem skipBlanks_length (p : Bytes) : (skipBlanks p).length ≤ p.length := by
  induction p with
  | nil => exact Nat.le_refl 0
  | cons c p ih =>
      rw [skipBlanks]
      split
      · exact Nat.le_succ_of_le ih
      · exact Nat.le_refl _

/-! ## What stands behind a value -/

/-- The character that ends a value. -/
def EndsValue (c : UInt8) : Prop := c = valueSeparator ∨ c = endArray ∨ c = endObject

instance : DecidablePred EndsValue := fun c => inferInstanceAs (Decidable (c = _ ∨ c = _ ∨ c = _))

/-- Blanks, and the end of the value. -/
def Follows (follow : Bytes) : Prop :=
  ∃ (b : Blanks) (c : UInt8) (more : Bytes), follow = b.bytes ++ c :: more ∧ EndsValue c

theorem endsValue_plain (h : EndsValue c) : ¬IsBlank c ∧ c ≠ Net.colon ∧ c ≠ doubleQuote := by
  rcases h with rfl | rfl | rfl
  · decide
  · decide
  · decide

theorem follows_noColon (h : Follows follow) : behindColon follow = none := by
  obtain ⟨b, c, more, rfl, hend⟩ := h
  obtain ⟨hblank, hcolon, -⟩ := endsValue_plain hend
  unfold behindColon
  rw [skipBlanks_append, skipBlanks_cons hblank]
  exact if_neg hcolon

theorem behindColon_name (b : Blanks) (p : Bytes) : behindColon (b.bytes ++ nameSeparator :: p) = some p := by
  unfold behindColon
  rw [skipBlanks_append, skipBlanks_cons (by decide)]
  exact if_pos rfl

theorem behindColon_length (h : behindColon p = some value) : value.length < p.length := by
  have hlen := skipBlanks_length p
  unfold behindColon at h
  split at h
  next => cases h
  next c rest hskip =>
    split at h
    · rw [← Option.some.inj h]
      rw [hskip, List.length_cons] at hlen
      exact hlen
    · cases h

/-- A value and what is around it. -/
def StandsIn (v : Lib.Json.Value) (value : Bytes) : Prop :=
  ∃ (b : Blanks) (follow : Bytes), value = b.bytes ++ (v.text ++ follow) ∧ Follows follow

/-! ## What the scan meets -/

/-- From `p` to `rest` the scan meets the names of these members. -/
inductive Passes (rest : Bytes) : Bytes → List Member → Prop where
  | refl : Passes rest rest []
  | plain {c : UInt8} {p : Bytes} {ms : List Member} : c ≠ doubleQuote → Passes rest p ms → Passes rest (c :: p) ms
  | string {s : List Piece} {p : Bytes} {ms : List Member} : behindColon p = none → Passes rest p ms →
      Passes rest (stringText s ++ p) ms
  | name {s : List Piece} {p value : Bytes} {v : Lib.Json.Value} {ms : List Member} : behindColon p = some value →
      StandsIn v value → Passes rest p ms → Passes rest (stringText s ++ p) (⟨decoded s, v⟩ :: ms)

namespace Passes

theorem trans {mid : Bytes} (h : Passes mid p ms) (h' : Passes rest mid ms') : Passes rest p (ms ++ ms') := by
  induction h with
  | refl => exact h'
  | plain hc _ ih => exact .plain hc ih
  | string hcolon _ ih => exact .string hcolon ih
  | name hcolon hstands _ ih => exact .name hcolon hstands ih

theorem plains (l : Bytes) (hl : ∀ c ∈ l, c ≠ doubleQuote) (h : Passes rest p ms) : Passes rest (l ++ p) ms := by
  induction l with
  | nil => exact h
  | cons c l ih => exact .plain (hl c List.mem_cons_self) (ih fun d hd => hl d (List.mem_cons_of_mem c hd))

theorem blanks (b : Blanks) (h : Passes rest p ms) : Passes rest (b.bytes ++ p) ms := by
  exact plains b.bytes (fun c hc => isBlank_plain (b.blank c hc)) h

end Passes

/-! ## Scalars that are no strings -/

/-- A character of a number or of a literal name. -/
def IsLiteral (c : UInt8) : Prop := c ≠ doubleQuote ∧ ¬IsBlank c ∧ ¬EndsValue c ∧ c ≠ 0

instance : DecidablePred IsLiteral := fun c => inferInstanceAs (Decidable (c ≠ _ ∧ ¬IsBlank c ∧ ¬EndsValue c ∧ c ≠ 0))

theorem digits_literal (ds : List (Fin 10)) : ∀ c ∈ Lib.Json.digits ds, IsLiteral c := by
  intro c hc
  obtain ⟨d, -, rfl⟩ := List.mem_map.mp hc
  have hall : ∀ d : Fin 10, IsLiteral (UInt8.ofNat (0x30 + d.val)) := by decide
  exact hall d

theorem literal_append {l l' : Bytes} (h : ∀ c ∈ l, IsLiteral c) (h' : ∀ c ∈ l', IsLiteral c) :
    ∀ c ∈ l ++ l', IsLiteral c := by
  intro c hc
  rcases List.mem_append.mp hc with hc | hc
  · exact h c hc
  · exact h' c hc

/-- For texts that are given. -/
theorem literal_of_all {l : Bytes} (h : l.all (fun c => decide (IsLiteral c)) = true) : ∀ c ∈ l, IsLiteral c := by
  intro c hc
  exact of_decide_eq_true (List.all_eq_true.mp h c hc)

theorem signText_literal (sign : Option Bool) : ∀ c ∈ Lib.Json.signText sign, IsLiteral c := by
  rcases sign with _ | _ | _
  · exact literal_of_all rfl
  · exact literal_of_all (by decide)
  · exact literal_of_all (by decide)

theorem exponent_literal (e : Lib.Json.Exponent) : ∀ c ∈ e.text, IsLiteral c := by
  have hletter : ∀ c ∈ [if e.upper then (0x45 : UInt8) else 0x65], IsLiteral c := by
    cases e.upper <;> exact literal_of_all (by decide)
  exact literal_append hletter (literal_append (signText_literal e.sign) (digits_literal e.digits))

theorem fracText_literal (frac : Option (List (Fin 10))) : ∀ c ∈ Lib.Json.fracText frac, IsLiteral c := by
  cases frac with
  | none => exact fun c hc => absurd hc List.not_mem_nil
  | some ds =>
      have hpoint : ∀ c ∈ [(0x2E : UInt8)], IsLiteral c := literal_of_all (by decide)
      exact literal_append hpoint (digits_literal ds)

theorem number_literal (x : Number) : ∀ c ∈ x.text, IsLiteral c := by
  have hminus : ∀ c ∈ (if x.minus then [(0x2D : UInt8)] else []), IsLiteral c := by
    cases x.minus <;> exact literal_of_all (by decide)
  have hexp : ∀ c ∈ (x.exp.map Lib.Json.Exponent.text).getD [], IsLiteral c := by
    cases x.exp with
    | none => exact fun c hc => absurd hc List.not_mem_nil
    | some e => exact exponent_literal e
  exact literal_append hminus (literal_append (digits_literal x.int) (literal_append (fracText_literal x.frac) hexp))

theorem number_ne_nil (x : Number) : x.text ≠ [] := by
  have hint : Lib.Json.digits x.int ≠ [] := by
    intro hnil
    exact x.int_ne (List.map_eq_nil_iff.mp hnil)
  intro hnil
  exact hint (List.append_eq_nil_iff.mp (List.append_eq_nil_iff.mp hnil).2).1

/-- A scalar is a string, or is written with characters of literals. -/
theorem scalar_cases (x : Scalar) :
    (∃ s, x = .string s) ∨ (x.text ≠ [] ∧ (∀ c ∈ x.text, IsLiteral c) ∧ x.meaning = x.text) := by
  cases x with
  | null => exact Or.inr ⟨List.cons_ne_nil _ _, literal_of_all (by decide), rfl⟩
  | boolean b => cases b <;> exact Or.inr ⟨List.cons_ne_nil _ _, literal_of_all (by decide), rfl⟩
  | number x => exact Or.inr ⟨number_ne_nil x, number_literal x, rfl⟩
  | string s => exact Or.inl ⟨s, rfl⟩

/-! ## What the scan meets in a document -/

theorem follows_cons (b : Blanks) (more : Bytes) (h : EndsValue c) : Follows (b.bytes ++ c :: more) :=
  ⟨b, c, more, rfl, h⟩

/-- The blanks behind a value and the character that ends it. -/
theorem passes_end (b : Blanks) (hend : EndsValue c) (h : Passes rest p ms) : Passes rest (b.bytes ++ c :: p) ms := by
  obtain ⟨-, -, hplain⟩ := endsValue_plain hend
  exact .blanks b (.plain hplain h)

/-- A name, up to its value. -/
theorem passes_name (name : Name) (v : Lib.Json.Value) (hfollow : Follows follow) (h : Passes rest (v.text ++ follow) ms) :
    Passes rest (name.text ++ (v.text ++ follow)) (⟨decoded name.string, v⟩ :: ms) := by
  have hsplit : name.text ++ (v.text ++ follow) = name.before.bytes ++ (stringText name.string ++
      (name.beforeColon.bytes ++ nameSeparator :: (name.afterColon.bytes ++ (v.text ++ follow)))) := by
    rw [Name.text, List.append_assoc, List.append_assoc, List.append_assoc, List.cons_append]
  rw [hsplit]
  apply Passes.blanks
  apply Passes.name (behindColon_name _ _) ⟨name.afterColon, follow, rfl, hfollow⟩
  apply Passes.blanks
  apply Passes.plain (by decide)
  exact .blanks _ h

mutual

theorem value_passes (v : Lib.Json.Value) (rest : Bytes) (hrest : behindColon rest = none) :
    Passes rest (v.text ++ rest) v.members := by
  cases v with
  | scalar x =>
      rcases scalar_cases x with ⟨s, rfl⟩ | ⟨-, hliteral, -⟩
      · exact .string hrest .refl
      · exact .plains x.text (fun c hc => (hliteral c hc).1) .refl
  | emptyArray inside =>
      show Passes rest (beginArray :: inside.bytes ++ [endArray] ++ rest) []
      rw [List.append_assoc]
      exact .plain (by decide) (passes_end inside (Or.inr (Or.inl rfl)) .refl)
  | array items =>
      have hinside := items_passes items rest
      show Passes rest (beginArray :: items.text ++ [endArray] ++ rest) items.members
      rw [List.append_assoc, ← List.append_nil items.members]
      exact .plain (by decide) (hinside.trans (.plain (by decide) .refl))
  | emptyObject inside =>
      show Passes rest (beginObject :: inside.bytes ++ [endObject] ++ rest) []
      rw [List.append_assoc]
      exact .plain (by decide) (passes_end inside (Or.inr (Or.inr rfl)) .refl)
  | object members =>
      have hinside := members_passes members rest
      show Passes rest (beginObject :: members.text ++ [endObject] ++ rest) members.members
      rw [List.append_assoc, ← List.append_nil members.members]
      exact .plain (by decide) (hinside.trans (.plain (by decide) .refl))

theorem items_passes (items : Items) (rest : Bytes) :
    Passes (endArray :: rest) (items.text ++ endArray :: rest) items.members := by
  cases items with
  | last before v after =>
      have hfollow := @follows_cons endArray after rest (Or.inr (Or.inl rfl))
      have hvalue := value_passes v _ (follows_noColon hfollow)
      rw [Items.text, Items.members, List.append_assoc, List.append_assoc, ← List.append_nil v.members]
      exact .blanks before (hvalue.trans (.blanks after .refl))
  | cons before v after more =>
      have hfollow := @follows_cons valueSeparator after (more.text ++ endArray :: rest) (Or.inl rfl)
      have hvalue := value_passes v _ (follows_noColon hfollow)
      have hmore := items_passes more rest
      rw [Items.text, Items.members, List.append_assoc, List.append_assoc, List.append_assoc]
      exact .blanks before (hvalue.trans (passes_end after (Or.inl rfl) hmore))

theorem members_passes (members : Members) (rest : Bytes) :
    Passes (endObject :: rest) (members.text ++ endObject :: rest) members.members := by
  cases members with
  | last name v after =>
      have hfollow := @follows_cons endObject after rest (Or.inr (Or.inr rfl))
      have hvalue := value_passes v _ (follows_noColon hfollow)
      rw [Members.text, Members.members, List.append_assoc, List.append_assoc, ← List.append_nil v.members]
      exact passes_name name v hfollow (hvalue.trans (.blanks after .refl))
  | cons name v after more =>
      have hfollow := @follows_cons valueSeparator after (more.text ++ endObject :: rest) (Or.inl rfl)
      have hvalue := value_passes v _ (follows_noColon hfollow)
      have hmore := members_passes more rest
      rw [Members.text, Members.members, List.append_assoc, List.append_assoc, List.append_assoc]
      exact passes_name name v hfollow (hvalue.trans (passes_end after (Or.inl rfl) hmore))

end

theorem document_passes (d : Document) : Passes [] d.text d.value.members := by
  have hend : behindColon (d.after.bytes ++ []) = none := by
    unfold behindColon
    rw [skipBlanks_append]
    rfl
  have hvalue := value_passes d.value _ hend
  have hall := Passes.blanks d.before (hvalue.trans (.blanks d.after .refl))
  rw [List.append_nil, List.append_nil] at hall
  rw [Document.text, List.append_assoc]
  exact hall

/-! ## The value that is copied -/

theorem literalEnd_run (l : Bytes) (hl : ∀ c ∈ l, ¬EndsValue c) (hend : EndsValue c) (more : Bytes) :
    ∀ {n : Nat}, n + l.length < cap → literalEnd cap (l ++ c :: more) n = n + l.length := by
  induction l with
  | nil =>
      intro n _
      have hstop : ¬(c ≠ Net.comma ∧ c ≠ 0x7D ∧ c ≠ 0x5D ∧ n + 1 < cap) := by
        rintro ⟨hcomma, hobject, harray, -⟩
        rcases hend with h | h | h
        · exact hcomma h
        · exact harray h
        · exact hobject h
      rw [List.nil_append, literalEnd, if_neg hstop]
      rfl
  | cons d l ih =>
      intro n hroom
      rw [List.length_cons] at hroom
      have hd := hl d List.mem_cons_self
      have hgo : d ≠ Net.comma ∧ d ≠ 0x7D ∧ d ≠ 0x5D ∧ n + 1 < cap := by
        refine ⟨fun h => hd (Or.inl h), fun h => hd (Or.inr (Or.inr h)), fun h => hd (Or.inr (Or.inl h)), by omega⟩
      rw [List.cons_append, literalEnd, if_pos hgo, ih (fun e he => hl e (List.mem_cons_of_mem d he)) (by omega),
        List.length_cons]
      omega

/-- The blanks behind a literal are taken off again. -/
theorem trimEnd_blanks (l : Bytes) (b : Blanks) (more : Bytes) (hl : l ≠ []) (hliteral : ∀ c ∈ l, ¬IsBlank c) :
    ∀ {k : Nat}, k ≤ b.bytes.length → trimEnd (l ++ (b.bytes ++ more)) (l.length + k) = l.length := by
  intro k
  induction k with
  | zero =>
      intro _
      obtain ⟨front, c, rfl⟩ := (List.eq_nil_or_concat' l).resolve_left hl
      have hlast : (front ++ [c] ++ (b.bytes ++ more))[front.length]? = some c := by
        rw [List.append_assoc, List.getElem?_append_right (Nat.le_refl _), Nat.sub_self]
        rfl
      have hc : isJsonBlank c = false := by
        rw [Bool.eq_false_iff, Ne, isJsonBlank_iff]
        exact hliteral c (List.mem_append_right front (List.mem_singleton_self c))
      rw [Nat.add_zero, List.length_append, List.length_singleton, trimEnd, hlast, Option.map_some, Option.getD_some, hc]
      rfl
  | succ k ih =>
      intro hk
      have hlt : k < b.bytes.length := hk
      have hget : (l ++ (b.bytes ++ more))[l.length + k]? = some b.bytes[k] := by
        rw [List.getElem?_append_right (Nat.le_add_right _ _), Nat.add_sub_cancel_left, List.getElem?_append_left hlt,
          List.getElem?_eq_getElem hlt]
      have hblank := isJsonBlank_iff.mpr (b.blank _ (List.getElem_mem hlt))
      rw [← Nat.add_assoc, trimEnd, hget, Option.map_some, Option.getD_some, if_pos hblank]
      exact ih (Nat.le_of_succ_le hk)

theorem skipBlanks_literal {l : Bytes} (hl : l ≠ []) (hliteral : ∀ c ∈ l, IsLiteral c) (b : Blanks) (p : Bytes) :
    skipBlanks (b.bytes ++ (l ++ p)) = l ++ p := by
  cases l with
  | nil => exact absurd rfl hl
  | cons c l =>
      have hc := hliteral c List.mem_cons_self
      rw [skipBlanks_append, List.cons_append, skipBlanks_cons hc.2.1]

/-- The value behind a name is copied as what it means. -/
theorem copyValue_scalar (x : Scalar) (hstands : StandsIn (.scalar x) value) (hroom : value.length < cap) :
    ∃ out, copyValue value cap = .ok out ∧ out.text = x.meaning := by
  obtain ⟨before, follow, rfl, after, c, more, rfl, hend⟩ := hstands
  have htext : (Lib.Json.Value.scalar x).text = x.text := rfl
  rw [htext] at hroom ⊢
  rw [List.length_append, List.length_append, List.length_append, List.length_cons] at hroom
  rcases scalar_cases x with ⟨s, rfl⟩ | ⟨hne, hliteral, hmeaning⟩
  · have hcontent : (content s).length < cap := by
      have hlen : (Scalar.string s).text.length = (content s).length + 2 := by
        show (doubleQuote :: content s ++ [doubleQuote]).length = _
        rw [List.length_append, List.length_cons, List.length_singleton]
      omega
    have hskip : skipBlanks (before.bytes ++ ((Scalar.string s).text ++ (after.bytes ++ c :: more))) =
        stringText s ++ (after.bytes ++ c :: more) := by
      rw [skipBlanks_append]
      exact skipBlanks_cons (by decide) _
    obtain ⟨out, hcopy, hout⟩ := @copyString_quoted cap s (after.bytes ++ c :: more) hcontent
    refine ⟨out, ?_, hout⟩
    rw [copyValue_string (by rw [hskip]; rfl), hskip]
    exact hcopy
  · have hskip := skipBlanks_literal hne hliteral before (after.bytes ++ c :: more)
    have hstring : (skipBlanks (before.bytes ++ (x.text ++ (after.bytes ++ c :: more)))).head? ≠ some doubleQuote := by
      rw [hskip]
      obtain ⟨first, tail, hx⟩ := List.exists_cons_of_ne_nil hne
      have hfirst := hliteral first (by rw [hx]; exact List.mem_cons_self)
      rw [hx]
      exact fun h => hfirst.1 (Option.some.inj h)
    obtain ⟨out, hcopy, hout⟩ := @copyLiteral_ok _ cap (by omega) hstring
    refine ⟨out, hcopy, ?_⟩
    have hplain : ∀ d ∈ x.text ++ after.bytes, ¬EndsValue d := by
      intro d hd
      rcases List.mem_append.mp hd with hd | hd
      · exact (hliteral d hd).2.2.1
      · exact fun hends => (endsValue_plain hends).1 (after.blank d hd)
    have hstop := @literalEnd_run cap c (x.text ++ after.bytes) hplain hend more 0 (by rw [List.length_append]; omega)
    have htrim := @trimEnd_blanks x.text after (c :: more) hne (fun d hd => (hliteral d hd).2.1) _ (Nat.le_refl _)
    rw [List.append_assoc, List.length_append, Nat.zero_add] at hstop
    rw [hout, hskip, hmeaning, literalBytes, hstop, htrim, List.take_left]

/-! ## The run -/

variable {wanted found : Int}

theorem cString_noNul {text : Bytes} (h : 0 ∉ text) : cString text = text := by
  rw [cString, List.takeWhile_eq_self_iff]
  intro c hc
  rw [decide_eq_true_eq]
  rintro rfl
  exact h hc

theorem scanString_stringText (s : List Piece) (p : Bytes) :
    scanString false (content s ++ [doubleQuote] ++ p) = doubleQuote :: p := by
  rw [List.append_assoc]
  exact scanString_content s p

theorem extractTurn_string (hcolon : behindColon p = none) :
    extractTurn key wanted cap (stringText s ++ p, found) = .ok (.next (p, found)) := by
  show stringTurn key wanted cap doubleQuote (content s ++ [doubleQuote] ++ p) found = _
  unfold stringTurn
  rw [scanString_stringText]
  dsimp only
  rw [hcolon]
  rfl

/-- A name is decoded into a buffer of its own length, and compared. -/
theorem extractTurn_name (hcolon : behindColon p = some value) :
    extractTurn key wanted cap (stringText s ++ p, found) =
      if decoded s = key then
        if found = wanted then do
          let out ← copyValue value cap
          pure (.done out)
        else pure (.next (p, found + 1))
      else pure (.next (p, found)) := by
  have hkeyLen : (content s ++ [doubleQuote] ++ p).length - (p.length + 1) = (content s).length := by
    rw [List.length_append, List.length_append, List.length_singleton]
    omega
  obtain ⟨decodedKey, hcopy, htext⟩ := @copyString_quoted ((content s).length + 1) s p (Nat.lt_succ_self _)
  show stringTurn key wanted cap doubleQuote (content s ++ [doubleQuote] ++ p) found = _
  unfold stringTurn
  rw [scanString_stringText]
  dsimp only
  rw [hcolon]
  dsimp only
  rw [hkeyLen]
  show (copyString (stringText s ++ p) _ >>= _) = _
  rw [hcopy]
  show (if cString decodedKey.text = key then _ else _) = _
  rw [htext, cString_noNul (Lib.Json.decoded_noNul s)]

/-- The values of the members of a name. -/
def valuesOf (key : Bytes) (ms : List Member) : List Lib.Json.Value := (ms.filter (·.name = key)).map (·.value)

theorem valuesOf_cons_eq {v : Lib.Json.Value} (h : decoded s = key) :
    valuesOf key (⟨decoded s, v⟩ :: ms) = v :: valuesOf key ms := by
  have hkept : decide ((⟨decoded s, v⟩ : Member).name = key) = true := decide_eq_true h
  rw [valuesOf, List.filter_cons, if_pos hkept]
  rfl

theorem valuesOf_cons_ne {v : Lib.Json.Value} (h : decoded s ≠ key) :
    valuesOf key (⟨decoded s, v⟩ :: ms) = valuesOf key ms := by
  have hdropped : ¬decide ((⟨decoded s, v⟩ : Member).name = key) = true := fun hd => h (of_decide_eq_true hd)
  rw [valuesOf, List.filter_cons, if_neg hdropped]
  rfl

/-- What the scan writes for the value that it has come to, if it has. -/
def Delivers (cap : Nat) (out : Buffer UInt8) : Option Lib.Json.Value → Prop
  | none => out.text = []
  | some v => ∃ value, StandsIn v value ∧ value.length < cap ∧ copyValue value cap = .ok out

/-- Of the members that it meets, the loop leaves out as many as have not been counted yet. -/
theorem loop_passes (hcap : 0 < cap) (h : Passes [] p ms) : ∀ {found fuel : Nat}, found ≤ n → p.length < fuel →
    p.length < cap → ∃ out, Lib.loop JsonError.outOfClock (extractTurn key n cap) fuel (p, (found : Int)) = .ok out ∧
      Delivers cap out (valuesOf key ms)[n - found]? := by
  induction h with
  | refl =>
      intro found fuel _ hfuel _
      obtain ⟨fuel, rfl⟩ := Nat.exists_eq_add_of_lt hfuel
      exact ⟨.fresh cap, Lib.loop_done rfl, rfl⟩
  | @plain c p ms hc hrest ih =>
      intro found fuel hfound hfuel hroom
      rw [List.length_cons] at hfuel hroom
      obtain ⟨fuel, rfl⟩ : ∃ k, fuel = k + 1 := ⟨fuel - 1, by omega⟩
      have hturn : extractTurn key n cap (c :: p, (found : Int)) = .ok (.next (p, (found : Int))) := if_pos hc
      rw [Lib.loop_next hturn]
      exact ih hfound (by omega) (by omega)
  | @string s p ms hcolon hrest ih =>
      intro found fuel hfound hfuel hroom
      rw [List.length_append] at hfuel hroom
      obtain ⟨fuel, rfl⟩ : ∃ k, fuel = k + 1 := ⟨fuel - 1, by omega⟩
      have hpos : 0 < (stringText s).length := Nat.succ_pos _
      rw [Lib.loop_next (extractTurn_string hcolon)]
      exact ih hfound (by omega) (by omega)
  | @name s p value v ms hcolon hstands hrest ih =>
      intro found fuel hfound hfuel hroom
      have hvalue := behindColon_length hcolon
      have hpos : 0 < (stringText s).length := Nat.succ_pos _
      have hturn := @extractTurn_name p value key s cap n found hcolon
      rw [List.length_append] at hfuel hroom
      obtain ⟨fuel, rfl⟩ : ∃ k, fuel = k + 1 := ⟨fuel - 1, by omega⟩
      by_cases hname : decoded s = key
      · rw [if_pos hname] at hturn
        rw [valuesOf_cons_eq hname]
        by_cases hnow : found = n
        · -- The member that is wanted.
          obtain ⟨out, hcopy⟩ := copyValue_safe value hcap
          rw [if_pos (congrArg Nat.cast hnow), hcopy] at hturn
          rw [Lib.loop_done hturn, hnow, Nat.sub_self]
          exact ⟨out, rfl, value, hstands, by omega, hcopy⟩
        · have hlater : n - found = n - (found + 1) + 1 := by omega
          rw [if_neg (fun h => hnow (Int.ofNat_inj.mp h))] at hturn
          rw [Lib.loop_next hturn, hlater, List.getElem?_cons_succ]
          exact @ih (found + 1) fuel (by omega) (by omega) (by omega)
      · rw [if_neg hname] at hturn
        rw [Lib.loop_next hturn, valuesOf_cons_ne hname]
        exact ih hfound (by omega) (by omega)

/-- The tests in front of the loop let every index that is not negative through. -/
theorem extractValue_loop (json key : Bytes) (n : Nat) : extractValue json key n (json.length + 1) =
    Lib.loop .outOfClock (extractTurn key n (json.length + 1)) (json.length + 1) (json, 0) := by
  have hfresh : (Buffer.fresh (json.length + 1) : Buffer UInt8).text.length < json.length + 1 := Nat.succ_pos _
  unfold extractValue
  rw [Buffer.terminate_ok hfresh]
  show (if (n : Int) < 0 ∨ json.length + 1 < 2 then _ else _) = _
  by_cases hshort : (n : Int) < 0 ∨ json.length + 1 < 2
  · have hempty : json = [] := List.eq_nil_of_length_eq_zero (by omega)
    rw [if_pos hshort, hempty]
    rfl
  · rw [if_neg hshort]

theorem jsonValueAt_delivers (d : Document) (json key : CString) (hjson : json.bytes = d.text) (n : Nat) :
    ∃ out, jsonValueAt json key n = .ok (cString out.text) ∧
      Delivers (d.text.length + 1) out (d.named key.bytes)[n]? := by
  have hlt := Nat.lt_succ_self d.text.length
  obtain ⟨out, hloop, hout⟩ := @loop_passes d.text key.bytes d.value.members (d.text.length + 1) n (Nat.succ_pos _)
    (document_passes d) 0 (d.text.length + 1) (Nat.zero_le n) hlt hlt
  refine ⟨out, ?_, hout⟩
  unfold jsonValueAt
  rw [hjson, extractValue_loop]
  show (Lib.loop _ _ _ (d.text, ((0 : Nat) : Int)) >>= _) = _
  rw [hloop]
  rfl

theorem meaning_noNul (x : Scalar) : 0 ∉ x.meaning := by
  rcases scalar_cases x with ⟨s, rfl⟩ | ⟨-, hliteral, hmeaning⟩
  · exact Lib.Json.decoded_noNul s
  · rw [hmeaning]
    exact fun hmem => (hliteral 0 hmem).2.2.2 rfl

/-- `json_value_at` agrees with the grammar, and writes past neither of its buffers. -/
theorem jsonValueAt_agrees (d : Document) (json key : CString) (hjson : json.bytes = d.text) (n : Nat) :
    (∀ x, (d.named key.bytes)[n]? = some (.scalar x) → jsonValueAt json key n = .ok x.meaning) ∧
    ((d.named key.bytes).length ≤ n → jsonValueAt json key n = .ok []) ∧
    ∀ index : Int, ∃ out, jsonValueAt json key index = .ok out := by
  obtain ⟨out, hrun, hout⟩ := jsonValueAt_delivers d json key hjson n
  refine ⟨?_, ?_, jsonValueAt_safe json key⟩
  · intro x hx
    rw [hx] at hout
    obtain ⟨value, hstands, hroom, hcopy⟩ := hout
    obtain ⟨out', hcopy', htext⟩ := copyValue_scalar x hstands hroom
    rw [hcopy] at hcopy'
    rw [hrun, Except.ok.inj hcopy', htext, cString_noNul (meaning_noNul x)]
  · intro hfew
    rw [List.getElem?_eq_none hfew] at hout
    have hempty : out.text = [] := hout
    rw [hrun, hempty]
    rfl

def noBlanks : Blanks := ⟨[], fun _ h => absurd h List.not_mem_nil⟩

def letterA : Lib.Json.CodeUnit := ⟨⟨0, false⟩, ⟨0, false⟩, ⟨6, false⟩, ⟨1, false⟩⟩

/-- An object whose one name is spelled with an escape. -/
def escapedName : Document where
  before := noBlanks
  value := .object (.last ⟨noBlanks, [.unit letterA (by decide) (by decide) (by decide)], noBlanks, noBlanks⟩
    (.scalar (.boolean true)) noBlanks)
  after := noBlanks

theorem jsonValueAt_escapedName :
    jsonValueAt ⟨escapedName.text, by decide, by decide⟩ ⟨[0x61], by decide, by decide⟩ (0 : Nat) =
      .ok [0x74, 0x72, 0x75, 0x65] := by
  exact (jsonValueAt_agrees escapedName _ _ rfl 0).1 (.boolean true) rfl

end Vnt.Runtime
