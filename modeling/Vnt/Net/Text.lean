import Mathlib.Data.List.DropRight

/-!
# `Vnt.Net.Text`: bytes and lines

What the HTTP client uses of `string.h` and `strings.h`, in the C locale. A C string is the bytes before its zero; `Text`
carries that it has none.
-/

namespace Vnt.Net

abbrev Bytes := List UInt8

/-- The bytes of an ASCII literal. -/
def ascii (s : String) : Bytes := s.toList.map fun c => UInt8.ofNat c.toNat

def tab : UInt8 := 9
def lf : UInt8 := 10
def cr : UInt8 := 13
def space : UInt8 := 32
def colon : UInt8 := 58

def crlf : Bytes := [cr, lf]

/-- A C string. -/
structure Text where
  bytes : Bytes
  noNul : 0 ∉ bytes

/-- `tolower`. -/
def lower (c : UInt8) : UInt8 := if 65 ≤ c ∧ c ≤ 90 then c + 32 else c

/-- A string without its letter case. -/
def fold (t : Bytes) : Bytes := t.map lower

/-- `strcasecmp(a, b) == 0`. -/
def sameFold (a b : Bytes) : Bool := fold a = fold b

/-- `strncasecmp(t, start, strlen(start)) == 0`. -/
def startsFold (t start : Bytes) : Bool := sameFold (t.take start.length) start

/-- `strstr`: where `needle` first occurs. -/
def strstr (needle : Bytes) : Bytes → Option Nat
  | [] => if needle = [] then some 0 else none
  | c :: rest => if needle.isPrefixOf (c :: rest) then some 0 else (strstr needle rest).map (· + 1)

/-- The turns of `while (*p) { end = strchr(p, '\n'); ...; if (!end) break; p = end + 1; }`. -/
def textLines : Bytes → List Bytes
  | [] => []
  | c :: rest =>
      if c = lf then [] :: textLines rest
      else
        match textLines rest with
        | [] => [[c]]
        | line :: more => (c :: line) :: more

/-- A line without the carriage return at its end. -/
def dropCr (line : Bytes) : Bytes := if line.getLast? = some cr then line.dropLast else line

/-- A line without the carriage returns at its end. -/
def dropCrs (line : Bytes) : Bytes := line.rdropWhile (· = cr)

/-- The parts of a line around its first colon. -/
def splitColon : Bytes → Option (Bytes × Bytes)
  | [] => none
  | c :: rest => if c = colon then some ([], rest) else (splitColon rest).map fun r => (c :: r.1, r.2)

/-! ## Letter case -/

/-- A byte that is no letter is the only one that folds to it. -/
theorem lower_eq_iff {c x : UInt8} (hx : x < 65 ∨ (90 < x ∧ x < 97) ∨ 122 < x) : lower c = x ↔ c = x := by
  unfold lower
  simp only [UInt8.le_iff_toNat_le, UInt8.lt_iff_toNat_lt, ← UInt8.toNat_inj] at hx ⊢
  split
  · rename_i hc
    simp only [UInt8.toNat_add, UInt8.reduceToNat] at hx hc ⊢
    omega
  · rfl

@[simp] theorem length_fold (t : Bytes) : (fold t).length = t.length := List.length_map lower

@[simp] theorem fold_nil : fold [] = [] := rfl

@[simp] theorem fold_cons (c : UInt8) (t : Bytes) : fold (c :: t) = lower c :: fold t := rfl

theorem fold_append (a b : Bytes) : fold (a ++ b) = fold a ++ fold b := List.map_append

theorem length_of_fold {a b : Bytes} (h : fold a = fold b) : a.length = b.length := by
  rw [← length_fold a, h, length_fold]

theorem mem_fold_iff {x : UInt8} (hx : x < 65 ∨ (90 < x ∧ x < 97) ∨ 122 < x) (t : Bytes) : x ∈ fold t ↔ x ∈ t := by
  unfold fold
  rw [List.mem_map]
  constructor
  · rintro ⟨c, hc, hlower⟩
    rw [(lower_eq_iff hx).mp hlower] at hc
    exact hc
  · intro h
    exact ⟨x, h, (lower_eq_iff hx).mpr rfl⟩

/-- A fact about each byte of a literal, by evaluation. -/
theorem forall_mem_of_all {p : UInt8 → Prop} [DecidablePred p] {t : Bytes} (h : (t.all fun c => decide (p c)) = true) :
    ∀ c ∈ t, p c := fun c hc => of_decide_eq_true (List.all_eq_true.mp h c hc)

theorem sameFold_iff {a b : Bytes} : sameFold a b = true ↔ fold a = fold b := decide_eq_true_iff

/-! ## Lines -/

/-- A line with its line feed in front of a text. -/
theorem textLines_line {line : Bytes} (hline : lf ∉ line) (t : Bytes) :
    textLines (line ++ lf :: t) = line :: textLines t := by
  induction line with
  | nil => rfl
  | cons c line ih =>
      rw [List.mem_cons, not_or] at hline
      have hc : c ≠ lf := fun he => hline.1 he.symm
      rw [List.cons_append, textLines, if_neg hc, ih hline.2]

theorem lf_not_mem_textLines {t line : Bytes} (h : line ∈ textLines t) : lf ∉ line := by
  induction t generalizing line with
  | nil => cases h
  | cons c t ih =>
      unfold textLines at h
      split at h
      · rcases List.mem_cons.mp h with rfl | hmore
        · exact List.not_mem_nil
        · exact ih hmore
      · rename_i hc
        split at h
        · rw [List.mem_singleton] at h
          subst h
          exact fun hm => hc (List.mem_singleton.mp hm).symm
        · rename_i first more htail
          rw [htail] at ih
          rcases List.mem_cons.mp h with rfl | hmore
          · intro hm
            rcases List.mem_cons.mp hm with heq | hfirst
            · exact hc heq.symm
            · exact ih List.mem_cons_self hfirst
          · exact ih (List.mem_cons_of_mem _ hmore)

/-!
## Header fields of a request (`native_net.c`)

Which methods, URLs and header texts are accepted, which lines are reserved, and what is left of a header text when the
credentials are taken out.
-/

/-- `http_token_char`; `strchr` finds the zero byte too. -/
def httpTokenChar (c : UInt8) : Bool :=
  (97 ≤ c ∧ c ≤ 122) ∨ (65 ≤ c ∧ c ≤ 90) ∨ (48 ≤ c ∧ c ≤ 57) ∨ c ∈ ascii "!#$%&'*+-.^_`|~" ∨ c = 0

/-- `header_name_equals`. -/
def headerNameEquals (line name : Bytes) : Bool := sameFold line name

/-- `reserved_request_header`. -/
def reservedRequestHeader (line : Bytes) : Bool :=
  match splitColon line with
  | none => false
  | some (name, _) =>
      headerNameEquals name (ascii "host") || headerNameEquals name (ascii "content-length") ||
        headerNameEquals name (ascii "transfer-encoding") || headerNameEquals name (ascii "connection") ||
          headerNameEquals name (ascii "proxy-connection")

/-- `valid_http_method`. -/
def validHttpMethod (method : Bytes) : Bool := method ≠ [] ∧ method.all httpTokenChar

/-- `valid_http_url_chars`. -/
def validHttpUrlChars (url : Bytes) : Bool := url ≠ [] ∧ url.all fun c => ¬(c ≤ 0x20 ∨ c = 0x7f)

/-- A byte of a field value. -/
def fieldValueChar (c : UInt8) : Bool := ¬((c < 0x20 ∧ c ≠ tab) ∨ c = 0x7f)

/-- One line of a header text or of a trailer: a name that is a token, a colon, a value. -/
def validFieldLine (line : Bytes) : Bool :=
  match splitColon line with
  | none => false
  | some (name, value) => name ≠ [] ∧ name.all httpTokenChar ∧ value.all fieldValueChar

/-- `valid_request_headers`. -/
def validRequestHeaders (headers : Bytes) : Bool := (textLines headers).all fun line => validFieldLine (dropCr line)

/-- `has_request_header`. -/
def hasRequestHeader (headers name : Bytes) : Bool :=
  (textLines headers).any fun line =>
    match splitColon (dropCr line) with
    | none => false
    | some (found, _) => headerNameEquals found name

/-- A line that `headers_without_credentials` leaves out. -/
def sensitive (line : Bytes) : Bool :=
  startsFold line (ascii "Authorization:") || startsFold line (ascii "Proxy-Authorization") ||
    startsFold line (ascii "Cookie:")

/-- `headers_without_credentials`. -/
def headersWithoutCredentials (headers : Bytes) : Bytes :=
  (textLines headers).flatMap fun line =>
    if sensitive (dropCrs line) = false ∧ dropCrs line ≠ [] then dropCrs line ++ [lf] else []

end Vnt.Net
