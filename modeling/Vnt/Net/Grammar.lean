import Vnt.Net.Request

/-!
# `Vnt.Net.Grammar`: the HTTP/1.1 request grammar

A server's view of the bytes on a connection, with no reference to the client: a request line, field lines each ended
by CRLF, an empty line, and as many bytes of body as the `Content-Length` field says. `parseMessage` reads a byte
string that must be exactly one request.
-/

namespace Vnt.Net

/-- A request as the server reads it; a field is kept as its whole line. -/
structure Message where
  method : Bytes
  target : Bytes
  fields : List Bytes
  body : Bytes
  deriving DecidableEq

/-- `tchar`. -/
def tchar (c : UInt8) : Bool := httpTokenChar c ∧ c ≠ 0

/-- A byte of a request target: no space and no control. -/
def targetChar (c : UInt8) : Bool := ¬(c ≤ 0x20 ∨ c = 0x7f)

/-- The name of a field line. -/
def fieldName (line : Bytes) : Bytes := ((splitColon line).map Prod.fst).getD []

/-- The value of a field line, without the white space around it. -/
def fieldValue (line : Bytes) : Bytes :=
  ((((splitColon line).map Prod.snd).getD []).dropWhile fun c => c = space ∨ c = tab).rdropWhile
    fun c => c = space ∨ c = tab

/-- A field line: a token, a colon, a value without controls. -/
def fieldLine (line : Bytes) : Bool :=
  match splitColon line with
  | none => false
  | some (name, value) => name ≠ [] ∧ name.all tchar ∧ value.all fieldValueChar

/-- The bytes before the first CRLF, and those behind it. -/
def splitCrlf : Bytes → Option (Bytes × Bytes)
  | [] => none
  | c :: rest =>
      match rest with
      | d :: more => if c = cr ∧ d = lf then some ([], more) else (splitCrlf rest).map fun r => (c :: r.1, r.2)
      | [] => none

/-- The bytes before the first space, and those behind it. -/
def splitSpace : Bytes → Option (Bytes × Bytes)
  | [] => none
  | c :: rest => if c = space then some ([], rest) else (splitSpace rest).map fun r => (c :: r.1, r.2)

/-- A request line. -/
def parseRequestLine (line : Bytes) : Option (Bytes × Bytes) := do
  let (method, rest) ← splitSpace line
  let (target, version) ← splitSpace rest
  if method ≠ [] ∧ method.all tchar ∧ target ≠ [] ∧ target.all targetChar ∧ version = ascii "HTTP/1.1" then
    some (method, target)
  else none

/-- Field lines up to the empty line. -/
def parseFields : Nat → Bytes → Option (List Bytes × Bytes)
  | 0, _ => none
  | fuel + 1, bytes =>
      match splitCrlf bytes with
      | none => none
      | some (line, rest) =>
          if line = [] then some ([], rest)
          else if fieldLine line then (parseFields fuel rest).map fun r => (line :: r.1, r.2)
          else none

/-- The number a string of digits stands for. -/
def decimalValue (digits : Bytes) : Option Nat :=
  if digits = [] then none
  else digits.foldlM (fun n c => if 48 ≤ c ∧ c ≤ 57 then some (10 * n + (c.toNat - 48)) else none) 0

def isField (name : String) (line : Bytes) : Bool := sameFold (fieldName line) (ascii name)

/-- The length of the body that the fields announce. -/
def bodyLength (fields : List Bytes) : Option Nat :=
  if fields.any (isField "transfer-encoding") then none
  else
    match fields.filter (isField "content-length") with
    | [] => some 0
    | [line] => decimalValue (fieldValue line)
    | _ => none

/-- The bytes of exactly one request. -/
def parseMessage (bytes : Bytes) : Option Message := do
  let (line, rest) ← splitCrlf bytes
  let (method, target) ← parseRequestLine line
  let (fields, body) ← parseFields (rest.length + 1) rest
  let length ← bodyLength fields
  if body.length = length then some ⟨method, target, fields, body⟩ else none

/-- The bytes of a request. -/
def Message.render (m : Message) : Bytes :=
  m.method ++ ascii " " ++ m.target ++ ascii " HTTP/1.1" ++ crlf ++ m.fields.flatMap (· ++ crlf) ++ crlf ++ m.body

/-! ## What the parser reads is what is rendered -/

variable {bytes line rest : Bytes}

theorem splitCrlf_some : ∀ {bytes line rest : Bytes}, splitCrlf bytes = some (line, rest) → bytes = line ++ crlf ++ rest
  | [], _, _, h => nomatch h
  | [_], _, _, h => nomatch h
  | c :: d :: more, line, rest, h => by
      rw [splitCrlf] at h
      split at h
      · rename_i hend
        cases h
        rw [hend.1, hend.2]
        rfl
      · obtain ⟨r, hr, heq⟩ := Option.map_eq_some_iff.mp h
        cases heq
        rw [splitCrlf_some hr]
        rfl

theorem splitCrlf_line {line : Bytes} (hline : lf ∉ line) (rest : Bytes) : splitCrlf (line ++ crlf ++ rest) = some (line, rest) := by
  induction line with
  | nil => rfl
  | cons c line ih =>
      rw [List.mem_cons, not_or] at hline
      obtain ⟨d, more, hmore⟩ : ∃ d more, line ++ crlf ++ rest = d :: more := by
        cases line with
        | nil => exact ⟨cr, lf :: rest, rfl⟩
        | cons d line => exact ⟨d, line ++ crlf ++ rest, rfl⟩
      have hd : ¬(c = cr ∧ d = lf) := by
        rintro ⟨-, rfl⟩
        cases line with
        | nil => exact absurd (List.head_eq_of_cons_eq hmore) (by decide)
        | cons d' line =>
            have hhead : d' = lf := List.head_eq_of_cons_eq hmore
            exact hline.2 (hhead ▸ List.mem_cons_self)
      show splitCrlf (c :: (line ++ crlf ++ rest)) = _
      rw [hmore, splitCrlf, if_neg hd, ← hmore, ih hline.2]
      rfl

theorem splitSpace_some : ∀ {bytes line rest : Bytes}, splitSpace bytes = some (line, rest) →
    bytes = line ++ space :: rest ∧ space ∉ line
  | [], _, _, h => nomatch h
  | c :: more, line, rest, h => by
      rw [splitSpace] at h
      split at h
      · rename_i hc
        cases h
        exact ⟨by rw [hc]; rfl, List.not_mem_nil⟩
      · rename_i hc
        obtain ⟨r, hr, heq⟩ := Option.map_eq_some_iff.mp h
        cases heq
        obtain ⟨hmore, hnone⟩ := splitSpace_some hr
        refine ⟨by rw [hmore]; rfl, fun hmem => ?_⟩
        rcases List.mem_cons.mp hmem with heq | hmem
        · exact hc heq.symm
        · exact hnone hmem

theorem splitSpace_word (hline : space ∉ line) (rest : Bytes) :
    splitSpace (line ++ space :: rest) = some (line, rest) := by
  induction line with
  | nil => rfl
  | cons c line ih =>
      rw [List.mem_cons, not_or] at hline
      rw [List.cons_append, splitSpace, if_neg fun hc => hline.1 hc.symm, ih hline.2]
      rfl

theorem splitColon_some : ∀ {line name value : Bytes}, splitColon line = some (name, value) → line = name ++ colon :: value
  | [], _, _, h => nomatch h
  | c :: more, name, value, h => by
      rw [splitColon] at h
      split at h
      · rename_i hc
        cases h
        rw [hc]
        rfl
      · obtain ⟨r, hr, heq⟩ := Option.map_eq_some_iff.mp h
        cases heq
        rw [splitColon_some hr]
        rfl

/-- A field line has no byte that ends a line. -/
theorem fieldLine_clean (h : fieldLine line = true) : ∀ c ∈ line, c ≠ lf ∧ c ≠ cr := by
  unfold fieldLine at h
  split at h
  · cases h
  rename_i name value hsplit
  obtain ⟨-, hname, hvalue⟩ := of_decide_eq_true h
  intro c hc
  rw [splitColon_some hsplit] at hc
  rcases List.mem_append.mp hc with hc | hc
  · have htchar := List.all_eq_true.mp hname c hc
    constructor
    · rintro rfl
      exact absurd htchar (by decide)
    · rintro rfl
      exact absurd htchar (by decide)
  · rcases List.mem_cons.mp hc with rfl | hc
    · decide
    · have hchar := List.all_eq_true.mp hvalue c hc
      constructor
      · rintro rfl
        exact absurd hchar (by decide)
      · rintro rfl
        exact absurd hchar (by decide)

theorem fieldLine_ne_nil (h : fieldLine line = true) : line ≠ [] := by
  rintro rfl
  cases h

theorem parseFields_some {fuel : Nat} : ∀ {bytes rest : Bytes} {fields : List Bytes},
    parseFields fuel bytes = some (fields, rest) →
    bytes = fields.flatMap (· ++ crlf) ++ crlf ++ rest ∧ ∀ line ∈ fields, fieldLine line = true := by
  induction fuel with
  | zero => intro bytes rest fields h; cases h
  | succ fuel ih =>
      intro bytes rest fields h
      rw [parseFields] at h
      split at h
      · cases h
      rename_i line more hsplit
      have hbytes := splitCrlf_some hsplit
      split at h
      · rename_i hempty
        cases h
        rw [hbytes, hempty]
        exact ⟨rfl, nofun⟩
      split at h
      · rename_i hfield
        obtain ⟨r, hr, heq⟩ := Option.map_eq_some_iff.mp h
        cases heq
        obtain ⟨hmore, hall⟩ := ih hr
        refine ⟨?_, ?_⟩
        · rw [hbytes, hmore]
          simp [List.append_assoc]
        · intro l hl
          rcases List.mem_cons.mp hl with rfl | hl
          · exact hfield
          · exact hall l hl
      · cases h

theorem parseFields_render {fuel : Nat} : ∀ {fields : List Bytes} (rest : Bytes),
    (∀ line ∈ fields, fieldLine line = true) → fields.length < fuel →
    parseFields fuel (fields.flatMap (· ++ crlf) ++ crlf ++ rest) = some (fields, rest) := by
  induction fuel with
  | zero => intro fields rest _ h; omega
  | succ fuel ih =>
      intro fields rest hfields hfuel
      cases fields with
      | nil =>
          have hsplit := splitCrlf_line (List.not_mem_nil : lf ∉ []) rest
          show parseFields (fuel + 1) ([] ++ crlf ++ rest) = _
          rw [parseFields, hsplit]
          rfl
      | cons line fields =>
          have hline := hfields line List.mem_cons_self
          have hrest := ih rest (fun l hl => hfields l (List.mem_cons_of_mem _ hl)) (by
            rw [List.length_cons] at hfuel
            omega)
          have hclean : lf ∉ line := fun hmem => (fieldLine_clean hline lf hmem).1 rfl
          have hsplit := splitCrlf_line hclean
            (fields.flatMap (· ++ crlf) ++ crlf ++ rest)
          have hbytes : (line :: fields).flatMap (· ++ crlf) ++ crlf ++ rest =
              line ++ crlf ++ (fields.flatMap (· ++ crlf) ++ crlf ++ rest) := by
            simp [List.append_assoc]
          rw [hbytes, parseFields, hsplit]
          simp only
          rw [if_neg (fieldLine_ne_nil hline), if_pos hline, hrest]
          rfl

/-- **The grammar is unambiguous**: what is read is the message that was rendered. -/
theorem parseMessage_some {m : Message} (h : parseMessage bytes = some m) :
    bytes = m.render ∧ m.method ≠ [] ∧ m.method.all tchar = true := by
  unfold parseMessage at h
  obtain ⟨⟨line, rest⟩, hline, h⟩ := Option.bind_eq_some_iff.mp h
  obtain ⟨⟨method, target⟩, hrequest, h⟩ := Option.bind_eq_some_iff.mp h
  obtain ⟨⟨fields, body⟩, hfields, h⟩ := Option.bind_eq_some_iff.mp h
  obtain ⟨length, hlength, h⟩ := Option.bind_eq_some_iff.mp h
  obtain ⟨-, heq⟩ := Option.ite_none_right_eq_some.mp h
  cases heq
  unfold parseRequestLine at hrequest
  obtain ⟨⟨word, more⟩, hword, hrequest⟩ := Option.bind_eq_some_iff.mp hrequest
  obtain ⟨⟨word', version⟩, hword', hrequest⟩ := Option.bind_eq_some_iff.mp hrequest
  obtain ⟨hchecks, heq⟩ := Option.ite_none_right_eq_some.mp hrequest
  cases heq
  refine ⟨?_, hchecks.1, hchecks.2.1⟩
  rw [splitCrlf_some hline, (splitSpace_some hword).1, (splitSpace_some hword').1, (parseFields_some hfields).1,
    hchecks.2.2.2.2]
  simp [Message.render, ascii, space, List.append_assoc]

/-- What makes a message one that the grammar reads. -/
structure Message.WellFormed (m : Message) : Prop where
  method : m.method ≠ [] ∧ m.method.all tchar = true
  target : m.target ≠ [] ∧ m.target.all targetChar = true
  fields : ∀ line ∈ m.fields, fieldLine line = true
  body : bodyLength m.fields = some m.body.length

theorem length_le_ended (lines : List Bytes) : lines.length ≤ (lines.flatMap (· ++ crlf)).length := by
  induction lines with
  | nil => exact Nat.le_refl _
  | cons line lines ih =>
      rw [List.flatMap_cons, List.length_append, List.length_append, List.length_cons]
      have hcrlf : crlf.length = 2 := rfl
      omega

/-- **A well-formed message is read back.** -/
theorem parseMessage_render {m : Message} (h : m.WellFormed) : parseMessage m.render = some m := by
  have hmethod : space ∉ m.method := fun hmem => absurd (List.all_eq_true.mp h.method.2 space hmem) (by decide)
  have htarget : space ∉ m.target := fun hmem => absurd (List.all_eq_true.mp h.target.2 space hmem) (by decide)
  have hline : lf ∉ m.method ++ space :: (m.target ++ space :: ascii "HTTP/1.1") := by
    intro hmem
    rcases List.mem_append.mp hmem with hmem | hmem
    · exact absurd (List.all_eq_true.mp h.method.2 lf hmem) (by decide)
    rcases List.mem_cons.mp hmem with heq | hmem
    · exact absurd heq (by decide)
    rcases List.mem_append.mp hmem with hmem | hmem
    · exact absurd (List.all_eq_true.mp h.target.2 lf hmem) (by decide)
    · exact absurd hmem (by decide)
  have hrender : m.render = (m.method ++ space :: (m.target ++ space :: ascii "HTTP/1.1")) ++ crlf ++
      (m.fields.flatMap (· ++ crlf) ++ crlf ++ m.body) := by
    simp [Message.render, ascii, space, List.append_assoc]
  have hrequest : parseRequestLine (m.method ++ space :: (m.target ++ space :: ascii "HTTP/1.1")) =
      some (m.method, m.target) := by
    rw [parseRequestLine, splitSpace_word hmethod]
    show (splitSpace _).bind _ = _
    rw [splitSpace_word htarget]
    exact if_pos ⟨h.method.1, h.method.2, h.target.1, h.target.2, rfl⟩
  have hfuel : m.fields.length < (m.fields.flatMap (· ++ crlf) ++ crlf ++ m.body).length + 1 := by
    have hle : m.fields.length ≤ (m.fields.flatMap (· ++ crlf)).length := length_le_ended m.fields
    rw [List.length_append, List.length_append]
    omega
  rw [parseMessage, hrender, splitCrlf_line hline]
  show (parseRequestLine _).bind _ = _
  rw [hrequest]
  show (parseFields _ _).bind _ = _
  rw [parseFields_render m.body h.fields hfuel]
  show (bodyLength m.fields).bind _ = _
  rw [h.body]
  exact if_pos rfl

end Vnt.Net
