import Mathlib.Data.List.Forall2
import Vnt.Front.Ast
import Vnt.Lib.Prog
import Vnt.Net.Request

/-!
# `Vnt.Runtime.Equality`: `==` and `!=` on run-time values (`native_runtime.c`)

`equal_value` is a recursion over the heap, which may be cyclic. Here it runs on a clock, so that a recursion without an
end is one that no clock is enough for. A null has two forms: the C null pointer that the backend emits for the literal,
and a cell tagged `VNT_NULL` that the library returns for a missing field.

What `==` is for is the equality of the trees (`Shape`) that values stand for. The values that stand for one are the
`Plain` ones, and on these `equal_value` is that equality.
-/

namespace Vnt.Runtime

open Lib (bind_eq_ok)
open Net (Bytes)

/-! ## The heap -/

inductive VntType where
  | null
  | int
  | float
  | bool
  | string
  | array
  | bytes
  | object
  | process
  | reference
  | pointer
  deriving DecidableEq, Repr

/-- A `VntValue *`: the C null pointer, or the address of a cell. -/
abbrev Pointer := Option Nat

/-- A `VntValue`: its tag, and of the union what `equal_value` and `vnt_object_get` read. -/
inductive VntValue where
  | null
  | int (integer : Int64)
  | float (floating : Double)
  | bool (boolean : Bool)
  | string (text : Bytes)
  | array (items : List Pointer)
  | bytes (data : Bytes)
  | object (fields : List (String × Pointer))
  | process
  | reference
  | pointer
  deriving DecidableEq, Repr

def VntValue.type : VntValue → VntType
  | .null => .null
  | .int _ => .int
  | .float _ => .float
  | .bool _ => .bool
  | .string _ => .string
  | .array _ => .array
  | .bytes _ => .bytes
  | .object _ => .object
  | .process => .process
  | .reference => .reference
  | .pointer => .pointer

/-- The cells `alloc_value` has handed out; none is ever freed. -/
abbrev Heap := List VntValue

/-- Why a comparison does not return. -/
inductive Crash where
  | segmentationFault
  | outOfClock
  deriving DecidableEq, Repr

/-- The cell behind a pointer; there is none behind the null pointer. -/
def Heap.deref (h : Heap) (p : Pointer) : Except Crash VntValue :=
  match p.bind fun address => h[address]? with
  | some cell => .ok cell
  | none => .error .segmentationFault

/-- `VNT_IR_NULL` of `emit_expr`: `xorq %rax,%rax`. -/
def nullLiteral : Pointer := none

/-- `alloc_value`. -/
def allocValue (h : Heap) (cell : VntValue) : Pointer × Heap := (some h.length, h ++ [cell])

/-- `vnt_null`. -/
def vntNull (h : Heap) : Pointer × Heap := allocValue h .null

/-- `vnt_object_get` on an object. -/
def vntObjectGet (h : Heap) (fields : List (String × Pointer)) (key : String) : Pointer × Heap :=
  match fields.lookup key with
  | some value => (value, h)
  | none => vntNull h

/-! ## `equal_value` -/

/-- What C says about doubles: `==`, and the conversion `(double)`. -/
structure Numbers where
  eq : Double → Double → Bool
  ofInt : Int64 → Double

/-- `number_value`, of a number. -/
def Numbers.numberValue (numbers : Numbers) : VntValue → Option Double
  | .float x => some x
  | .int x => some (numbers.ofInt x)
  | _ => none

/-- The branch of `equal_value` for two tags that differ. -/
def mixedEqual (numbers : Numbers) (v w : VntValue) : Bool :=
  match numbers.numberValue v, numbers.numberValue w with
  | some x, some y => numbers.eq x y
  | _, _ => false

/-- The loop over the items of two arrays of one length. -/
def equalItems (equal : Pointer → Pointer → Except Crash Bool) : List Pointer → List Pointer → Except Crash Bool
  | p :: ps, q :: qs => do
      if ← equal p q then equalItems equal ps qs else pure false
  | _, _ => pure true

/-- `equal_value` behind its two loads. `equal` is the recursive call. -/
def equalCells (numbers : Numbers) (equal : Pointer → Pointer → Except Crash Bool) (a b : Pointer) (v w : VntValue) :
    Except Crash Bool :=
  if v.type ≠ w.type then pure (mixedEqual numbers v w)
  else
    match v, w with
    | .null, .null => pure true
    | .int x, .int y => pure (x == y)
    | .float x, .float y => pure (numbers.eq x y)
    | .bool x, .bool y => pure (x == y)
    | .string x, .string y => pure (x == y)
    | .bytes x, .bytes y => pure (x.length == y.length && (x.length == 0 || x == y))
    | .array x, .array y => if x.length ≠ y.length then pure false else equalItems equal x y
    | .object _, .object _ => pure (a == b)
    | .process, .process => pure (a == b)
    -- `VNT_REFERENCE` and `VNT_POINTER` have no case in the switch.
    | _, _ => pure false

/-- `equal_value`. -/
def equalValue (numbers : Numbers) (h : Heap) : Nat → Pointer → Pointer → Except Crash Bool
  | 0, _, _ => throw .outOfClock
  | clock + 1, a, b => do
      let v ← h.deref a
      let w ← h.deref b
      equalCells numbers (equalValue numbers h clock) a b v w

/-- `vnt_eq`. -/
def vntEq (numbers : Numbers) (h : Heap) (clock : Nat) (a b : Pointer) : Except Crash Bool :=
  equalValue numbers h clock a b

/-- `vnt_ne`. -/
def vntNe (numbers : Numbers) (h : Heap) (clock : Nat) (a b : Pointer) : Except Crash Bool := do
  let equal ← equalValue numbers h clock a b
  pure (!equal)

/-- The comparison comes to its end, with this result. -/
def Decides (run : Nat → Except Crash Bool) (result : Bool) : Prop := ∃ clock, run clock = .ok result

/-! ## What `==` is for -/

/-- What a value stands for. Objects and processes stand for themselves. -/
inductive Shape where
  | null
  | int (integer : Int64)
  | bool (boolean : Bool)
  | string (text : Bytes)
  | bytes (data : Bytes)
  | array (items : List Shape)
  | object (address : Nat)
  | process (address : Nat)

/-- `StandsFor h p s`: the value at `p` stands for the finite tree `s`. -/
inductive StandsFor (h : Heap) : Pointer → Shape → Prop where
  | null {p : Pointer} : h.deref p = .ok .null → StandsFor h p .null
  | int {p : Pointer} {x : Int64} : h.deref p = .ok (.int x) → StandsFor h p (.int x)
  | bool {p : Pointer} {x : Bool} : h.deref p = .ok (.bool x) → StandsFor h p (.bool x)
  | string {p : Pointer} {x : Bytes} : h.deref p = .ok (.string x) → StandsFor h p (.string x)
  | bytes {p : Pointer} {x : Bytes} : h.deref p = .ok (.bytes x) → StandsFor h p (.bytes x)
  | object {a : Nat} {fields : List (String × Pointer)} : h.deref (some a) = .ok (.object fields) →
      StandsFor h (some a) (.object a)
  | process {a : Nat} : h.deref (some a) = .ok .process → StandsFor h (some a) (.process a)
  | array {p : Pointer} {items : List Pointer} {shapes : List Shape} : h.deref p = .ok (.array items) →
      items.length = shapes.length → (∀ q s, (q, s) ∈ items.zip shapes → StandsFor h q s) →
      StandsFor h p (.array shapes)

/-- A value made of tagged nulls, integers, booleans, texts, byte buffers, objects, processes, and arrays of such values
    that do not contain themselves. -/
inductive Plain (h : Heap) : Pointer → Prop where
  | null {p : Pointer} : h.deref p = .ok .null → Plain h p
  | int {p : Pointer} {x : Int64} : h.deref p = .ok (.int x) → Plain h p
  | bool {p : Pointer} {x : Bool} : h.deref p = .ok (.bool x) → Plain h p
  | string {p : Pointer} {x : Bytes} : h.deref p = .ok (.string x) → Plain h p
  | bytes {p : Pointer} {x : Bytes} : h.deref p = .ok (.bytes x) → Plain h p
  | object {p : Pointer} {fields : List (String × Pointer)} : h.deref p = .ok (.object fields) → Plain h p
  | process {p : Pointer} : h.deref p = .ok .process → Plain h p
  | array {p : Pointer} {items : List Pointer} : h.deref p = .ok (.array items) → (∀ q ∈ items, Plain h q) → Plain h p

/-- Both forms of a null. -/
def Heap.IsNull (h : Heap) (p : Pointer) : Prop := p = nullLiteral ∨ h.deref p = .ok .null

/-- Equality is a total equivalence on the values of `S`, with one class for the nulls and with `!=` as its negation. -/
structure EqualityOn (numbers : Numbers) (h : Heap) (S : Pointer → Prop) : Prop where
  total {a b : Pointer} : S a → S b → ∃ r, Decides (vntEq numbers h · a b) r
  refl {a : Pointer} : S a → Decides (vntEq numbers h · a a) true
  symm {a b : Pointer} {r : Bool} : S a → S b → Decides (vntEq numbers h · a b) r → Decides (vntEq numbers h · b a) r
  trans {a b c : Pointer} : S a → S b → S c → Decides (vntEq numbers h · a b) true →
    Decides (vntEq numbers h · b c) true → Decides (vntEq numbers h · a c) true
  nulls {a b : Pointer} : S a → S b → h.IsNull a → h.IsNull b → Decides (vntEq numbers h · a b) true
  negation {a b : Pointer} {r : Bool} : S a → S b → (Decides (vntNe numbers h · a b) (!r) ↔ Decides (vntEq numbers h · a b) r)

/-- No cell holds a float. -/
def Heap.FloatFree (h : Heap) : Prop := ∀ cell ∈ h, ∀ x, cell ≠ .float x

variable {numbers : Numbers} {h : Heap} {a b p q : Pointer} {v w : VntValue} {clock : Nat} {r : Bool} {s t : Shape}

/-! ## A longer clock -/

theorem equalItems_mono {equal equal' : Pointer → Pointer → Except Crash Bool}
    (hmore : ∀ p q r, equal p q = .ok r → equal' p q = .ok r) :
    ∀ {ps qs : List Pointer}, equalItems equal ps qs = .ok r → equalItems equal' ps qs = .ok r
  | [], _, hr => hr
  | _ :: _, [], hr => hr
  | p :: ps, q :: qs, hr => by
      rw [equalItems, bind_eq_ok] at hr
      obtain ⟨same, hsame, hr⟩ := hr
      rw [equalItems, hmore p q same hsame]
      cases same with
      | false => exact hr
      | true => exact equalItems_mono hmore hr

theorem equalCells_mono {equal equal' : Pointer → Pointer → Except Crash Bool}
    (hmore : ∀ p q r, equal p q = .ok r → equal' p q = .ok r) (hr : equalCells numbers equal a b v w = .ok r) :
    equalCells numbers equal' a b v w = .ok r := by
  cases v with
  | array x =>
      cases w with
      | array y =>
          -- Two arrays: the only branch with a recursive call.
          change (if x.length ≠ y.length then pure false else equalItems equal x y) = _ at hr
          show (if x.length ≠ y.length then pure false else equalItems equal' x y) = _
          split at hr
          · rename_i hlength
            rw [if_pos hlength]
            exact hr
          · rename_i hlength
            rw [if_neg hlength]
            exact equalItems_mono hmore hr
      | _ => exact hr
  | _ => cases w <;> exact hr

theorem equalValue_succ (hr : equalValue numbers h clock a b = .ok r) : equalValue numbers h (clock + 1) a b = .ok r := by
  induction clock generalizing a b r with
  | zero => cases hr
  | succ clock ih =>
      rw [equalValue, bind_eq_ok] at hr
      obtain ⟨v, hv, hr⟩ := hr
      rw [bind_eq_ok] at hr
      obtain ⟨w, hw, hr⟩ := hr
      have hmore := equalCells_mono (fun _ _ _ => ih) hr
      rw [equalValue, hv, hw]
      exact hmore

/-- A comparison that has come to its end does so on every longer clock. -/
theorem equalValue_mono {clock' : Nat} (hle : clock ≤ clock') (hr : equalValue numbers h clock a b = .ok r) :
    equalValue numbers h clock' a b = .ok r := by
  induction hle with
  | refl => exact hr
  | step _ ih => exact equalValue_succ ih

theorem decides_unique {r' : Bool} (hr : Decides (equalValue numbers h · a b) r)
    (hr' : Decides (equalValue numbers h · a b) r') : r = r' := by
  obtain ⟨clock, hr⟩ := hr
  obtain ⟨clock', hr'⟩ := hr'
  have hmax := equalValue_mono (Nat.le_max_left clock clock') hr
  have hmax' := equalValue_mono (Nat.le_max_right clock clock') hr'
  rw [hmax] at hmax'
  cases hmax'
  rfl

/-- What the two cells decide at once is what the comparison returns. -/
theorem decides_of_cells (clock : Nat) (ha : h.deref a = .ok v) (hb : h.deref b = .ok w)
    (hr : equalCells numbers (equalValue numbers h clock) a b v w = .ok r) : Decides (equalValue numbers h · a b) r := by
  refine ⟨clock + 1, ?_⟩
  show equalValue numbers h (clock + 1) a b = _
  rw [equalValue, ha, hb]
  exact hr

/-! ## On values that stand for a tree -/

/-- There is nothing to compare behind a null pointer. -/
theorem not_decides_null (hnull : a = none ∨ b = none) : ¬Decides (equalValue numbers h · a b) r := by
  rintro ⟨clock, hr⟩
  cases clock with
  | zero => cases hr
  | succ clock =>
      change equalValue numbers h (clock + 1) a b = _ at hr
      rw [equalValue, bind_eq_ok] at hr
      obtain ⟨v, hv, hr⟩ := hr
      rw [bind_eq_ok] at hr
      obtain ⟨w, hw, -⟩ := hr
      rcases hnull with rfl | rfl
      · cases hv
      · cases hw

def Shape.type : Shape → VntType
  | .null => .null
  | .int _ => .int
  | .bool _ => .bool
  | .string _ => .string
  | .bytes _ => .bytes
  | .array _ => .array
  | .object _ => .object
  | .process _ => .process

theorem Shape.type_ne_float (s : Shape) : s.type ≠ .float := by cases s <;> exact nofun

theorem StandsFor.cell (h' : StandsFor h p s) : ∃ v, h.deref p = .ok v ∧ v.type = s.type := by
  cases h' with
  | null hv => exact ⟨_, hv, rfl⟩
  | int hv => exact ⟨_, hv, rfl⟩
  | bool hv => exact ⟨_, hv, rfl⟩
  | string hv => exact ⟨_, hv, rfl⟩
  | bytes hv => exact ⟨_, hv, rfl⟩
  | object hv => exact ⟨_, hv, rfl⟩
  | process hv => exact ⟨_, hv, rfl⟩
  | array hv _ _ => exact ⟨_, hv, rfl⟩

theorem numberValue_isSome (hfloat : v.type ≠ .float) (hsome : (numbers.numberValue v).isSome) : v.type = .int := by
  cases v with
  | int => rfl
  | float => exact absurd rfl hfloat
  | _ => cases hsome

/-- Without floats two cells of different tags are not equal. -/
theorem mixedEqual_false (hv : v.type ≠ .float) (hw : w.type ≠ .float) (htypes : v.type ≠ w.type) :
    mixedEqual numbers v w = false := by
  unfold mixedEqual
  split
  · rename_i x y hx hy
    have hint := numberValue_isSome hv (Option.isSome_iff_exists.mpr ⟨x, hx⟩)
    have hint' := numberValue_isSome hw (Option.isSome_iff_exists.mpr ⟨y, hy⟩)
    rw [hint, hint'] at htypes
    exact absurd rfl htypes
  · rfl

/-- The items of two arrays of one length, if the comparison is right for those of the first. -/
theorem equalItems_decides {ps qs : List Pointer} {ss ts : List Shape}
    (hps : List.Forall₂ (fun p s => ∀ {q t}, StandsFor h q t → ∃ r, (r = true ↔ s = t) ∧
      Decides (equalValue numbers h · p q) r) ps ss)
    (hqs : List.Forall₂ (StandsFor h) qs ts) (hlength : ps.length = qs.length) :
    ∃ clock r, (r = true ↔ ss = ts) ∧ equalItems (equalValue numbers h clock) ps qs = .ok r := by
  induction hps generalizing qs ts with
  | nil =>
      cases hqs with
      | nil => exact ⟨0, true, ⟨fun _ => rfl, fun _ => rfl⟩, rfl⟩
      | cons => cases hlength
  | @cons p s ps ss hp _ ih =>
      cases hqs with
      | nil => cases hlength
      | @cons q t qs ts hq hqs =>
          obtain ⟨r, hr, clock, hrun⟩ := hp hq
          obtain ⟨clock', r', hr', hrun'⟩ := ih hqs (Nat.succ.inj hlength)
          cases r with
          | false =>
              refine ⟨clock, false, ⟨fun hno => absurd hno Bool.false_ne_true, ?_⟩, ?_⟩
              · intro heq
                cases heq
                exact absurd (hr.mpr rfl) Bool.false_ne_true
              · rw [equalItems]
                change equalValue numbers h clock p q = _ at hrun
                rw [hrun]
                rfl
          | true =>
              have hhead := equalValue_mono (Nat.le_max_left clock clock') hrun
              have htail := equalItems_mono (fun _ _ _ => equalValue_mono (Nat.le_max_right clock clock')) hrun'
              refine ⟨max clock clock', r', ?_, ?_⟩
              · rw [hr', hr.mp rfl, List.cons.injEq]
                exact ⟨fun heq => ⟨rfl, heq⟩, fun heq => heq.2⟩
              · rw [equalItems, hhead]
                exact htail

theorem bytesEqual_iff {x y : Bytes} : (x.length == y.length && (x.length == 0 || x == y)) = true ↔ x = y := by
  rw [Bool.and_eq_true, Bool.or_eq_true, beq_iff_eq, beq_iff_eq, beq_iff_eq]
  constructor
  · rintro ⟨hlength, hempty | heq⟩
    · rw [List.length_eq_zero_iff.mp hempty, List.length_eq_zero_iff.mp (hlength.symm.trans hempty)]
    · exact heq
  · rintro rfl
    exact ⟨rfl, Or.inr rfl⟩

/-- Values of different kinds are not equal. -/
theorem decides_differing (ha : StandsFor h a s) (hb : StandsFor h b t) (htypes : s.type ≠ t.type) :
    ∃ r, (r = true ↔ s = t) ∧ Decides (equalValue numbers h · a b) r := by
  obtain ⟨v, hv, hvtype⟩ := ha.cell
  obtain ⟨w, hw, hwtype⟩ := hb.cell
  have hdiffer : v.type ≠ w.type := by
    rw [hvtype, hwtype]
    exact htypes
  refine ⟨false, ⟨fun hno => absurd hno Bool.false_ne_true, ?_⟩, decides_of_cells 0 hv hw ?_⟩
  · rintro rfl
    exact absurd rfl htypes
  · unfold equalCells
    rw [if_pos hdiffer, mixedEqual_false (hvtype ▸ s.type_ne_float) (hwtype ▸ t.type_ne_float) hdiffer]
    rfl

/-- `equal_value` is the equality of what two values stand for. -/
theorem StandsFor.decides (ha : StandsFor h a s) (hb : StandsFor h b t) :
    ∃ r, (r = true ↔ s = t) ∧ Decides (equalValue numbers h · a b) r := by
  induction ha generalizing b t with
  | null hv =>
      by_cases htypes : VntType.null = t.type
      · cases hb with
        | null hw => exact ⟨true, ⟨fun _ => rfl, fun _ => rfl⟩, decides_of_cells 0 hv hw rfl⟩
        | _ => cases htypes
      · exact decides_differing (.null hv) hb htypes
  | @int p x hv =>
      by_cases htypes : VntType.int = t.type
      · cases hb with
        | @int q y hw =>
            refine ⟨x == y, ?_, decides_of_cells 0 hv hw rfl⟩
            rw [beq_iff_eq, Shape.int.injEq]
        | _ => cases htypes
      · exact decides_differing (.int hv) hb htypes
  | @bool p x hv =>
      by_cases htypes : VntType.bool = t.type
      · cases hb with
        | @bool q y hw =>
            refine ⟨x == y, ?_, decides_of_cells 0 hv hw rfl⟩
            rw [beq_iff_eq, Shape.bool.injEq]
        | _ => cases htypes
      · exact decides_differing (.bool hv) hb htypes
  | @string p x hv =>
      by_cases htypes : VntType.string = t.type
      · cases hb with
        | @string q y hw =>
            refine ⟨x == y, ?_, decides_of_cells 0 hv hw rfl⟩
            rw [beq_iff_eq, Shape.string.injEq]
        | _ => cases htypes
      · exact decides_differing (.string hv) hb htypes
  | @bytes p x hv =>
      by_cases htypes : VntType.bytes = t.type
      · cases hb with
        | @bytes q y hw =>
            refine ⟨x.length == y.length && (x.length == 0 || x == y), ?_, decides_of_cells 0 hv hw rfl⟩
            rw [bytesEqual_iff, Shape.bytes.injEq]
        | _ => cases htypes
      · exact decides_differing (.bytes hv) hb htypes
  | @object p fields hv =>
      by_cases htypes : VntType.object = t.type
      · cases hb with
        | @object q fields' hw =>
            refine ⟨some p == some q, ?_, decides_of_cells 0 hv hw rfl⟩
            rw [beq_iff_eq, Option.some.injEq, Shape.object.injEq]
        | _ => cases htypes
      · exact decides_differing (.object hv) hb htypes
  | @process p hv =>
      by_cases htypes : VntType.process = t.type
      · cases hb with
        | @process q hw =>
            refine ⟨some p == some q, ?_, decides_of_cells 0 hv hw rfl⟩
            rw [beq_iff_eq, Option.some.injEq, Shape.process.injEq]
        | _ => cases htypes
      · exact decides_differing (.process hv) hb htypes
  | @array p items shapes hv hlength hitems ih =>
      by_cases htypes : VntType.array = t.type
      · cases hb with
        | @array q items' shapes' hw hlength' hitems' =>
            by_cases hcount : items.length = items'.length
            · have hps := List.forall₂_iff_zip.mpr ⟨hlength, fun {p s} hmem => @ih p s hmem⟩
              have hqs := List.forall₂_iff_zip.mpr ⟨hlength', fun {q t} hmem => hitems' q t hmem⟩
              obtain ⟨clock, r, hr, hrun⟩ := equalItems_decides hps hqs hcount
              refine ⟨r, ?_, decides_of_cells clock hv hw ?_⟩
              · rw [hr, Shape.array.injEq]
              · show (if items.length ≠ items'.length then pure false else _) = _
                rw [if_neg (not_not_intro hcount)]
                exact hrun
            · refine ⟨false, ⟨fun hno => absurd hno Bool.false_ne_true, ?_⟩, decides_of_cells 0 hv hw ?_⟩
              · intro heq
                cases heq
                exact absurd (hlength.trans hlength'.symm) hcount
              · show (if items.length ≠ items'.length then pure false else _) = _
                rw [if_pos hcount]
                rfl
        | _ => cases htypes
      · exact decides_differing (.array hv hlength hitems) hb htypes

theorem StandsFor.decides_iff (ha : StandsFor h a s) (hb : StandsFor h b t) :
    Decides (vntEq numbers h · a b) r ↔ (r = true ↔ s = t) := by
  obtain ⟨r', hr', hrun⟩ := @StandsFor.decides numbers h a b s t ha hb
  constructor
  · intro hr
    cases decides_unique hr hrun
    exact hr'
  · intro hr
    have heq : r = r' := Bool.eq_iff_iff.mpr (hr.trans hr'.symm)
    rw [heq]
    exact hrun

theorem vntNe_iff : Decides (vntNe numbers h · a b) (!r) ↔ Decides (vntEq numbers h · a b) r := by
  constructor
  · rintro ⟨clock, hrun⟩
    refine ⟨clock, ?_⟩
    obtain ⟨r', hr', hneg⟩ := bind_eq_ok.mp hrun
    have heq : (!r') = !r := Except.ok.inj hneg
    rw [Bool.not_inj heq] at hr'
    exact hr'
  · rintro ⟨clock, hrun⟩
    refine ⟨clock, ?_⟩
    apply bind_eq_ok.mpr
    exact ⟨r, hrun, rfl⟩

/-! ## Plain values -/

theorem deref_some {h : Heap} {p : Pointer} {v : VntValue} (hv : h.deref p = .ok v) :
    ∃ address, p = some address ∧ v ∈ h := by
  unfold Heap.deref at hv
  split at hv
  · rename_i cell hcell
    cases hv
    obtain ⟨address, rfl, hat⟩ := Option.bind_eq_some_iff.mp hcell
    exact ⟨address, rfl, List.mem_of_getElem? hat⟩
  · cases hv

theorem exists_shapes : ∀ {items : List Pointer}, (∀ q ∈ items, ∃ s, StandsFor h q s) →
    ∃ shapes, List.Forall₂ (StandsFor h) items shapes
  | [], _ => ⟨[], .nil⟩
  | q :: items, hall => by
      obtain ⟨s, hs⟩ := hall q List.mem_cons_self
      obtain ⟨shapes, hshapes⟩ := exists_shapes fun q' hq' => hall q' (List.mem_cons_of_mem q hq')
      exact ⟨s :: shapes, .cons hs hshapes⟩

/-- A plain value stands for a tree. -/
theorem Plain.standsFor (hp : Plain h p) : ∃ s, StandsFor h p s := by
  induction hp with
  | null hv => exact ⟨_, .null hv⟩
  | int hv => exact ⟨_, .int hv⟩
  | bool hv => exact ⟨_, .bool hv⟩
  | string hv => exact ⟨_, .string hv⟩
  | bytes hv => exact ⟨_, .bytes hv⟩
  | object hv =>
      obtain ⟨address, rfl, -⟩ := deref_some hv
      exact ⟨_, .object hv⟩
  | process hv =>
      obtain ⟨address, rfl, -⟩ := deref_some hv
      exact ⟨_, .process hv⟩
  | array hv _ ih =>
      obtain ⟨shapes, hshapes⟩ := exists_shapes ih
      obtain ⟨hlength, hitems⟩ := List.forall₂_iff_zip.mp hshapes
      exact ⟨_, .array hv hlength fun q s hmem => hitems hmem⟩

theorem equalItems_self {equal : Pointer → Pointer → Except Crash Bool} :
    ∀ {items : List Pointer}, equalItems equal items items = .ok true → ∀ q ∈ items, equal q q = .ok true
  | [], _ => nofun
  | p :: items, hrun => by
      rw [equalItems, bind_eq_ok] at hrun
      obtain ⟨same, hsame, hrun⟩ := hrun
      cases same with
      | false => cases hrun
      | true =>
          intro q hq
          rcases List.mem_cons.mp hq with rfl | hq
          · exact hsame
          · exact equalItems_self hrun q hq

/-- Without floats only a plain value is found equal to itself. -/
theorem plain_of_self_equal (hfloats : h.FloatFree) (hrun : equalValue numbers h clock p p = .ok true) : Plain h p := by
  induction clock generalizing p with
  | zero => cases hrun
  | succ clock ih =>
      rw [equalValue, bind_eq_ok] at hrun
      obtain ⟨v, hv, hrun⟩ := hrun
      rw [hv] at hrun
      change equalCells numbers (equalValue numbers h clock) p p v v = _ at hrun
      cases v with
      | null => exact .null hv
      | int => exact .int hv
      | float x =>
          obtain ⟨-, -, hmem⟩ := deref_some hv
          exact absurd rfl (hfloats _ hmem x)
      | bool => exact .bool hv
      | string => exact .string hv
      | bytes => exact .bytes hv
      | object => exact .object hv
      | process => exact .process hv
      | reference => cases hrun
      | pointer => cases hrun
      | array items =>
          change (if items.length ≠ items.length then pure false else _) = _ at hrun
          rw [if_neg (not_not_intro rfl)] at hrun
          exact .array hv fun q hq => ih (equalItems_self hrun q hq)

/-- On plain values `==` is the equality of trees, an equivalence. -/
theorem equalityOn_of_plain {S : Pointer → Prop} (hplain : ∀ a, S a → Plain h a) : EqualityOn numbers h S where
  total {a b} ha hb := by
    obtain ⟨s, hs⟩ := (hplain a ha).standsFor
    obtain ⟨t, ht⟩ := (hplain b hb).standsFor
    obtain ⟨r, -, hrun⟩ := hs.decides ht
    exact ⟨r, hrun⟩
  refl {a} ha := by
    obtain ⟨s, hs⟩ := (hplain a ha).standsFor
    exact (hs.decides_iff hs).mpr ⟨fun _ => rfl, fun _ => rfl⟩
  symm {a b r} ha hb hrun := by
    obtain ⟨s, hs⟩ := (hplain a ha).standsFor
    obtain ⟨t, ht⟩ := (hplain b hb).standsFor
    rw [hs.decides_iff ht] at hrun
    apply (ht.decides_iff hs).mpr
    rw [hrun]
    exact eq_comm
  trans {a b c} ha hb hc hab hbc := by
    obtain ⟨s, hs⟩ := (hplain a ha).standsFor
    obtain ⟨t, ht⟩ := (hplain b hb).standsFor
    obtain ⟨u, hu⟩ := (hplain c hc).standsFor
    have hst : s = t := ((hs.decides_iff ht).mp hab).mp rfl
    have htu : t = u := ((ht.decides_iff hu).mp hbc).mp rfl
    apply (hs.decides_iff hu).mpr
    exact ⟨fun _ => hst.trans htu, fun _ => rfl⟩
  nulls {a b} ha hb hnull hnull' := by
    -- The null pointer is not plain, so both are tagged.
    have htagged : ∀ {p}, S p → h.IsNull p → StandsFor h p .null := by
      rintro p hp (rfl | hv)
      · obtain ⟨s, hs⟩ := (hplain nullLiteral hp).standsFor
        obtain ⟨v, hv, -⟩ := hs.cell
        cases hv
      · exact .null hv
    apply ((htagged ha hnull).decides_iff (htagged hb hnull')).mpr
    exact ⟨fun _ => rfl, fun _ => rfl⟩
  negation {a b r} _ _ := vntNe_iff

/-- **Equality is a total equivalence on a set of values exactly if all of them are plain**: free of the C null pointer,
    of references and raw pointers, and of arrays that contain themselves. -/
theorem equalityOn_iff (numbers : Numbers) (h : Heap) (hfloats : h.FloatFree) (S : Pointer → Prop) :
    EqualityOn numbers h S ↔ ∀ a, S a → Plain h a := by
  constructor
  · intro hequality a ha
    obtain ⟨clock, hrun⟩ := hequality.refl ha
    exact plain_of_self_equal hfloats hrun
  · exact equalityOn_of_plain

/-- Doubles by their bits, with one conversion. -/
def bitwise : Numbers := ⟨fun x y => x == y, fun x => ⟨x.toUInt64⟩⟩

/-- A tagged null, a number, and an array of both. -/
theorem small_array_equality : EqualityOn bitwise [.null, .int 7, .array [some 0, some 1]] (· = some 2) := by
  apply (equalityOn_iff bitwise [.null, .int 7, .array [some 0, some 1]] ?_ (· = some 2)).mpr
  · rintro a rfl
    refine .array rfl ?_
    intro q hq
    rcases List.mem_pair.mp hq with rfl | rfl
    · exact .null rfl
    · exact .int rfl
  · intro cell hcell x
    rcases List.mem_cons.mp hcell with rfl | hcell
    · exact nofun
    · rcases List.mem_pair.mp hcell with rfl | rfl <;> exact nofun

/-- **`null == null` faults**, and a missing field is not equal to the literal either. -/
theorem null_literal_faults : (∀ clock r, vntEq bitwise [] clock nullLiteral nullLiteral ≠ .ok r) ∧
    (∀ clock r, vntEq bitwise (vntObjectGet [.object []] [] "missing").2 clock
      (vntObjectGet [.object []] [] "missing").1 nullLiteral ≠ .ok r) ∧
    ¬EqualityOn bitwise [] (· = nullLiteral) := by
  refine ⟨?_, ?_, ?_⟩
  · intro clock r hrun
    exact not_decides_null (Or.inl rfl) ⟨clock, hrun⟩
  · intro clock r hrun
    exact not_decides_null (Or.inr rfl) ⟨clock, hrun⟩
  · intro hequality
    exact not_decides_null (Or.inl rfl) (hequality.refl rfl)

end Vnt.Runtime
