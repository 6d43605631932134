import Vnt.Net.ChunkAgree
import Mathlib.Data.Nat.Digits.Lemmas

/-!
# `Vnt.Net.ChunkRoundTrip`: what is sent in chunks is what `stream_feed_chunked` delivers

A `ChunkedMessage` is any way to write a list of byte strings down as a chunked body: each size is spelled as the sender
likes, with an extension behind it or without. The stream decoder gives the byte strings back, however the bytes are cut
into pieces, as long as `*total` can count them.
-/

namespace Vnt.Net

/-- Hexadecimal digits, in either case and with leading zeros or without, that stand for `n`. -/
def Spells (digits : Bytes) (n : Nat) : Prop :=
  digits ≠ [] ∧ ∃ ds : List Nat, digits.map hexDigit = ds.map some ∧ Nat.ofDigits 16 ds.reverse = n

/-- A size line: the digits, and an extension that a semicolon begins. -/
structure SizeLine (n : Nat) where
  digits : Bytes
  extension : Bytes
  spells : Spells digits n
  begins : extension = [] ∨ ∃ text, extension = 59 :: text
  unbroken : Unbroken extension
  short : (digits ++ extension).length ≤ 8192

/-- A byte string with the line that gives its size. -/
structure Chunk where
  data : Bytes
  nonempty : data ≠ []
  size : SizeLine data.length

structure TrailerLine where
  bytes : Bytes
  valid : validFieldLine bytes = true
  short : bytes.length ≤ 8192

structure ChunkedMessage where
  chunks : List Chunk
  last : SizeLine 0
  trailers : List TrailerLine

variable {n v : Nat} {digits : Bytes} {ds : List Nat}

def SizeLine.bytes (s : SizeLine n) : Bytes := s.digits ++ s.extension

def Chunk.encode (c : Chunk) : Bytes := c.size.bytes ++ crlf ++ (c.data ++ crlf)

def encodeTrailers (trailers : List TrailerLine) : Bytes := trailers.flatMap (fun t => t.bytes ++ crlf) ++ crlf

/-- The bytes on the wire. -/
def ChunkedMessage.encode (m : ChunkedMessage) : Bytes :=
  m.chunks.flatMap Chunk.encode ++ (m.last.bytes ++ crlf ++ encodeTrailers m.trailers)

/-- What the message stands for. -/
def ChunkedMessage.data (m : ChunkedMessage) : Bytes := m.chunks.flatMap Chunk.data

def ChunkedMessage.lines (m : ChunkedMessage) : List Bytes :=
  m.chunks.map (fun c => c.size.bytes) ++ m.last.bytes :: m.trailers.map TrailerLine.bytes

/-! ## The size that a line gives -/

/-- The loop over the digits of `stream_parse_chunk_size`. -/
def sizeLoop (value : Nat) (digits : Bytes) : Option Nat :=
  digits.foldlM (fun value c =>
    match hexDigit c with
    | none => none
    | some digit => if value > (sizeMax - digit) / 16 then none else some (value * 16 + digit)) value

theorem ofDigits_reverse_cons (d : Nat) (ds : List Nat) :
    Nat.ofDigits 16 (d :: ds).reverse = d * 16 ^ ds.length + Nat.ofDigits 16 ds.reverse := by
  rw [List.reverse_cons, Nat.ofDigits_append, Nat.ofDigits_singleton, List.length_reverse, Nat.mul_comm, Nat.add_comm]

/-- A number that fits `size_t` is read: no step of the loop overflows, because the value never comes down again. -/
theorem sizeLoop_spelled : ∀ {digits : Bytes} {ds : List Nat} {v : Nat}, digits.map hexDigit = ds.map some →
    v * 16 ^ ds.length + Nat.ofDigits 16 ds.reverse ≤ sizeMax →
    sizeLoop v digits = some (v * 16 ^ ds.length + Nat.ofDigits 16 ds.reverse)
  | [], [], v, _, _ => by
      show some v = some (v * 16 ^ 0 + 0)
      rw [Nat.pow_zero, Nat.mul_one, Nat.add_zero]
  | [], _ :: _, _, h, _ => nomatch h
  | _ :: _, [], _, h, _ => nomatch h
  | c :: digits, d :: ds, v, h, hmax => by
      rw [List.map_cons, List.map_cons] at h
      injection h with hc hdigits
      have hplace : v * 16 ^ (d :: ds).length + Nat.ofDigits 16 (d :: ds).reverse =
          (v * 16 + d) * 16 ^ ds.length + Nat.ofDigits 16 ds.reverse := by
        rw [ofDigits_reverse_cons, List.length_cons, Nat.pow_succ', Nat.add_mul, ← Nat.mul_assoc, Nat.add_assoc]
      rw [hplace] at hmax ⊢
      have hvalue : v * 16 + d ≤ sizeMax := by
        calc v * 16 + d ≤ (v * 16 + d) * 16 ^ ds.length := Nat.le_mul_of_pos_right _ (Nat.pow_pos (by decide))
          _ ≤ (v * 16 + d) * 16 ^ ds.length + Nat.ofDigits 16 ds.reverse := Nat.le_add_right _ _
          _ ≤ sizeMax := hmax
      have hroom : ¬(v > (sizeMax - d) / 16) := by omega
      rw [sizeLoop, List.foldlM_cons, hc]
      simp only
      rw [if_neg hroom]
      exact sizeLoop_spelled hdigits hmax

theorem Spells.digit (h : Spells digits n) {c : UInt8} (hc : c ∈ digits) : ∃ d, hexDigit c = some d := by
  obtain ⟨-, ds, hds, -⟩ := h
  have hmem : hexDigit c ∈ digits.map hexDigit := List.mem_map_of_mem hc
  rw [hds] at hmem
  obtain ⟨d, -, hd⟩ := List.mem_map.mp hmem
  exact ⟨d, hd.symm⟩

theorem Spells.unbroken (h : Spells digits n) : Unbroken digits := by
  intro c hc
  obtain ⟨d, hd⟩ := h.digit hc
  constructor
  · rintro rfl
    exact absurd hd nofun
  · rintro rfl
    exact absurd hd nofun

theorem SizeLine.bytes_unbroken (s : SizeLine n) : Unbroken s.bytes := by
  intro c hc
  rcases List.mem_append.mp hc with hc | hc
  · exact s.spells.unbroken c hc
  · exact s.unbroken c hc

theorem SizeLine.takeWhile (s : SizeLine n) : s.bytes.takeWhile (· ≠ 59) = s.digits := by
  have hdigits : ∀ c ∈ s.digits, decide (c ≠ 59) = true := by
    intro c hc
    obtain ⟨d, hd⟩ := s.spells.digit hc
    apply decide_eq_true
    rintro rfl
    exact absurd hd nofun
  rw [SizeLine.bytes, List.takeWhile_append_of_pos hdigits]
  rcases s.begins with h | ⟨text, h⟩
  · rw [h, List.takeWhile_nil, List.append_nil]
  · rw [h, List.takeWhile_cons_of_neg (by decide), List.append_nil]

/-- **A size line gives its size**, when the size fits `size_t`. -/
theorem SizeLine.chunkSize (s : SizeLine n) (hmax : n ≤ sizeMax) : chunkSize s.bytes = some n := by
  obtain ⟨hne, ds, hds, hvalue⟩ := s.spells
  have hloop : sizeLoop 0 s.digits = some n := by
    rw [sizeLoop_spelled hds, hvalue, Nat.zero_mul, Nat.zero_add]
    rw [hvalue, Nat.zero_mul, Nat.zero_add]
    exact hmax
  unfold Net.chunkSize
  rw [s.takeWhile]
  dsimp only
  rw [if_neg hne]
  exact hloop

/-! ## The encoding is in the grammar -/

theorem encodeTrailers_trailers : ∀ trailers : List TrailerLine,
    Trailers (encodeTrailers trailers) (trailers.map TrailerLine.bytes)
  | [] => .last
  | t :: trailers => by
      have hmore := Trailers.field t.valid (encodeTrailers_trailers trailers)
      have hbytes : encodeTrailers (t :: trailers) = t.bytes ++ crlf ++ encodeTrailers trailers := by
        rw [encodeTrailers, List.flatMap_cons, List.append_assoc]
        rfl
      rw [hbytes]
      exact hmore

/-- The encoding is a chunked body that stands for the data. -/
theorem ChunkedMessage.encode_chunked {last : SizeLine 0} {trailers : List TrailerLine} : ∀ {chunks : List Chunk},
    (∀ c ∈ chunks, c.data.length ≤ sizeMax) →
    Chunked (encode ⟨chunks, last, trailers⟩) (data ⟨chunks, last, trailers⟩) (lines ⟨chunks, last, trailers⟩)
  | [], _ => Chunked.last last.bytes_unbroken (last.chunkSize (Nat.zero_le _)) (encodeTrailers_trailers trailers)
  | c :: chunks, hmax => by
      have hmore := @encode_chunked last trailers chunks
        fun c' hc' => hmax c' (List.mem_cons_of_mem c hc')
      have hchunk := Chunked.chunk c.size.bytes_unbroken c.nonempty (c.size.chunkSize (hmax c List.mem_cons_self)) hmore
      have hbytes : encode ⟨c :: chunks, last, trailers⟩ =
          c.size.bytes ++ crlf ++ (c.data ++ crlf ++ encode ⟨chunks, last, trailers⟩) := by
        unfold encode
        rw [List.flatMap_cons, Chunk.encode]
        simp only [List.append_assoc]
      rw [hbytes]
      exact hchunk

theorem ChunkedMessage.lines_within (m : ChunkedMessage) : Within 8192 m.lines := by
  intro line hline
  rcases List.mem_append.mp hline with hline | hline
  · obtain ⟨c, -, rfl⟩ := List.mem_map.mp hline
    exact c.size.short
  rcases List.mem_cons.mp hline with rfl | hline
  · exact m.last.short
  · obtain ⟨t, -, rfl⟩ := List.mem_map.mp hline
    exact t.short

theorem ChunkedMessage.length_chunk_le (m : ChunkedMessage) {c : Chunk} (hc : c ∈ m.chunks) :
    c.data.length ≤ m.data.length := by
  obtain ⟨before, after, hsplit⟩ := List.append_of_mem hc
  unfold ChunkedMessage.data
  rw [hsplit, List.flatMap_append, List.flatMap_cons]
  simp only [List.length_append]
  omega

/-! ## The round trip -/

/-- A fresh decoder, whose sink has taken `sent` before: `*total` is the length of `sent`. -/
def ChunkStream.resume (sent : Bytes) : ChunkStream := { ChunkStream.fresh with emitted := sent }

/-- Fed with the pieces, a fresh decoder ends in the last state, and the sink has taken the data of the message. -/
def ChunkedMessage.DeliveredFrom (m : ChunkedMessage) (sent : Bytes) (pieces : List Bytes) : Prop :=
  ∃ last, streamPieces (.resume sent) pieces = some last ∧ last.state = .done ∧ last.emitted = sent ++ m.data ∧
    last.emitted.length = sent.length + m.data.length

theorem resume_ready (sent : Bytes) : (ChunkStream.resume sent).Ready := fun h => by cases h

/-- The fold over the bytes reads the message, whatever is behind it. -/
theorem ChunkedMessage.reaches {m : ChunkedMessage} (hmax : ∀ c ∈ m.chunks, c.data.length ≤ sizeMax) (sent rest : Bytes) :
    Reaches (.resume sent) (m.encode ++ rest) (sent ++ m.data) :=
  reaches_chunked (encode_chunked hmax) m.lines_within rest

/-- **Round trip of the stream decoder**: the data of a message arrive at the sink in order, and nothing else does, however
    the encoding and what is behind it are cut into pieces. -/
theorem stream_round_trip (m : ChunkedMessage) (rest sent : Bytes) (pieces : List Bytes)
    (hpieces : pieces.flatten = m.encode ++ rest) (htotal : sent.length + m.data.length ≤ sizeMax) :
    m.DeliveredFrom sent pieces := by
  have hmax : ∀ c ∈ m.chunks, c.data.length ≤ sizeMax := by
    intro c hc
    have hle := m.length_chunk_le hc
    omega
  obtain ⟨last, hrun, hdone, hemitted⟩ := ChunkedMessage.reaches hmax sent rest
  have hlen : last.emitted.length = sent.length + m.data.length := by rw [hemitted, List.length_append]
  refine ⟨last, ?_, hdone, hemitted, hlen⟩
  apply (streamPieces_eq_some_iff (resume_ready sent) _).mpr
  · rw [hpieces, hlen]
    exact ⟨hrun, htotal⟩
  · show sent.length ≤ sizeMax
    omega

/-- `03;v` for a string of three bytes, the empty extension for the last chunk, and a trailer field. -/
def shortMessage : ChunkedMessage where
  chunks := [{
    data := ascii "abc"
    nonempty := by decide
    size := {
      digits := ascii "03"
      extension := ascii ";v"
      spells := ⟨by decide, [0, 3], by decide, by decide⟩
      begins := Or.inr ⟨ascii "v", by decide⟩
      unbroken := forall_mem_of_all (by decide)
      short := by decide } }]
  last := {
    digits := ascii "000"
    extension := []
    spells := ⟨by decide, [0, 0, 0], by decide, by decide⟩
    begins := Or.inl rfl
    unbroken := nofun
    short := by decide }
  trailers := [⟨ascii "a:b", by decide, by decide⟩]

/-- The cuts fall inside a size line and between CR and LF; bytes of a next message are behind the body. -/
theorem shortMessage_delivered : shortMessage.DeliveredFrom (ascii "x")
    [ascii "0", ascii "3;v\r", ascii "\nabc\r\n000\r\na:", ascii "b\r\n\r\nHTTP/1.1"] :=
  stream_round_trip shortMessage (ascii "HTTP/1.1") (ascii "x") _ (by decide) (by decide)

/-- When `*total` cannot count the data, the decoder fails on the way. -/
theorem stream_overflows {m : ChunkedMessage} {rest sent : Bytes} {pieces : List Bytes}
    (hpieces : pieces.flatten = m.encode ++ rest) (hmax : ∀ c ∈ m.chunks, c.data.length ≤ sizeMax)
    (hsent : sent.length ≤ sizeMax) (htotal : sizeMax < sent.length + m.data.length) :
    streamPieces (.resume sent) pieces = none := by
  cases hrun : streamPieces (.resume sent) pieces with
  | none => rfl
  | some last =>
      obtain ⟨hbytes, hfits⟩ := (streamPieces_eq_some_iff (resume_ready sent) hsent).mp hrun
      obtain ⟨last', hlast', -, hemitted⟩ := ChunkedMessage.reaches hmax sent rest
      rw [hpieces, hlast'] at hbytes
      cases hbytes
      rw [hemitted, List.length_append] at hfits
      omega

/-- A string of 2^63 bytes, and its size. -/
def hugeChunk : Chunk where
  data := List.replicate (2 ^ 63) 120
  nonempty h := by
    have hlen := List.length_replicate (n := 2 ^ 63) (a := (120 : UInt8))
    rw [h] at hlen
    cases hlen
  size := {
    digits := ascii "8000000000000000"
    extension := []
    spells := by
      rw [List.length_replicate]
      exact ⟨by decide, [8, 0, 0, 0, 0, 0, 0, 0, 0, 0, 0, 0, 0, 0, 0, 0], by decide, by decide⟩
    begins := Or.inl rfl
    unbroken := nofun
    short := by decide }

/-- Two strings of 2^63 bytes. -/
def hugeMessage : ChunkedMessage where
  chunks := [hugeChunk, hugeChunk]
  last := shortMessage.last
  trailers := []

theorem length_hugeChunk : hugeChunk.data.length = 2 ^ 63 := List.length_replicate

/-- **A message of 2^64 bytes is not delivered**: `stream_emit` does not let `*total` overflow. -/
theorem hugeMessage_refused : ¬∀ (m : ChunkedMessage) (rest : Bytes) (pieces : List Bytes),
    pieces.flatten = m.encode ++ rest → m.DeliveredFrom [] pieces := by
  intro h
  have hmax : ∀ c ∈ hugeMessage.chunks, c.data.length ≤ sizeMax := by
    intro c hc
    have hhuge : c = hugeChunk := by
      rcases List.mem_cons.mp hc with rfl | hc
      · rfl
      · exact List.mem_singleton.mp hc
    rw [hhuge, length_hugeChunk]
    decide
  have htotal : sizeMax < ([] : Bytes).length + hugeMessage.data.length := by
    have hdata : hugeMessage.data = hugeChunk.data ++ (hugeChunk.data ++ []) := rfl
    rw [hdata, List.length_append, List.length_append, length_hugeChunk]
    decide
  have hpieces : [hugeMessage.encode].flatten = hugeMessage.encode ++ [] := rfl
  obtain ⟨last, hlast, -⟩ := h hugeMessage [] [hugeMessage.encode] hpieces
  rw [stream_overflows hpieces hmax (Nat.zero_le _) htotal] at hlast
  cases hlast

end Vnt.Net
