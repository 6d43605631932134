import Vnt.Net.Grammar

/-!
# `Vnt.Net.Chunked`: the three readers of chunked bodies (`native_net.c`)

`decode_chunked` reads a whole buffer, `chunked_body_complete` tests one, and `stream_feed_chunked` is driven byte by
byte. The index into the buffer is modelled by the bytes that are left.
-/

namespace Vnt.Net

/-- The value of a hexadecimal digit. -/
def hexDigit (c : UInt8) : Option Nat :=
  if 48 ≤ c ∧ c ≤ 57 then some (c.toNat - 48)
  else if 97 ≤ c ∧ c ≤ 102 then some (c.toNat - 97 + 10)
  else if 65 ≤ c ∧ c ≤ 70 then some (c.toNat - 65 + 10)
  else none

/-- The size in a chunk-size line, up to a semicolon: `stream_parse_chunk_size`, and the same loop in the other two. -/
def chunkSize (line : Bytes) : Option Nat :=
  let digits := line.takeWhile (· ≠ 59)
  if digits = [] then none
  else
    digits.foldlM (fun value c =>
      match hexDigit c with
      | none => none
      | some digit => if value > (sizeMax - digit) / 16 then none else some (value * 16 + digit)) 0

/-! ## `decode_chunked` -/

/-- A line up to CRLF, of at most `limit` bytes and with no other CR or LF; `n` bytes of it have been read. -/
def readLine (limit : Nat) : Nat → Bytes → Option (Bytes × Bytes)
  | _, [] => none
  | n, c :: rest =>
      match rest with
      | [] => none
      | d :: more =>
          if c = cr ∧ d = lf then some ([], more)
          else if c = cr ∨ c = lf ∨ n ≥ limit then none
          else (readLine limit (n + 1) rest).map fun r => (c :: r.1, r.2)

/-- The trailer lines through the empty one; what is left. -/
def readTrailers (limit : Nat) : Nat → Bytes → Option Bytes
  | 0, _ => none
  | fuel + 1, bytes =>
      match readLine limit 0 bytes with
      | none => none
      | some (line, rest) =>
          if line = [] then some rest
          else if validFieldLine line then readTrailers limit fuel rest
          else none

/-- The loop over the chunks: the decoded bytes and what is left. -/
def readChunks (limit : Nat) : Nat → Bytes → Option (Bytes × Bytes)
  | 0, _ => none
  | fuel + 1, bytes =>
      match readLine limit 0 bytes with
      | none => none
      | some (line, rest) =>
          match chunkSize line with
          | none => none
          | some 0 => (readTrailers limit (rest.length + 1) rest).map fun left => ([], left)
          | some (chunk + 1) =>
              if chunk + 1 > rest.length ∨ rest.length - (chunk + 1) < 2 then none
              else
                match rest.drop (chunk + 1) with
                | 13 :: 10 :: more =>
                    (readChunks limit fuel more).map fun r => (rest.take (chunk + 1) ++ r.1, r.2)
                | _ => none

/-- `decode_chunked`: a line may have 8193 bytes, because the test `r - line_start > 8192` comes before the byte is
    counted. The bytes that are left over come with the result. -/
def decodeChunked (body : Bytes) : Option (Bytes × Bytes) :=
  if body.length = sizeMax then none else readChunks 8193 (body.length + 1) body

/-! ## `chunked_body_complete` -/

def completeTrailers : Nat → Bytes → Bool
  | 0, _ => false
  | fuel + 1, bytes =>
      match splitCrlf bytes with
      | none => false
      | some (line, rest) => if line = [] then true else if colon ∈ line then completeTrailers fuel rest else false

def completeChunks : Nat → Bytes → Bool
  | 0, _ => false
  | fuel + 1, bytes =>
      match splitCrlf bytes with
      | none => false
      | some (line, rest) =>
          match chunkSize line with
          | none => false
          | some 0 => completeTrailers (rest.length + 1) rest
          | some (amount + 1) =>
              if amount + 1 > rest.length ∨ rest.length - (amount + 1) < 2 then false
              else
                match rest.drop (amount + 1) with
                | 13 :: 10 :: more => completeChunks fuel more
                | _ => false

def chunkedBodyComplete (body : Bytes) : Bool := completeChunks (body.length + 1) body

/-! ## `stream_feed_chunked` -/

inductive StreamState where
  | size
  | sizeLf
  | data
  | dataCr
  | dataLf
  | trailer
  | trailerLf
  | done
  deriving DecidableEq, Repr

/-- `VntChunkStream`, with what went to the sink; a sink that accepts everything. -/
structure ChunkStream where
  state : StreamState
  line : Bytes
  chunkRemaining : Nat
  emitted : Bytes
  deriving DecidableEq

def ChunkStream.fresh : ChunkStream := ⟨.size, [], 0, []⟩

/-- One byte, in every state but `data`. -/
def feedByte (decoder : ChunkStream) (ch : UInt8) : Option ChunkStream :=
  match decoder.state with
  | .size =>
      if ch = cr then some { decoder with state := .sizeLf }
      else if ch = lf ∨ decoder.line.length ≥ 8192 then none
      else some { decoder with line := decoder.line ++ [ch] }
  | .sizeLf =>
      if ch ≠ lf then none
      else
        match chunkSize decoder.line with
        | none => none
        | some amount =>
            some { decoder with line := [], chunkRemaining := amount, state := if amount ≠ 0 then .data else .trailer }
  | .dataCr => if ch ≠ cr then none else some { decoder with state := .dataLf }
  | .dataLf => if ch ≠ lf then none else some { decoder with state := .size }
  | .trailer =>
      if ch = cr then some { decoder with state := .trailerLf }
      else if ch = lf ∨ decoder.line.length ≥ 8192 then none
      else some { decoder with line := decoder.line ++ [ch] }
  | .trailerLf =>
      if ch ≠ lf then none
      else if decoder.line = [] then some { decoder with state := .done }
      else if validFieldLine decoder.line then some { decoder with line := [], state := .trailer }
      else none
  | .data | .done => none

/-- `stream_emit`. -/
def streamEmit (decoder : ChunkStream) (data : Bytes) : Option ChunkStream :=
  if data = [] then some decoder
  else if data.length > sizeMax - decoder.emitted.length then none
  else some { decoder with emitted := decoder.emitted ++ data }

/-- The loop of `stream_feed_chunked`; each turn takes at least one byte. -/
def feedLoop : Nat → ChunkStream → Bytes → Option ChunkStream
  | _, decoder, [] => some decoder
  | 0, _, _ :: _ => none
  | fuel + 1, decoder, ch :: rest =>
      if decoder.state = .done then some decoder
      else if decoder.state = .data then
        let amount := min (ch :: rest).length decoder.chunkRemaining
        match streamEmit decoder ((ch :: rest).take amount) with
        | none => none
        | some decoder =>
            let remaining := decoder.chunkRemaining - amount
            feedLoop fuel { decoder with
              chunkRemaining := remaining, state := if remaining = 0 then .dataCr else .data } ((ch :: rest).drop amount)
      else
        match feedByte decoder ch with
        | none => none
        | some decoder => feedLoop fuel decoder rest

def streamFeedChunked (decoder : ChunkStream) (data : Bytes) : Option ChunkStream := feedLoop data.length decoder data

end Vnt.Net
