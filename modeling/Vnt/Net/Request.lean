import Vnt.Net.Url
import Vnt.Lib.Ring

/-!
# `Vnt.Net.Request`: the request the client sends (`native_net.c`)

`vnt_native_http_request_impl` up to `write_all`, on a POSIX system. The request is put together in one buffer whose
size is estimated once. The buffer is an array and a write position; a write that would leave the buffer makes the
assembly an `overrun`.
-/

namespace Vnt.Net

def digit (n : Nat) : UInt8 := UInt8.ofNat (48 + n)

/-- `%zu`: the digits of a number below 10 to the `fuel`. -/
def decimalDigits : Nat → Nat → Bytes
  | 0, _ => []
  | fuel + 1, n => if n < 10 then [digit n] else decimalDigits fuel (n / 10) ++ [digit (n % 10)]

/-- `%zu`; a `size_t` has at most 20 digits. -/
def decimal (n : Nat) : Bytes := decimalDigits 20 n

/-- `SIZE_MAX`. -/
def sizeMax : Nat := 2 ^ 64 - 1

/-- The request buffer: its memory and the position `at`. -/
structure Writer where
  memory : Nat → UInt8
  position : Nat

/-- What `snprintf` stores where there is room for `room` bytes. -/
def stored (text : Bytes) (room : Nat) : Bytes := if room = 0 then [] else text.take (room - 1) ++ [0]

/-- `at += snprintf(request + at, reqcap - at, ...)`. Behind the end of the buffer the size wraps around, and the text
    goes out of bounds. -/
def snprintfAt (reqcap : Nat) (w : Writer) (text : Bytes) : Option Writer :=
  if reqcap < w.position then none
  else some ⟨blit w.memory w.position (stored text (reqcap - w.position)), w.position + text.length⟩

/-- A line that goes into the request, if there is room. -/
def goesOut (line : Bytes) : Bool := line ≠ [] ∧ reservedRequestHeader line = false

/-- One turn of the loop over the header text. -/
def copyHeader (reqcap : Nat) (w : Writer) (line : Bytes) : Writer :=
  let line := dropCrs line
  if goesOut line ∧ w.position + line.length + 2 < reqcap then
    ⟨blit w.memory w.position (line ++ crlf), w.position + line.length + 2⟩
  else w

/-- The first `snprintf`: the request line, `Host` and `Connection`. -/
def requestHead (useProxy : Bool) (method : Bytes) (u : ParsedUrl) : Bytes :=
  if useProxy = true ∧ u.tls = false then
    method ++ ascii " http://" ++ u.host ++ ascii ":" ++ u.port ++ u.target ++ ascii " HTTP/1.1\r\nHost: " ++ u.host ++
      ascii "\r\nConnection: close\r\n"
  else
    method ++ ascii " " ++ u.target ++ ascii " HTTP/1.1\r\nHost: " ++ u.host ++ ascii "\r\nConnection: " ++
      (if u.tls = false ∧ useProxy = false then ascii "keep-alive" else ascii "close") ++ ascii "\r\n"

/-- `reqcap`: 512 and the lengths of the parts; `none` when the sum leaves `size_t`. -/
def requestCapacity (parts : List Nat) : Option Nat :=
  parts.foldlM (fun cap part => if part > sizeMax - cap then none else some (cap + part)) 512

/-- How the assembly ends: the request is given up, the buffer is overrun, or the bytes go to `write_all`. -/
inductive Assembly where
  | refused
  | overrun
  | sent (bytes : Bytes)
  deriving DecidableEq

/-- The lines generated for a body, each with its end. -/
def bodyHeaders (headers body : Bytes) : List Bytes :=
  if body = [] then []
  else
    (ascii "Content-Length: " ++ decimal body.length ++ crlf) ::
      (if hasRequestHeader headers (ascii "Content-Type") then []
      else [ascii "Content-Type: application/octet-stream" ++ crlf])

/-- The buffer behind its headers, as it goes to `write_all`. -/
def finishRequest (reqcap : Nat) (headers body : Bytes) (w : Writer) : Option Writer := do
  let w ← (bodyHeaders headers body).foldlM (snprintfAt reqcap) w
  let w ← snprintfAt reqcap w crlf
  some (if body ≠ [] ∧ w.position + body.length < reqcap then
    ⟨blit w.memory w.position body, w.position + body.length⟩ else w)

/-- `vnt_native_http_request_impl` from `reqcap` to `write_all`. -/
def assembleRequest (useProxy : Bool) (method : Bytes) (u : ParsedUrl) (headers body : Bytes) : Assembly :=
  match requestCapacity [method.length, u.target.length, u.host.length, headers.length, body.length] with
  | none => .refused
  | some reqcap =>
      let head := requestHead useProxy method u
      -- `snprintf` returns an `int`
      if head.length > 2 ^ 31 - 1 ∨ head.length ≥ reqcap then .refused
      else
        let w := (textLines headers).foldl (copyHeader reqcap) ⟨blit (fun _ => 0) 0 (head ++ [0]), head.length⟩
        match finishRequest reqcap headers body w with
        | none => .overrun
        | some w => if reqcap < w.position then .overrun else .sent (slice w.memory 0 w.position)

/-- The request of a program: what is sent for a method, a URL, a header text and a body. -/
def requestBytes (useProxy : Bool) (method : Option Bytes) (url headers body : Bytes) : Assembly :=
  if validRequestHeaders headers = false then .refused
  else
    match parseUrl url with
    | none => .refused
    | some u => assembleRequest useProxy (method.getD (ascii "GET")) u headers body

/-! ## The request that is meant -/

/-- The lines of a header text that go into the request. -/
def carriedLines (headers : Bytes) : List Bytes := ((textLines headers).map dropCrs).filter goesOut

/-- The whole request. -/
def fullRequest (useProxy : Bool) (method : Bytes) (u : ParsedUrl) (headers body : Bytes) : Bytes :=
  requestHead useProxy method u ++ (carriedLines headers).flatMap (· ++ crlf) ++ (bodyHeaders headers body).flatten ++
    crlf ++ body

end Vnt.Net
