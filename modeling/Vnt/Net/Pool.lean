import Vnt.Net.Whole

/-!
# `Vnt.Net.Pool`: the keep-alive slot (`native_net.c`)

One thread's calls of `vnt_native_http_request_impl`, one hop after another: a hop takes the pooled connection or opens a
new one, sends its request, receives, and stores the connection, closes it, or goes on to where it was redirected. A
connection is named by a number that is not given twice.
-/

namespace Vnt.Net

/-- An open connection: where it leads, and the bytes on it that have not been received. -/
structure Connection where
  fd : Nat
  host : Bytes
  port : Bytes
  tls : Bool
  unread : Bytes
  deriving DecidableEq

/-- `vnt_http_pool_fd` and the variables beside it; `ssl` is the connection that the TLS objects were set up on. -/
structure Slot where
  fd : Nat
  host : Bytes
  port : Bytes
  tls : Bool
  ssl : Option Nat
  deriving DecidableEq

/-- The client: its open connections, the slot, and how many connections it has opened. -/
structure Client where
  connections : List Connection
  slot : Option Slot
  opened : Nat
  deriving DecidableEq

def Client.fresh : Client := ⟨[], none, 0⟩

/-- A well-formed answer to a request with the method: interim responses, and a final one with its body. -/
structure Reply (method : Option Bytes) where
  interim : List ResponseHead
  head : ResponseHead
  body : Bytes
  decoded : Bytes
  early : ∀ i ∈ interim, 100 ≤ i.code ∧ i.code < 200
  final : 200 ≤ head.code
  whole : (head.framing method).Whole body decoded
  fits : body.length < sizeMax

def Reply.bytes {method : Option Bytes} (reply : Reply method) : Bytes :=
  reply.interim.flatMap ResponseHead.render ++ (reply.head.render ++ reply.body)

/-- One pass through `vnt_native_http_request_impl`, up to its own call for a redirect, and what the world does in it:
    whether a new connection comes about, whether the request is assembled and written, and the answer, if the server has
    not closed the connection. -/
structure Pass where
  target : ParsedUrl
  method : Option Bytes
  useProxy : Bool
  disablePool : Bool
  sink : Bool
  redirectCount : Nat
  reads : Nat → Nat
  connects : Bool
  sends : Bool
  reply : Option (Reply method)

namespace Client

def close (c : Client) (fd : Nat) : Client := { c with connections := c.connections.filter fun conn => conn.fd ≠ fd }

/-- `vnt_http_pool_close`. -/
def poolClose (c : Client) : Client :=
  match c.slot with
  | none => c
  | some s => { c.close s.fd with slot := none }

/-- The connection and the TLS objects that come from the slot; a slot for another server is closed. -/
def poolTake (c : Client) (pass : Pass) : Client × Option (Nat × Option Nat) :=
  match c.slot with
  | none => (c, none)
  | some s =>
      if pass.disablePool = false ∧ pass.useProxy = false then
        if s.tls = pass.target.tls ∧ s.host = pass.target.host ∧ s.port = pass.target.port then
          ({ c with slot := none }, some (s.fd, s.ssl))
        else (c.poolClose, none)
      else (c, none)

/-- `socket` and `connect`. -/
def connect (c : Client) (pass : Pass) : Client :=
  { c with
    connections := ⟨c.opened, pass.target.host, pass.target.port, pass.target.tls, []⟩ :: c.connections
    opened := c.opened + 1 }

/-- The bytes on a connection. -/
def unreadOn (c : Client) (fd : Nat) : Bytes :=
  match c.connections.find? fun conn => conn.fd = fd with
  | none => []
  | some conn => conn.unread

def setUnread (c : Client) (fd : Nat) (unread : Bytes) : Client :=
  { c with connections := c.connections.map fun conn => if conn.fd = fd then { conn with unread := unread } else conn }

end Client

/-- The flag `reusable`. -/
def reusable (pass : Pass) (raw : Bytes) : Bool :=
  match parseResponseHeaders raw pass.method with
  | .incomplete | .malformed => false
  | .accepted h =>
      let token := httpHeaderHasToken (raw.take h.headerLength) (ascii "Connection")
      pass.disablePool = false ∧ pass.useProxy = false ∧ token (ascii "close") = false ∧
        ((ascii "HTTP/1.1 ").isPrefixOf raw ∨ token (ascii "keep-alive")) ∧
        (h.noBody ∨ h.hasContentLength ∨ chunkedResponse h raw)

/-- From the request on: the connection `fd` with its TLS objects is this pass's own. -/
def Client.converse (c : Client) (pass : Pass) (fd : Nat) (ssl : Option Nat) : Client × Outcome :=
  if pass.sends = false then (c.close fd, .failed)
  else
    let received := receive pass.sink pass.method pass.redirectCount pass.reads
      (c.unreadOn fd ++ (pass.reply.map Reply.bytes).getD [])
    match received.outcome with
    | .delivered status body =>
        if reusable pass received.raw then
          let c := (c.setUnread fd received.unread).poolClose
          ({ c with slot := some ⟨fd, pass.target.host, pass.target.port, pass.target.tls, ssl⟩ }, .delivered status body)
        else (c.close fd, .delivered status body)
    | other => (c.close fd, other)

/-- One pass. -/
def Client.pass (c : Client) (pass : Pass) : Client × Outcome :=
  match c.poolTake pass with
  | (c, some (fd, ssl)) => c.converse pass fd (if pass.target.tls ∧ ssl = none then some fd else ssl)
  | (c, none) =>
      if pass.connects then (c.connect pass).converse pass c.opened (if pass.target.tls then some c.opened else none)
      else (c, .failed)

/-- One request: a pass, and further ones as long as they are redirected; the passes with their outcomes. -/
def Client.request (c : Client) : List Pass → Client × List (Pass × Outcome)
  | [] => (c, [])
  | pass :: rest =>
      match c.pass pass with
      | (c, .redirected location) =>
          let r := c.request rest
          (r.1, (pass, .redirected location) :: r.2)
      | (c, outcome) => (c, [(pass, outcome)])

/-- Requests one after another. -/
def Client.requests (c : Client) : List (List Pass) → Client × List (List (Pass × Outcome))
  | [] => (c, [])
  | request :: rest =>
      let first := c.request request
      let others := first.1.requests rest
      (others.1, first.2 :: others.2)

/-! ## Soundness -/

/-- A connection that is what the slot says, with nothing left to receive. -/
def Slot.connection (s : Slot) : Connection := ⟨s.fd, s.host, s.port, s.tls, []⟩

/-- Between two passes: the connection in the slot is the only one that is open; no byte on it is unread, and its TLS objects
    are its own. -/
structure Client.Sound (c : Client) : Prop where
  open_eq : c.connections = (c.slot.map Slot.connection).toList
  ssl : ∀ s ∈ c.slot, s.ssl = if s.tls then some s.fd else none
  known : ∀ s ∈ c.slot, s.fd < c.opened

/-- A success is the final response that the server produced for the request of the pass. -/
def Paired (pass : Pass) (outcome : Outcome) : Prop :=
  ∀ status body, outcome = .delivered status body →
    ∃ reply, pass.reply = some reply ∧ status = reply.head.code ∧ body = reply.decoded

/-- The answer has no interim response, and if it goes to a sink with a status that is followed but with no location, it has
    no body. -/
def Pass.Regular (pass : Pass) : Prop :=
  ∀ reply, pass.reply = some reply → reply.interim = [] ∧
    (pass.sink = true → redirectStatus reply.head.code = true → pass.redirectCount < 10 →
      findLocation reply.head.lines = none ∨ findLocation reply.head.lines = some [] → reply.body = [])

variable {c : Client} {pass : Pass} {fd : Nat} {ssl : Option Nat}

theorem fresh_sound : Client.fresh.Sound where
  open_eq := rfl
  ssl := nofun
  known := nofun

theorem receive_nil (sink : Bool) (method : Option Bytes) (redirectCount : Nat) (reads : Nat → Nat) :
    (receive sink method redirectCount reads []).outcome = .failed := by
  cases sink <;> rfl

/-- A connection whose response ends when the peer closes is not stored. -/
theorem framing_of_reusable {head : ResponseHead} {arrived : Bytes} (h : reusable pass (head.render ++ arrived) = true) :
    head.framing pass.method ≠ .toClose := by
  intro hclose
  unfold reusable at h
  rw [parse_head] at h
  simp only [decide_eq_true_iff] at h
  obtain ⟨-, -, -, -, hframed⟩ := h
  rw [chunkedResponse_head] at hframed
  rcases framing_cases head pass.method with ⟨hframing, -⟩ | ⟨hframing, -⟩ | ⟨n, hframing, -⟩ | ⟨-, hbody, hchunked, hlength⟩
  · rw [hclose] at hframing
    cases hframing
  · rw [hclose] at hframing
    cases hframing
  · rw [hclose] at hframing
    cases hframing
  · rcases hframed with hframed | hframed | hframed
    · rw [show (head.headers pass.method).noBody = responseNoBody pass.method head.code from rfl, hbody] at hframed
      cases hframed
    · rw [show (head.headers pass.method).hasContentLength = head.contentLength.isSome from rfl, hlength] at hframed
      cases hframed
    · rw [hchunked] at hframed
      cases hframed

/-- A location that is not followed is not there. -/
theorem location_of_target {head : ResponseHead} {method : Option Bytes} {redirectCount : Nat}
    (hstatus : redirectStatus head.code = true) (hcount : redirectCount < 10)
    (htarget : redirectTarget redirectCount (head.headers method) head.render = none) :
    findLocation head.lines = none ∨ findLocation head.lines = some [] := by
  have hlines := acceptedLines_head head [] method
  rw [List.append_nil] at hlines
  have hfollow : redirectStatus (head.headers method).statusCode = true ∧ redirectCount < 10 := ⟨hstatus, hcount⟩
  unfold redirectTarget at htarget
  rw [if_pos hfollow, hlines] at htarget
  cases hfound : findLocation head.lines with
  | none => exact Or.inl rfl
  | some location =>
      cases location with
      | nil => exact Or.inr rfl
      | cons c rest =>
          rw [hfound] at htarget
          cases htarget

/-- **A success on a clean connection is the response to the request, and a connection that is stored is clean.** -/
theorem receive_paired (hregular : pass.Regular) {bytes : Bytes} (hbytes : bytes = (pass.reply.map Reply.bytes).getD [])
    {status : Int} {body : Bytes}
    (hdelivered : (receive pass.sink pass.method pass.redirectCount pass.reads bytes).outcome = .delivered status body) :
    Paired pass (.delivered status body) ∧
      (reusable pass (receive pass.sink pass.method pass.redirectCount pass.reads bytes).raw = true →
        (receive pass.sink pass.method pass.redirectCount pass.reads bytes).unread = []) := by
  cases hreply : pass.reply with
  | none =>
      have hnil : bytes = [] := by
        rw [hbytes, hreply]
        rfl
      rw [hnil, receive_nil] at hdelivered
      cases hdelivered
  | some reply =>
      obtain ⟨hinterim, hsettled⟩ := hregular reply hreply
      have hall : bytes = reply.head.render ++ reply.body := by
        rw [hbytes, hreply]
        show reply.interim.flatMap ResponseHead.render ++ (reply.head.render ++ reply.body) = _
        rw [hinterim]
        rfl
      rw [hall] at hdelivered ⊢
      cases hsink : pass.sink with
      | false =>
          rw [hsink] at hdelivered
          obtain ⟨hstatus, hbody, hunread, -⟩ := buffered_whole reply.whole reply.fits hdelivered
          refine ⟨?_, fun _ => hunread⟩
          intro s b heq
          cases heq
          exact ⟨reply, hreply, hstatus, hbody⟩
      | true =>
          rw [hsink] at hdelivered
          obtain ⟨hstatus, hbody, hunread, hraw⟩ := streamed_whole reply.whole reply.fits
            (fun hredirect hcount htarget => hsettled hsink hredirect hcount (location_of_target hredirect hcount htarget))
            hdelivered
          refine ⟨?_, fun hreusable => hunread ?_⟩
          · intro s b heq
            cases heq
            exact ⟨reply, hreply, hstatus, hbody⟩
          · have hraw' : (receive true pass.method pass.redirectCount pass.reads (reply.head.render ++ reply.body)).raw =
                reply.head.render ++ [] := by
              rw [List.append_nil]
              exact hraw
            rw [hraw'] at hreusable
            exact framing_of_reusable hreusable

/-! ## One pass -/

theorem Client.Sound.closed (h : c.Sound) : c.poolClose.Sound ∧ c.poolClose.connections = [] := by
  have hopen := h.open_eq
  unfold Client.poolClose
  cases hslot : c.slot with
  | none =>
      rw [hslot] at hopen
      exact ⟨h, hopen⟩
  | some s =>
      rw [hslot] at hopen
      have hempty : (c.close s.fd).connections = [] := by
        unfold Client.close
        rw [hopen]
        simp [Slot.connection]
      exact ⟨⟨hempty, nofun, nofun⟩, hempty⟩

/-- The connection of a pass beside the connections that stay as they are. -/
structure Client.Holds (c : Client) (pass : Pass) (fd : Nat) (ssl : Option Nat) (kept : Client) : Prop where
  connections : c.connections =
    ⟨fd, pass.target.host, pass.target.port, pass.target.tls, []⟩ :: kept.connections
  slot : c.slot = kept.slot
  opened : kept.opened ≤ c.opened
  sound : kept.Sound
  ssl : ssl = if pass.target.tls then some fd else none
  other : ∀ s ∈ kept.slot, s.fd ≠ fd
  known : fd < c.opened
  /-- A pass that may store its connection has the slot for itself. -/
  free : pass.disablePool = false → pass.useProxy = false → kept.slot = none

variable {kept : Client}

theorem Client.Holds.close (h : c.Holds pass fd ssl kept) : (c.close fd).Sound := by
  have hrest : (c.close fd).connections = kept.connections := by
    unfold Client.close
    rw [h.connections, List.filter_cons, if_neg (by simp)]
    rw [List.filter_eq_self]
    intro conn hconn
    rw [h.sound.open_eq] at hconn
    cases hslot : kept.slot with
    | none =>
        rw [hslot] at hconn
        cases hconn
    | some s =>
        rw [hslot] at hconn
        rw [List.mem_singleton.mp hconn]
        exact decide_eq_true (h.other s hslot)
  have hslot : (c.close fd).slot = kept.slot := h.slot
  refine ⟨?_, ?_, ?_⟩
  · rw [hrest, hslot]
    exact h.sound.open_eq
  · rw [hslot]
    exact h.sound.ssl
  · rw [hslot]
    intro s hs
    exact Nat.lt_of_lt_of_le (h.sound.known s hs) h.opened

theorem Client.Holds.unreadOn (h : c.Holds pass fd ssl kept) : c.unreadOn fd = [] := by
  unfold Client.unreadOn
  rw [h.connections, List.find?_cons]
  simp

/-- **A pass on a clean connection of its own keeps the client sound and is paired.** -/
theorem Client.Holds.converse (h : c.Holds pass fd ssl kept) (hregular : pass.Regular) :
    (c.converse pass fd ssl).1.Sound ∧ Paired pass (c.converse pass fd ssl).2 := by
  have hfailed : Paired pass .failed := nofun
  unfold Client.converse
  by_cases hsends : pass.sends = false
  · rw [if_pos hsends]
    exact ⟨h.close, hfailed⟩
  rw [if_neg hsends, h.unreadOn, List.nil_append]
  simp only
  obtain ⟨received, hreceived⟩ : ∃ received, receive pass.sink pass.method pass.redirectCount pass.reads
    ((pass.reply.map Reply.bytes).getD []) = received := ⟨_, rfl⟩
  rw [hreceived]
  cases houtcome : received.outcome with
  | failed => exact ⟨h.close, hfailed⟩
  | redirected location => exact ⟨h.close, nofun⟩
  | delivered status body =>
      have hpaired := @receive_paired pass hregular _ rfl status body (by rw [hreceived]; exact houtcome)
      rw [hreceived] at hpaired
      simp only
      by_cases hreusable : reusable pass received.raw = true
      · rw [if_pos hreusable]
        refine ⟨?_, hpaired.1⟩
        have hunread := hpaired.2 hreusable
        -- only a pass that had the slot for itself gets here
        have hpool : pass.disablePool = false ∧ pass.useProxy = false := by
          unfold reusable at hreusable
          split at hreusable
          · cases hreusable
          · cases hreusable
          · simp only [decide_eq_true_iff] at hreusable
            exact ⟨hreusable.1, hreusable.2.1⟩
        have hfree := h.free hpool.1 hpool.2
        have hkept : kept.connections = [] := by
          rw [h.sound.open_eq, hfree]
          rfl
        have hslot : (c.setUnread fd received.unread).slot = none := h.slot.trans hfree
        have hclosed : (c.setUnread fd received.unread).poolClose = c.setUnread fd received.unread := by
          unfold Client.poolClose
          rw [hslot]
        rw [hclosed]
        refine ⟨?_, ?_, ?_⟩
        · show (c.setUnread fd received.unread).connections = _
          unfold Client.setUnread
          rw [h.connections, hkept, hunread]
          simp [Slot.connection]
        · intro s hs
          cases hs
          exact h.ssl
        · intro s hs
          cases hs
          exact h.known
      · rw [if_neg hreusable]
        exact ⟨h.close, hpaired.1⟩

theorem Client.Sound.connect (h : c.Sound) (hfree : pass.disablePool = false → pass.useProxy = false → c.slot = none) :
    (c.connect pass).Holds pass c.opened (if pass.target.tls then some c.opened else none) c where
  connections := rfl
  slot := rfl
  opened := Nat.le_succ _
  sound := h
  ssl := rfl
  other s hs := Nat.ne_of_lt (h.known s hs)
  known := Nat.lt_succ_self _
  free := hfree

/-- A pass that opens a connection, or cannot. -/
theorem Client.Sound.passNew (h : c.Sound) (hfree : pass.disablePool = false → pass.useProxy = false → c.slot = none)
    (hregular : pass.Regular) :
    let r := if pass.connects then (c.connect pass).converse pass c.opened (if pass.target.tls then some c.opened else none)
      else (c, .failed)
    r.1.Sound ∧ Paired pass r.2 := by
  by_cases hconnects : pass.connects = true
  · rw [if_pos hconnects]
    exact (h.connect hfree).converse hregular
  · rw [if_neg hconnects]
    exact ⟨h, nofun⟩

/-- **A pass keeps the client sound and is paired.** -/
theorem Client.Sound.step (h : c.Sound) (hregular : pass.Regular) : (c.pass pass).1.Sound ∧ Paired pass (c.pass pass).2 := by
  unfold Client.pass Client.poolTake
  cases hslot : c.slot with
  | none =>
      simp only
      exact h.passNew (fun _ _ => hslot) hregular
  | some s =>
      simp only
      by_cases hpool : pass.disablePool = false ∧ pass.useProxy = false
      · rw [if_pos hpool]
        by_cases hsame : s.tls = pass.target.tls ∧ s.host = pass.target.host ∧ s.port = pass.target.port
        · -- the pooled connection is taken
          rw [if_pos hsame]
          simp only
          have hssl : s.ssl = if pass.target.tls then some s.fd else none := by
            rw [← hsame.1]
            exact h.ssl s hslot
          have hown : (if pass.target.tls = true ∧ s.ssl = none then some s.fd else s.ssl) =
              if pass.target.tls then some s.fd else none := by
            rw [hssl]
            cases pass.target.tls with
            | true => rfl
            | false => rfl
          have hholds : Client.Holds { c with slot := none } pass s.fd
              (if pass.target.tls = true ∧ s.ssl = none then some s.fd else s.ssl) ⟨[], none, 0⟩ := by
            refine ⟨?_, rfl, Nat.zero_le _, fresh_sound, hown, nofun, h.known s hslot, fun _ _ => rfl⟩
            show c.connections = _
            rw [h.open_eq, hslot, ← hsame.1, ← hsame.2.1, ← hsame.2.2]
            rfl
          exact hholds.converse hregular
        · rw [if_neg hsame]
          simp only
          refine h.closed.1.passNew (fun _ _ => ?_) hregular
          unfold Client.poolClose
          rw [hslot]
      · rw [if_neg hpool]
        simp only
        exact h.passNew (fun hdisable hproxy => absurd ⟨hdisable, hproxy⟩ hpool) hregular

/-! ## Runs -/

theorem Client.Sound.request {passes : List Pass} : ∀ {c : Client}, c.Sound → (∀ pass ∈ passes, pass.Regular) →
    (c.request passes).1.Sound ∧ ∀ done ∈ (c.request passes).2, Paired done.1 done.2 := by
  induction passes with
  | nil =>
      intro c h _
      rw [Client.request]
      exact ⟨h, fun done hdone => absurd hdone List.not_mem_nil⟩
  | cons pass rest ih =>
      intro c h hregular
      obtain ⟨hsound, hpaired⟩ := h.step (hregular pass List.mem_cons_self)
      rw [Client.request]
      generalize c.pass pass = result at hsound hpaired ⊢
      obtain ⟨next, outcome⟩ := result
      have hlast : ∀ done ∈ [(pass, outcome)], Paired done.1 done.2 := by
        intro done hdone
        rw [List.mem_singleton.mp hdone]
        exact hpaired
      cases outcome with
      | failed => exact ⟨hsound, hlast⟩
      | delivered status body => exact ⟨hsound, hlast⟩
      | redirected location =>
          obtain ⟨hsound', hpaired'⟩ := ih hsound fun p hp => hregular p (List.mem_cons_of_mem _ hp)
          refine ⟨hsound', fun done hdone => ?_⟩
          rcases List.mem_cons.mp hdone with rfl | hdone
          · exact hpaired
          · exact hpaired' done hdone

theorem Client.Sound.requests {requests : List (List Pass)} : ∀ {c : Client}, c.Sound →
    (∀ request ∈ requests, ∀ pass ∈ request, pass.Regular) →
    (c.requests requests).1.Sound ∧ ∀ request ∈ (c.requests requests).2, ∀ done ∈ request, Paired done.1 done.2 := by
  induction requests with
  | nil =>
      intro c h _
      rw [Client.requests]
      exact ⟨h, fun request hrequest => absurd hrequest List.not_mem_nil⟩
  | cons request rest ih =>
      intro c h hregular
      obtain ⟨hsound, hpaired⟩ := h.request (hregular request List.mem_cons_self)
      obtain ⟨hsound', hpaired'⟩ := ih hsound fun r hr => hregular r (List.mem_cons_of_mem _ hr)
      refine ⟨hsound', fun r hr => ?_⟩
      rcases List.mem_cons.mp hr with rfl | hr
      · exact hpaired
      · exact hpaired' r hr

/-- `HTTP/1.1 200 OK` with a length of 3. -/
def threeHead : ResponseHead where
  major := 49
  minor := 49
  hundreds := 50
  tens := 48
  units := 48
  reason := ascii " OK"
  fields := [ascii "Content-Length: 3"]
  digits := http200_digits
  reasonChars := okReason_chars
  reasonSpace := okReason_space
  fieldLines := by decide
  lengths line hline _ := by
    rw [List.mem_singleton.mp hline]
    refine ⟨3, by decide, fun other hother _ => ?_⟩
    rw [List.mem_singleton.mp hother]
    decide
  exclusive _ := by decide

/-- `HTTP/1.1 103 Early Hints`. -/
def earlyHead : ResponseHead where
  major := 49
  minor := 49
  hundreds := 49
  tens := 48
  units := 51
  reason := ascii " Early Hints"
  fields := []
  digits := forall_mem_of_all (by decide)
  reasonChars := by decide
  reasonSpace := by decide
  fieldLines := nofun
  lengths := nofun
  exclusive := nofun

/-- The answer of three bytes, behind the interim responses. -/
def threeReply (interim : List ResponseHead) (early : ∀ i ∈ interim, 100 ≤ i.code ∧ i.code < 200) (a b c : UInt8) :
    Reply (some (ascii "GET")) where
  interim := interim
  head := threeHead
  body := [a, b, c]
  decoded := [a, b, c]
  early := early
  final := by decide
  whole := ⟨rfl, rfl⟩
  fits := show 3 < sizeMax by decide

/-- A `GET` of the URL, buffered, with reads of the size. -/
def plainPass (size : Nat) (reply : Reply (some (ascii "GET"))) : Pass where
  target := ⟨ascii "a", ascii "80", ascii "/", false⟩
  method := some (ascii "GET")
  useProxy := false
  disablePool := false
  sink := false
  redirectCount := 0
  reads := fun _ => size
  connects := true
  sends := true
  reply := some reply

theorem plainPass_regular {size : Nat} {reply : Reply (some (ascii "GET"))} (h : reply.interim = []) :
    (plainPass size reply).Regular := by
  intro found hfound
  cases hfound
  exact ⟨h, nofun⟩

/-- Two requests on one connection. -/
def plainRequests : List (List Pass) :=
  [[plainPass 9 (threeReply [] nofun 97 98 99)], [plainPass 100 (threeReply [] nofun 100 101 102)]]

/-- The first answer has an interim response in front, which is read on its own. -/
def earlyRequests : List (List Pass) :=
  [[plainPass 27 (threeReply [earlyHead] (by decide) 97 98 99)], [plainPass 100 (threeReply [] nofun 100 101 102)]]

end Vnt.Net
