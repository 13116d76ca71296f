import PassVault.Lib.Percent
import PassVault.Signaling.RateLimit
import PassVault.Signaling.Rooms
import PassVault.Signaling.ShortCodes

/-!
# The HTTP requests

The request handler of `startSignalingServer` (`apps/signaling/src/index.ts`) with `readJsonBody`.
Requests are numbered in the order they come. The headers of a reply are left out; they are the same
for all of them.
-/

namespace PassVault

open Machine

/-- A request, and what `clientKey` makes of it. -/
structure HttpRequest where
  method : String
  url : String
  client : String
deriving DecidableEq, Repr

/-- What a reply says in its JSON. -/
inductive HttpBody where
  | health (rooms now : Nat)
  | room (roomId : RoomId) (inviteToken : String)
  | code (issued : IssuedShortCode)
  | offer (offer : String)
  | error (message : String)
deriving DecidableEq, Repr

structure HttpReply where
  status : Nat
  body : Option HttpBody
deriving DecidableEq, Repr

/-- What escapes from the handler. -/
inductive HttpEscape where
  /-- `decodeURIComponent` throws. -/
  | uriError
  /-- `readJsonBody` is rejected. -/
  | aborted
deriving DecidableEq, Repr

/-- A request and what has come of it. -/
structure Exchange where
  replies : List HttpReply
  /-- The body so far, while it is read. -/
  reading : Option (List UInt8)
  /-- The connection has been destroyed. -/
  gone : Bool
  escaped : Option HttpEscape
deriving DecidableEq, Repr

structure HttpServer where
  registry : RoomRegistry
  shortCodes : ShortCodeRegistry
  roomLimiter : RateLimiter String
  codeLimiter : RateLimiter String
  exchanges : List Exchange

/-- What happens to the requests. Times are in milliseconds. -/
inductive HttpEvent where
  /-- `roomId` and `inviteToken` are drawn when they are needed. -/
  | request (request : HttpRequest) (now : Nat) (roomId : RoomId) (inviteToken : String)
  /-- A part of a body arrives. -/
  | chunk (i : Nat) (bytes : List UInt8)
  /-- A body is complete. The draws are for its code. -/
  | ended (i : Nat) (now later : Nat) (draws : List Draw)
  /-- The client goes away. -/
  | aborted (i : Nat)

def codeLimits : RateLimits := ⟨60, 2, by norm_num, by norm_num⟩

namespace Exchange

def reply (status : Nat) (body : HttpBody) : Exchange := ⟨[⟨status, some body⟩], none, false, none⟩

end Exchange

namespace HttpServer

def maxBodyBytes : Nat := 8192

def start : HttpServer := ⟨.empty, .empty, .empty, .empty, []⟩

def codePath : List Char := "/pairing-codes/".toList

/-- The code in the path of a request for its offer, as it is escaped there. -/
def escapedCode (request : HttpRequest) : Option (List Char) :=
  if request.method = "GET" ∧ codePath.isPrefixOf request.url.toList then
    some (request.url.toList.drop codePath.length)
  else none

def admitsCode (request : HttpRequest) (now : Nat) (s : HttpServer) : Bool :=
  (s.codeLimiter.take codeLimits request.client now).2

def onCreateRoom (request : HttpRequest) (now : Nat) (roomId : RoomId) (inviteToken : String)
    (s : HttpServer) : HttpServer × Exchange :=
  let (roomLimiter, admitted) := s.roomLimiter.take RateHistory.roomLimits request.client now
  let s := { s with roomLimiter }
  if admitted then
    match s.registry.createRoom now roomId inviteToken with
    | (registry, .ok (roomId, inviteToken)) =>
      ({ s with registry }, .reply 201 (.room roomId inviteToken))
    | (registry, .error _) => ({ s with registry }, .reply 503 (.error "the server is at capacity"))
  else (s, .reply 429 (.error "too many requests"))

/-- The reply comes when the body has been read. -/
def onIssue (request : HttpRequest) (now : Nat) (s : HttpServer) : HttpServer × Exchange :=
  let (codeLimiter, admitted) := s.codeLimiter.take codeLimits request.client now
  let s := { s with codeLimiter }
  if admitted then (s, ⟨[], some [], false, none⟩)
  else (s, .reply 429 (.error "too many requests"))

def onRedeem (u : UpperCase) (escaped : List Char) (request : HttpRequest) (now : Nat)
    (s : HttpServer) : HttpServer × Exchange :=
  let (codeLimiter, admitted) := s.codeLimiter.take codeLimits request.client now
  let s := { s with codeLimiter }
  if admitted then
    match Percent.decodeURIComponent escaped with
    | none => (s, ⟨[], none, false, some .uriError⟩)
    | some code =>
      match s.shortCodes.redeem u (String.ofList code) now with
      | (shortCodes, none) =>
        ({ s with shortCodes }, .reply 404 (.error "That code is not valid. Ask for a new one."))
      | (shortCodes, some offer) => ({ s with shortCodes }, .reply 200 (.offer offer))
  else (s, .reply 429 (.error "too many requests"))

def onRequest (u : UpperCase) (request : HttpRequest) (now : Nat) (roomId : RoomId)
    (inviteToken : String) (s : HttpServer) : HttpServer × Exchange :=
  if request.method = "OPTIONS" then (s, ⟨[⟨204, none⟩], none, false, none⟩)
  else if request.method = "GET" ∧ request.url = "/health" then
    (s, .reply 200 (.health s.registry.size now))
  else if request.method = "POST" ∧ request.url = "/rooms" then
    s.onCreateRoom request now roomId inviteToken
  else if request.method = "POST" ∧ request.url = "/pairing-codes" then s.onIssue request now
  else
    match escapedCode request with
    | some escaped => s.onRedeem u escaped request now
    | none => (s, .reply 404 (.error "not found"))

def setExchange (i : Nat) (exchange : Exchange) (s : HttpServer) : HttpServer :=
  { s with exchanges := s.exchanges.set i exchange }

def noOffer : HttpReply := ⟨400, some (.error "expected an offer string")⟩

/-- A body that is too large is not read to its end, and its connection is destroyed. -/
def onChunk (i : Nat) (bytes : List UInt8) (exchange : Exchange) (s : HttpServer) : HttpServer :=
  match exchange.reading with
  | none => s
  | some body =>
    if maxBodyBytes < (body ++ bytes).length then
      s.setExchange i
        { exchange with replies := exchange.replies ++ [noOffer], reading := none, gone := true }
    else s.setExchange i { exchange with reading := some (body ++ bytes) }

/-- `offerOf` is the string that a body has as its `offer`, if it is JSON with one. The draws may not
be enough. -/
def onEnded (offerOf : List UInt8 → Option String) (i now later : Nat) (draws : List Draw)
    (exchange : Exchange) (s : HttpServer) : Option HttpServer :=
  match exchange.reading with
  | none => some s
  | some body =>
    let finish (reply : HttpReply) : Exchange :=
      { exchange with replies := exchange.replies ++ [reply], reading := none }
    match offerOf body with
    | none => some (s.setExchange i (finish noOffer))
    | some offer =>
      (s.shortCodes.issue offer now later draws).map fun
        | (shortCodes, .ok issued) =>
          { s with shortCodes }.setExchange i (finish ⟨201, some (.code issued)⟩)
        | (shortCodes, .error error) =>
          { s with shortCodes }.setExchange i (finish ⟨503, some (.error error.message)⟩)

def onAborted (i : Nat) (exchange : Exchange) (s : HttpServer) : HttpServer :=
  if exchange.reading.isSome then
    s.setExchange i { exchange with reading := none, gone := true, escaped := some .aborted }
  else s.setExchange i { exchange with gone := true }

def step (u : UpperCase) (offerOf : List UInt8 → Option String) (s : HttpServer) :
    HttpEvent → Option HttpServer
  | .request request now roomId inviteToken =>
    let (s, exchange) := s.onRequest u request now roomId inviteToken
    some { s with exchanges := s.exchanges ++ [exchange] }
  | .chunk i bytes => s.exchanges[i]?.map fun exchange => s.onChunk i bytes exchange
  | .ended i now later draws =>
    s.exchanges[i]?.bind fun exchange => s.onEnded offerOf i now later draws exchange
  | .aborted i => s.exchanges[i]?.map fun exchange => s.onAborted i exchange

end HttpServer

/-! ## Replies -/

namespace Exchange

/-- Nothing has escaped, and there is one reply, unless the connection is gone or a body is read. -/
structure Answered (exchange : Exchange) : Prop where
  contained : exchange.escaped = none
  once : exchange.replies.length ≤ 1
  answered : exchange.reading.isSome ∨ exchange.replies.length = 1 ∨ exchange.gone = true

/-- There is no reply while a body is read. -/
structure Steady (exchange : Exchange) : Prop extends Answered exchange where
  waits : exchange.reading.isSome → exchange.replies = []

theorem steady_reply (status : Nat) (body : HttpBody) : (reply status body).Steady :=
  ⟨⟨rfl, Nat.le_refl 1, .inr (.inl rfl)⟩, nofun⟩

variable {exchange : Exchange}

/-- The reply to a body. -/
theorem Steady.finish (hs : exchange.Steady) (hreading : exchange.reading.isSome) (reply : HttpReply)
    (gone : Bool) : Steady
      { exchange with replies := exchange.replies ++ [reply], reading := none, gone := gone } := by
  rw [hs.waits hreading]
  exact ⟨⟨hs.contained, Nat.le_refl 1, .inr (.inl rfl)⟩, nofun⟩

end Exchange

namespace HttpServer

variable {u : UpperCase} {offerOf : List UInt8 → Option String} {s t : HttpServer}

/-- Every request is answered, and none has brought the server down. -/
def AllAnswered (s : HttpServer) : Prop := ∀ exchange ∈ s.exchanges, exchange.Answered

def AllSteady (s : HttpServer) : Prop := ∀ exchange ∈ s.exchanges, exchange.Steady

/-- The code in the path of an admitted request is well escaped, and nobody goes away while a body is
read. -/
def Harmless (s : HttpServer) : HttpEvent → Prop
  | .request request now _ _ => ∀ escaped, escapedCode request = some escaped →
      s.admitsCode request now → (Percent.decodeURIComponent escaped).isSome
  | .aborted i => ∀ exchange, s.exchanges[i]? = some exchange → exchange.reading = none
  | _ => True

theorem onRequest_of_escapedCode {request : HttpRequest} {escaped : List Char}
    (h : escapedCode request = some escaped) (now : Nat) (roomId : RoomId) (inviteToken : String) :
    s.onRequest u request now roomId inviteToken = s.onRedeem u escaped request now := by
  have hguard : request.method = "GET" ∧ codePath.isPrefixOf request.url.toList := by
    by_contra hguard
    rw [escapedCode, if_neg hguard] at h
    cases h
  have hurl : request.url ≠ "/health" := by
    intro hurl
    rw [hurl] at hguard
    exact absurd hguard.2 (by decide)
  simp only [onRequest, hguard.1, hurl, h]
  simp

theorem exchanges_onCreateRoom (request : HttpRequest) (now : Nat) (roomId : RoomId)
    (inviteToken : String) (s : HttpServer) :
    (s.onCreateRoom request now roomId inviteToken).1.exchanges = s.exchanges ∧
      (s.onCreateRoom request now roomId inviteToken).2.Steady := by
  unfold onCreateRoom
  dsimp only
  split
  · split
    · exact ⟨rfl, Exchange.steady_reply _ _⟩
    · exact ⟨rfl, Exchange.steady_reply _ _⟩
  · exact ⟨rfl, Exchange.steady_reply _ _⟩

theorem exchanges_onIssue (request : HttpRequest) (now : Nat) (s : HttpServer) :
    (s.onIssue request now).1.exchanges = s.exchanges ∧ (s.onIssue request now).2.Steady := by
  unfold onIssue
  dsimp only
  split
  · exact ⟨rfl, ⟨rfl, Nat.zero_le 1, .inl rfl⟩, fun _ => rfl⟩
  · exact ⟨rfl, Exchange.steady_reply _ _⟩

/-- A request for an offer is answered exactly when its code can be decoded or it is refused. -/
theorem exchanges_onRedeem (u : UpperCase) (escaped : List Char) (request : HttpRequest) (now : Nat)
    (s : HttpServer) : (s.onRedeem u escaped request now).1.exchanges = s.exchanges ∧
      if s.admitsCode request now ∧ Percent.decodeURIComponent escaped = none then
        (s.onRedeem u escaped request now).2.escaped = some .uriError
      else (s.onRedeem u escaped request now).2.Steady := by
  unfold onRedeem admitsCode
  dsimp only
  cases hadmitted : (s.codeLimiter.take codeLimits request.client now).2 with
  | false => exact ⟨rfl, Exchange.steady_reply _ _⟩
  | true =>
    cases hcode : Percent.decodeURIComponent escaped with
    | none => exact ⟨rfl, rfl⟩
    | some code =>
      cases hredeem : s.shortCodes.redeem u (String.ofList code) now with
      | mk shortCodes offer =>
        cases offer with
        | none => exact ⟨by simp [hredeem], by simpa [hredeem] using Exchange.steady_reply _ _⟩
        | some offer => exact ⟨by simp [hredeem], by simpa [hredeem] using Exchange.steady_reply _ _⟩

theorem exchanges_onRequest (request : HttpRequest) (now : Nat) (roomId : RoomId)
    (inviteToken : String) (hnone : escapedCode request = none) (s : HttpServer) :
    (s.onRequest u request now roomId inviteToken).1.exchanges = s.exchanges ∧
      (s.onRequest u request now roomId inviteToken).2.Steady := by
  unfold onRequest
  split
  · exact ⟨rfl, ⟨rfl, Nat.le_refl 1, .inr (.inl rfl)⟩, nofun⟩
  · split
    · exact ⟨rfl, Exchange.steady_reply _ _⟩
    · split
      · exact exchanges_onCreateRoom request now roomId inviteToken s
      · split
        · exact exchanges_onIssue request now s
        · rw [hnone]
          exact ⟨rfl, Exchange.steady_reply _ _⟩

theorem steady_setExchange (hs : s.AllSteady) (i : Nat) {exchange : Exchange}
    (h : exchange.Steady) : (s.setExchange i exchange).AllSteady := by
  intro exchange' hmem
  rcases List.mem_or_eq_of_mem_set hmem with hmem | rfl
  · exact hs exchange' hmem
  · exact h

theorem steady_onChunk (hs : s.AllSteady) {i : Nat} (bytes : List UInt8) {exchange : Exchange}
    (h : exchange.Steady) : (s.onChunk i bytes exchange).AllSteady := by
  unfold onChunk
  split
  · exact hs
  · rename_i body hreading
    have hsome : exchange.reading.isSome := by rw [hreading]; rfl
    split
    · exact steady_setExchange hs i (h.finish hsome noOffer true)
    · refine steady_setExchange hs i ⟨⟨h.contained, h.once, .inl rfl⟩, fun _ => h.waits hsome⟩

theorem steady_onEnded (hs : s.AllSteady) {i now later : Nat} {draws : List Draw}
    {exchange : Exchange} (h : exchange.Steady)
    (hstep : s.onEnded offerOf i now later draws exchange = some t) : t.AllSteady := by
  unfold onEnded at hstep
  split at hstep
  · cases hstep
    exact hs
  · rename_i body hreading
    have hsome : exchange.reading.isSome := by rw [hreading]; rfl
    dsimp only at hstep
    split at hstep
    · cases hstep
      exact steady_setExchange hs i (h.finish hsome noOffer exchange.gone)
    · obtain ⟨⟨shortCodes, result⟩, -, rfl⟩ := Option.map_eq_some_iff.mp hstep
      cases result with
      | ok issued => exact steady_setExchange (s := { s with shortCodes }) hs i (h.finish hsome _ _)
      | error error => exact steady_setExchange (s := { s with shortCodes }) hs i (h.finish hsome _ _)

theorem steady_onAborted (hs : s.AllSteady) {i : Nat} {exchange : Exchange} (h : exchange.Steady)
    (hreading : exchange.reading = none) : (s.onAborted i exchange).AllSteady := by
  rw [onAborted, hreading, if_neg (by simp)]
  exact steady_setExchange hs i ⟨⟨h.contained, h.once, .inr (.inr rfl)⟩, nofun⟩

/-- A harmless event leaves every request answered. -/
theorem steady_step (hs : s.AllSteady) {event : HttpEvent} (hharmless : s.Harmless event)
    (h : step u offerOf s event = some t) : t.AllSteady := by
  cases event with
  | request request now roomId inviteToken =>
    cases h
    have hkept : (s.onRequest u request now roomId inviteToken).1.exchanges = s.exchanges ∧
        (s.onRequest u request now roomId inviteToken).2.Steady := by
      cases hcode : escapedCode request with
      | none => exact exchanges_onRequest request now roomId inviteToken hcode s
      | some escaped =>
        have hredeem := exchanges_onRedeem u escaped request now s
        rw [onRequest_of_escapedCode hcode]
        refine ⟨hredeem.1, ?_⟩
        rw [if_neg] at hredeem
        · exact hredeem.2
        · rintro ⟨hadmits, hthrows⟩
          have hdecoded := hharmless escaped hcode hadmits
          rw [hthrows] at hdecoded
          cases hdecoded
    intro exchange hmem
    rcases List.mem_append.mp hmem with hmem | hmem
    · exact hs exchange (hkept.1 ▸ hmem)
    · exact List.mem_singleton.mp hmem ▸ hkept.2
  | chunk i bytes =>
    obtain ⟨exchange, hexchange, rfl⟩ := Option.map_eq_some_iff.mp h
    exact steady_onChunk hs bytes (hs _ (List.mem_of_getElem? hexchange))
  | ended i now later draws =>
    obtain ⟨exchange, hexchange, hended⟩ := Option.bind_eq_some_iff.mp h
    exact steady_onEnded hs (hs _ (List.mem_of_getElem? hexchange)) hended
  | aborted i =>
    obtain ⟨exchange, hexchange, rfl⟩ := Option.map_eq_some_iff.mp h
    exact steady_onAborted hs (hs _ (List.mem_of_getElem? hexchange))
      (hharmless exchange hexchange)

/-- Where every request is answered, the event was harmless. -/
theorem harmless_of_allAnswered {event : HttpEvent}
    (h : ∀ t, step u offerOf s event = some t → t.AllAnswered) : s.Harmless event := by
  cases event with
  | request request now roomId inviteToken =>
    intro escaped hcode hadmits
    by_contra hthrows
    rw [Option.not_isSome_iff_eq_none] at hthrows
    have hredeem := (exchanges_onRedeem u escaped request now s).2
    rw [if_pos ⟨hadmits, hthrows⟩, ← onRequest_of_escapedCode hcode now roomId inviteToken] at hredeem
    have hanswered := h _ rfl _ (List.mem_append_right _ (List.mem_singleton.mpr rfl))
    exact nomatch hanswered.contained.symm.trans hredeem
  | aborted i =>
    intro exchange hexchange
    by_contra hreading
    have hsome := Option.isSome_iff_ne_none.mpr hreading
    have hall := h _ (Option.map_eq_some_iff.mpr ⟨exchange, hexchange, rfl⟩)
    rw [onAborted, if_pos hsome] at hall
    have hlt := (List.getElem?_eq_some_iff.mp hexchange).1
    have hcontained := (hall _ (List.mem_set hlt _)).contained
    cases hcontained
  | chunk | ended => trivial

/-- Every request is answered and none can bring the server down, as long as no code is badly escaped
and nobody goes away while a body is read. -/
theorem allAnswered_iff_harmless (u : UpperCase) (offerOf : List UInt8 → Option String)
    (events : List HttpEvent) :
    Meets (step u offerOf) (fun s event => ∀ t, step u offerOf s event = some t → t.AllAnswered)
        start events ↔
      Meets (step u offerOf) Harmless start events := by
  refine meets_congr (P := AllSteady) (fun s event hs => ⟨harmless_of_allAnswered, ?_⟩)
    (fun s event t hs hharmless h => steady_step hs hharmless h) nofun
  intro hharmless t h exchange hmem
  exact (steady_step hs hharmless h exchange hmem).toAnswered

/-- A request for the offer of a code that is a percent sign. -/
def percentSign : HttpEvent := .request ⟨"GET", "/pairing-codes/%", "client"⟩ 0 ⟨"r"⟩ "t"

/-- It is not answered, and an exception escapes from the handler. -/
theorem percentSign_unanswered : ¬ ∀ (u : UpperCase) (offerOf : List UInt8 → Option String)
    (events : List HttpEvent), Meets (step u offerOf)
      (fun s event => ∀ t, step u offerOf s event = some t → t.AllAnswered) start events := by
  intro hall
  have hmeets := hall CodeHistory.asciiCase (fun _ => none) [percentSign]
  have hharmless : start.Harmless percentSign := harmless_of_allAnswered hmeets.1
  have hdecoded := hharmless "%".toList (by decide +kernel) (by decide +kernel)
  revert hdecoded
  decide +kernel

end HttpServer

end PassVault
