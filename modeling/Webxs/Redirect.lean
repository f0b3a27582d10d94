import Webxs.ChunkedOut
import Webxs.Percent
import Webxs.Read
import Webxs.UriParts

/-!
# Following a redirect

`xs_conn_followredirect` (`xs_connection.h`) splits the `Location` of a response, opens a connection
to its host and sends a request for its path. The schemes it accepts are compared with slashes
behind them, which `xs_uri_create` does not keep : a URL with a scheme is never followed
(`followsRedirect_iff`).

The answers of the network are in `Net`. A request is a header that is printed to the new
connection, with the date as a parameter.
-/

namespace Webxs

/-- `exs_Error_BadRedirect`. -/
def Error.BadRedirect : ℤ := -20006

/-- What opening a connection finds outside : `xs_SSL_ready`, the error of `xs_sock_open` for a host
and a port, whether `xs_conn_create`, `xs_SSL_newCTX_client` and `xs_sslize_connect` have a result,
and the socket. -/
structure Net where
  sslReady : Bool
  sockOpen : Option (List UInt8) → ℤ → ℤ
  createOk : Bool
  newCTX : Bool
  sslizeConnect : Bool
  out : Out

/-- A connection that was opened. -/
structure Client where
  host : Option (List UInt8)
  port : ℤ
  isSsl : Bool
  out : Out
  method : List UInt8

/-- The arguments of `xs_conn_open`. -/
structure OpenCall where
  host : Option (List UInt8)
  port : ℤ
  useSsl : Bool
  deriving DecidableEq

/-- `xs_conn_open` : the error, and the connection. -/
def connOpen (net : Net) (call : OpenCall) : ℤ × Option Client :=
  if call.useSsl = true ∧ net.sslReady = false then (-10, none)
  else
    let err := net.sockOpen call.host call.port
    if err ≠ 0 then (err, none)
    else if net.createOk = false then (-108, none)
    else if call.useSsl = true ∧ net.newCTX = false then (-1000, none)
    -- the result of `xs_sslize_connect` is taken for an error
    else if call.useSsl = true ∧ net.sslizeConnect = true then (-1001, none)
    else (0, some ⟨call.host, call.port, call.useSsl, net.out, []⟩)

/-- `xs_server_name`. -/
def serverName : List UInt8 :=
  ascii "webxs/0.5"

/-- `xs_conn_httprequest` : what it returns, and the connection. -/
def connHttprequest (date : List UInt8) (c : Client) (host : Option (List UInt8))
    (method : List UInt8) (path : Option (List UInt8)) : Option (ℤ × Client) :=
  match path with
  | none => some (-50, { c with out.errnum := Error.InvalidRequest })
  | some path =>
    if httpValidmethod method = false then
      some (-1, { c with out.errnum := Error.InvalidRequest })
    else
      let fmt := ascii ("%s %s HTTP/1.1\r\n" ++ "Connection: keep-alive\r\n" ++ "Server: %s\r\n" ++
        "Date: %s\r\n")
      let args := [Arg.str method, .str path, .str serverName, .str date]
      let printed :=
        match host <|> c.host with
        | some host =>
          connPrintfHeader c.out (fmt ++ ascii "Host: %s \r\n") (args ++ [Arg.str host])
        | none => connPrintfHeader c.out fmt args
      printed.map fun (n, out) => (n, { c with out := out, method := method.take 9 })

/-- What following a redirect reads of an `xs_conn`. -/
structure Redirected where
  req : Option HttpReq
  host : Option (List UInt8)
  port : ℤ
  isSsl : Bool
  errnum : ℤ

/-- What `xs_conn_followredirect` returns, and what it leaves in the `errnum` of the connection and
in `*reconn`. -/
structure Followed where
  result : ℤ
  errnum : ℤ
  reconn : Option Client
  /-- History : the connection that it tried to open. -/
  opened : Option OpenCall

/-- The schemes are compared with their slashes. -/
def redirectSchemes : List (List UInt8) :=
  [ascii "http://", ascii "https://", ascii "ws://", ascii "wss://"]

/-- The part of `xs_conn_followredirect` that opens the connection and sends the request. -/
def connFollow (net : Net) (date : List UInt8) (conn : Redirected) (method : List UInt8)
    (call : OpenCall) (path : Option (List UInt8)) : Option Followed :=
  match (connOpen net call).2 with
  | none => some ⟨-10, Error.BadRedirect, none, some call⟩
  | some client =>
    (connHttprequest date client none method path).map fun (n, client) =>
      ⟨n, conn.errnum, some client, some call⟩

/-- `xs_conn_followredirect`; there is no result if the request cannot be printed. -/
def connFollowredirect (net : Net) (date : List UInt8) (conn : Redirected) (method : List UInt8) :
    Option Followed :=
  match conn.req.bind fun req => httpGetheader req (ascii "Location") with
  | none => some ⟨-1, Error.BadRedirect, none, none⟩
  | some h =>
    (uriCreate h 0).bind fun uri =>
      match uri with
      | none => some ⟨-50, Error.BadRedirect, none, none⟩
      | some (uri, m) =>
        let u := uri.strings m
        if u.protocol.any (fun p => !redirectSchemes.any (eqCase p)) = true then
          some ⟨-50, Error.BadRedirect, none, none⟩
        else
          let call : OpenCall :=
            { host := u.host <|> conn.host
              port := if u.port ≠ 0 then u.port else conn.port
              useSsl := u.protocol.elim conn.isSsl fun p =>
                eqCase p (ascii "https://") || eqCase p (ascii "wss://") }
          connFollow net date conn method call u.path

/-! ## What a redirect asks for -/

/-- A scheme that can be followed. -/
def KnownScheme (p : List UInt8) : Prop :=
  [ascii "http", ascii "https", ascii "ws", ascii "wss"].any (eqCase p) = true

instance (p : List UInt8) : Decidable (KnownScheme p) :=
  inferInstanceAs (Decidable (_ = true))

/-- The connection that the parts `u` of a location ask for. -/
def UriParts.target (u : UriParts) (conn : Redirected) : OpenCall where
  host := u.host <|> conn.host
  port := if u.port ≠ 0 then u.port else conn.port
  useSsl := u.protocol.elim conn.isSsl fun p => eqCase p (ascii "https") || eqCase p (ascii "wss")

/-- A location with an unknown scheme is rejected. For every other one the connection it asks for
is opened, and the request for its path is sent there. -/
@[irreducible] def FollowsRedirect (net : Net) (date : List UInt8) (conn : Redirected)
    (method value : List UInt8) : Prop :=
  let u := uriSplit value 0
  if u.protocol.any (fun p => !decide (KnownScheme p)) = true then
    connFollowredirect net date conn method = some ⟨-50, Error.BadRedirect, none, none⟩
  else
    connFollowredirect net date conn method =
      match (connOpen net (u.target conn)).2 with
      | none => some ⟨-10, Error.BadRedirect, none, some (u.target conn)⟩
      | some client =>
        (connHttprequest date client none method u.path).map fun (n, client) =>
          ⟨n, conn.errnum, some client, some (u.target conn)⟩

/-! ## The schemes -/

variable {p t value : List UInt8}

theorem lower_eq_slash : ∀ a : UInt8, lower a = 47 → a = 47 :=
  forall_byte (by decide +kernel)

/-- A text with a slash is compared equal only to one with a slash. -/
theorem slash_mem_of_eqCase (h : eqCase p t = true) (ht : 47 ∈ t) : 47 ∈ p := by
  have hmap : p.map lower = t.map lower := by simpa [eqCase] using h
  have hmem : lower 47 ∈ p.map lower := hmap ▸ List.mem_map_of_mem ht
  obtain ⟨a, ha, heq⟩ := List.mem_map.mp hmem
  exact lower_eq_slash a heq ▸ ha

/-- A scheme is in front of the first slash, or that of a drive letter. -/
theorem splitProtocol_protocol (h : p ∈ (splitProtocol value).1.protocol) :
    47 ∉ p ∨ p = ascii "file://" := by
  unfold splitProtocol at h
  dsimp only at h
  split_ifs at h
  · cases h
  · left
    cases h
    intro hmem
    obtain ⟨i, hi, heq⟩ := List.mem_iff_getElem.mp hmem
    rw [List.length_take] at hi
    rw [List.getElem_take] at heq
    have hstop := List.not_of_lt_findIdx (lt_of_lt_of_le hi (min_le_left _ _))
    rw [heq] at hstop
    exact absurd hstop (by decide)
  · cases h
    exact .inr rfl
  · cases h

namespace UriParts

variable (u : UriParts) (str : List UInt8)

theorem splitHost_protocol (forceHost : ℤ) :
    (u.splitHost str forceHost).1.protocol = u.protocol := by
  unfold splitHost
  split_ifs
  · split
    · unfold splitAddress
      dsimp only
      split_ifs <;> rfl
    · unfold splitName splitPort
      dsimp only
      split_ifs <;> rfl
  · rfl

theorem splitPath_protocol : (u.splitPath str).1.protocol = u.protocol := by
  unfold splitPath
  dsimp only
  split_ifs <;> rfl

theorem splitQuery_protocol : (u.splitQuery str).1.protocol = u.protocol := by
  unfold splitQuery
  dsimp only
  split_ifs <;> rfl

theorem splitHash_protocol : (u.splitHash str).1.protocol = u.protocol := by
  unfold splitHash
  dsimp only
  split_ifs <;> rfl

end UriParts

theorem uriSplit_protocol (value : List UInt8) :
    (uriSplit value 0).protocol = (splitProtocol value).1.protocol := by
  unfold uriSplit
  dsimp only
  rw [UriParts.splitHash_protocol, UriParts.splitQuery_protocol, UriParts.splitPath_protocol,
    UriParts.splitHost_protocol, UriParts.resetProtocol,
    if_neg fun h => absurd h.1 (by decide)]

/-- No scheme is accepted. -/
theorem not_redirectScheme (h : p ∈ (uriSplit value 0).protocol) :
    redirectSchemes.any (eqCase p) = false := by
  rw [uriSplit_protocol] at h
  have hslashes : ∀ t ∈ redirectSchemes, 47 ∈ t := by decide
  rcases splitProtocol_protocol h with hslash | rfl
  · exact List.any_eq_false.mpr fun t ht heq => hslash (slash_mem_of_eqCase heq (hslashes t ht))
  · decide

/-! ## Which locations are followed -/

variable {net : Net} {date method : List UInt8} {conn : Redirected} {req : HttpReq}

/-- What the code does with a location, by its parts. -/
theorem connFollowredirect_eq (hreq : conn.req = some req)
    (hloc : httpGetheader req (ascii "Location") = some value) (hne : value ≠ []) :
    connFollowredirect net date conn method =
      if (uriSplit value 0).protocol.isSome = true then
        some ⟨-50, Error.BadRedirect, none, none⟩
      else
        connFollow net date conn method ((uriSplit value 0).target conn)
          (uriSplit value 0).path := by
  have h0 : 0 ∉ value := by
    unfold httpGetheader at hloc
    obtain ⟨h, -, rfl⟩ := Option.map_eq_some_iff.mp hloc
    exact (cstr_spec req.buf h.2).1
  obtain ⟨uri, m, huri, hparts⟩ := uriCreate_spec h0 hne 0
  have hnone : ∀ p, p ∈ (uriSplit value 0).protocol → redirectSchemes.any (eqCase p) = false :=
    fun p hp => not_redirectScheme hp
  unfold connFollowredirect
  rw [hreq, Option.bind_some, hloc]
  dsimp only
  rw [huri, Option.bind_some]
  dsimp only
  rw [hparts]
  generalize uriSplit value 0 = u at *
  cases hp : u.protocol with
  | none =>
    simp only [Option.any_none, Option.isSome_none, Bool.false_eq_true, if_false]
    rw [UriParts.target, hp]
    rfl
  | some p =>
    rw [if_pos (by rw [Option.any_some, hnone p hp]; rfl)]
    rfl

/-- A location with a known scheme is rejected like any other. -/
theorem not_followsRedirect_of_known (hreq : conn.req = some req)
    (hloc : httpGetheader req (ascii "Location") = some value) (hne : value ≠ [])
    (hp : p ∈ (uriSplit value 0).protocol) (hknown : KnownScheme p) :
    ¬FollowsRedirect net date conn method value := by
  intro h
  unfold FollowsRedirect at h
  dsimp only at h
  rw [connFollowredirect_eq hreq hloc hne] at h
  generalize uriSplit value 0 = u at *
  rw [Option.mem_def.mp hp, Option.any_some, Option.isSome_some, if_pos rfl,
    decide_eq_true hknown, if_neg (by decide)] at h
  cases hopen : (connOpen net (u.target conn)).2 with
  | none =>
    rw [hopen] at h
    cases h
  | some client =>
    rw [hopen] at h
    obtain ⟨r, -, hr⟩ := Option.map_eq_some_iff.mp h.symm
    cases congrArg Followed.opened hr

/-- A location is followed as it should be if and only if it has none of the known schemes. -/
theorem followsRedirect_iff (hreq : conn.req = some req)
    (hloc : httpGetheader req (ascii "Location") = some value) (hne : value ≠ []) :
    FollowsRedirect net date conn method value ↔
      ∀ p ∈ (uriSplit value 0).protocol, ¬KnownScheme p := by
  constructor
  · intro h p hp hknown
    exact absurd h (not_followsRedirect_of_known hreq hloc hne hp hknown)
  intro h
  unfold FollowsRedirect
  dsimp only
  rw [connFollowredirect_eq hreq hloc hne]
  generalize uriSplit value 0 = u at *
  cases hp : u.protocol with
  | none => rfl
  | some p =>
    rw [Option.any_some, Option.isSome_some, if_pos rfl, decide_eq_false (h p hp),
      if_pos (by decide)]

/-- A response with a location. -/
def locationReq (value : List UInt8) : HttpReq :=
  { HttpReq.alloc 0 0 with buf := ascii "Location" ++ 0 :: (value ++ [0]), headers := [(0, 9)] }

/-- A connection that got it. -/
def locationConn (value : List UInt8) : Redirected :=
  ⟨some (locationReq value), some (ascii "old"), 80, false, 0⟩

/-- A network that nothing fails in. -/
def goodNet : Net :=
  ⟨true, fun _ _ => 0, true, true, false, (Writer.init (fun _ => .accept 100) fun _ => true).out⟩

theorem followsRedirect_iff_relative :
    FollowsRedirect goodNet [] (locationConn (ascii "/new")) (ascii "GET") (ascii "/new") ↔
      ∀ p ∈ (uriSplit (ascii "/new") 0).protocol, ¬KnownScheme p :=
  followsRedirect_iff (rfl : _ = some (locationReq (ascii "/new"))) (by decide) (by decide)

/-- An absolute location is not followed. -/
theorem not_followsRedirect_http :
    ¬FollowsRedirect goodNet [] (locationConn (ascii "http://new/x")) (ascii "GET")
      (ascii "http://new/x") :=
  not_followsRedirect_of_known (rfl : _ = some (locationReq (ascii "http://new/x"))) (by decide)
    (by decide) (by decide : ascii "http" ∈ _) (by decide)

end Webxs
