import Webxs.HeadFields
import Webxs.LogRecord
import Webxs.Redirect
import Webxs.ServerLoop
import Webxs.TargetParts

/-!
# Fetching files

The loop of `perform_get` (`webxs.c`) writes one request behind the other when `gpipeline` is set :
the head that `xs_conn_httprequest` prints, and the empty line of `xs_conn_header_done`. The server
at the other end answers each of them, in order and without ending the connection, with the file
at the decoded path, however the bytes are split on the way (`fetches_served`).
-/

namespace Webxs

/-! ## The source -/

/-- A request for `path`, written when `xs_timestr_now` is `date`. -/
structure Fetch where
  date : List UInt8
  method : List UInt8
  path : List UInt8

/-- `xs_conn_header_done`. -/
def connHeaderDone (o : Out) (hasBody : Bool) : ℕ × Out :=
  connWrite false o [13, 10] hasBody

/-- One turn of the loop of `perform_get`; `err` keeps the first error. -/
def performGet (host : List UInt8) (f : Fetch) (err : ℤ) (c : Client) : Option (ℤ × Client) :=
  (connHttprequest f.date c (some host) f.method (some f.path)).map fun (_, c) =>
    let err := if err = 0 then c.out.errnum else err
    let c := { c with out := (connHeaderDone c.out false).2 }
    (if err = 0 then c.out.errnum else err, c)

/-- The loop, with `gpipeline` set. -/
def performGets (host : List UInt8) : List Fetch → ℤ → Client → Option (ℤ × Client)
  | [], err, c => some (err, c)
  | f :: fs, err, c =>
    (performGet host f err c).bind fun (err, c) =>
      if err = Error.WriteBusy then some (err, c) else performGets host fs err c

/-! ## What is printed -/

variable {host : List UInt8} {f : Fetch}

/-- The head of a request. -/
def Fetch.head (host : List UInt8) (f : Fetch) : RequestHead where
  method := f.method
  target := f.path
  version := ascii "1.1"
  headers := [⟨ascii "Connection", ascii "keep-alive"⟩, ⟨ascii "Server", serverName⟩,
    ⟨ascii "Date", f.date⟩, ⟨ascii "Host", host ++ [32]⟩]

/-- The items of the format of a request. -/
def Fetch.items (host : List UInt8) (f : Fetch) : List Item :=
  let str (p : List UInt8) : Item := .str false 0 (-1) 4 p
  [str f.method, .text (ascii " "), str f.path,
    .text (ascii " HTTP/1.1\r\nConnection: keep-alive\r\nServer: "), str serverName,
    .text (ascii "\r\nDate: "), str f.date, .text (ascii "\r\nHost: "), str host,
    .text (ascii " \r\n")]

theorem Fetch.matches (host : List UInt8) (f : Fetch) :
    Matches (ascii ("%s %s HTTP/1.1\r\n" ++ "Connection: keep-alive\r\n" ++ "Server: %s\r\n" ++
      "Date: %s\r\n") ++ ascii "Host: %s \r\n")
      ([Arg.str f.method, .str f.path, .str serverName, .str f.date] ++ [Arg.str host])
      (f.items host) :=
  .cons (by decide) rfl <| .cons (by decide) rfl <| .cons (by decide) rfl <|
  .cons (by decide) rfl <| .cons (by decide) rfl <| .cons (by decide) rfl <|
  .cons (by decide) rfl <| .cons (by decide) rfl <| .cons (by decide) rfl <|
  .cons (by decide) rfl <| .nil _

/-- What is printed is the head without its last line end. -/
theorem Fetch.rendering_items (host : List UInt8) (f : Fetch) :
    rendering ((f.items host).map Item.capped) ++ [13, 10] = (f.head host).bytes := by
  have hstr : ∀ p, (Item.str false 0 (-1) 4 p).capped.rendered = p := Logger.rendered_name
  have htext : ∀ l, (Item.text l).capped.rendered = l := fun _ => rfl
  have hserver : ascii " HTTP/1.1\r\nConnection: keep-alive\r\nServer: " =
      32 :: (ascii "HTTP/" ++ (ascii "1.1" ++ 13 :: 10 :: (ascii "Connection" ++ 58 :: 32 ::
        (ascii "keep-alive" ++ 13 :: 10 :: (ascii "Server" ++ [58, 32]))))) := rfl
  have hdate : ascii "\r\nDate: " = 13 :: 10 :: (ascii "Date" ++ [58, 32]) := rfl
  have hhost : ascii "\r\nHost: " = 13 :: 10 :: (ascii "Host" ++ [58, 32]) := rfl
  have hline : ascii " \r\n" = [32, 13, 10] := rfl
  have hblank : ascii " " = [32] := rfl
  simp only [items, List.map_cons, List.map_nil, rendering, List.flatMap_cons, List.flatMap_nil,
    hstr, htext, hserver, hdate, hhost, hline, hblank, head, RequestHead.bytes, RequestHead.lines,
    HeaderLine.bytes]
  simp only [List.append_assoc, List.cons_append, List.nil_append]

/-- Nothing goes wrong on a connection that takes everything. -/
theorem printed_errnum {o : Out} (blocks : List (List UInt8)) (h : o.AcceptsAll)
    (he : o.errnum = 0) : (o.printed blocks).errnum = 0 := by
  induction blocks generalizing o with
  | nil => exact he
  | cons block blocks ih =>
    obtain ⟨o', hw, htook, herr⟩ := connWrite_took_errnum block true h
    rw [show o.printed (block :: blocks) = o'.printed blocks by simp [Out.printed, hw]]
    exact ih htook.accepts herr

theorem connPrintfHeader_errnum {o o' : Out} {fmt : List UInt8} {ap : List Arg} {n : ℤ}
    (h : o.AcceptsAll) (he : o.errnum = 0) (hp : connPrintfHeader o fmt ap = some (n, o')) :
    o'.errnum = 0 := by
  unfold connPrintfHeader connSprintf at hp
  split_ifs at hp
  · obtain rfl := congrArg Prod.snd (Option.some.inj hp)
    exact he
  · obtain ⟨p, -, hp⟩ := Option.map_eq_some_iff.mp hp
    obtain rfl := congrArg Prod.snd hp
    exact printed_errnum p.blocks h he

/-- A request on a connection that takes everything is written whole. -/
theorem performGet_took {c : Client} (hc : c.out.AcceptsAll) (he : c.out.errnum = 0)
    (hmethod : httpValidmethod f.method = true) (hlen : (f.head host).bytes.length < 2 ^ 31) :
    ∃ c', performGet host f 0 c = some (0, c') ∧ Took c.out (f.head host).bytes c'.out ∧
      c'.out.errnum = 0 := by
  have htext := f.rendering_items host
  have hlength := congrArg List.length htext
  rw [List.length_append, List.length_cons, List.length_singleton] at hlength
  obtain ⟨o, hprint, hhead⟩ := connPrintfHeader_took hc (by decide) (f.matches host) rfl
    (by omega)
  obtain ⟨o', hwrite, hline, hzero'⟩ := connWrite_took_errnum [13, 10] false hhead.accepts
  have hzero := connPrintfHeader_errnum hc he hprint
  unfold performGet connHttprequest
  dsimp only
  rw [if_neg (by rw [hmethod]; decide), show (some host <|> c.host) = some host from rfl]
  dsimp only
  rw [hprint]
  refine ⟨{ c with out := o', method := f.method.take 9 }, ?_, ?_, hzero'⟩
  · rw [Option.map_some, Option.map_some]
    dsimp only
    rw [if_pos rfl, hzero, if_pos rfl, connHeaderDone, hwrite, hzero']
  · rw [← htext]
    exact hhead.trans hline

/-- The requests arrive one behind the other. -/
theorem performGets_took {fs : List Fetch} {c : Client} (hc : c.out.AcceptsAll)
    (he : c.out.errnum = 0)
    (hfs : ∀ f ∈ fs, httpValidmethod f.method = true ∧ (f.head host).bytes.length < 2 ^ 31) :
    ∃ c', performGets host fs 0 c = some (0, c') ∧
      Took c.out (fs.flatMap fun f => (f.head host).bytes) c'.out := by
  induction fs generalizing c with
  | nil => exact ⟨c, rfl, .nil hc⟩
  | cons f fs ih =>
    obtain ⟨hmethod, hlen⟩ := hfs f List.mem_cons_self
    obtain ⟨c₁, hget, htook, he₁⟩ := performGet_took hc he hmethod hlen
    obtain ⟨c', hgets, htook'⟩ := ih htook.accepts he₁ fun f' hf' =>
      hfs f' (List.mem_cons_of_mem _ hf')
    refine ⟨c', ?_, ?_⟩
    · rw [performGets, hget, Option.bind_some]
      dsimp only
      rw [if_neg (by decide), hgets]
    · rw [List.flatMap_cons]
      exact htook.trans htook'

/-! ## What the server makes of it -/

/-- A host that can be sent. -/
structure IsHost (host : List UInt8) : Prop where
  ne_nil : host ≠ []
  text : ∀ a ∈ host, httpOkchar a = true ∧ a ≠ 13 ∧ a ≠ 10
  head : ∀ a ∈ host.head?, isBlank a = false

/-- The method is known, the path is absolute, escaped where it has to be, and without a query, the
date is text, and the head is not too long. -/
structure Fetch.Proper (host : List UInt8) (f : Fetch) : Prop where
  method : httpValidmethod f.method = true
  visible : ∀ a ∈ f.path, isVisible a = true
  slash : f.path.head? = some 47
  plain : 63 ∉ f.path ∧ 35 ∉ f.path
  escaped : PercentEscaped f.path
  date : ∀ a ∈ f.date, httpOkchar a = true ∧ a ≠ 13 ∧ a ≠ 10
  date_head : ∀ a ∈ f.date.head?, isBlank a = false
  length : (f.head host).bytes.length ≤ 131072

theorem visible_version : ∀ a ∈ ascii "1.1", isVisible a = true := by decide +kernel

theorem visible_date : ascii "Date" ≠ [] ∧ ∀ a ∈ ascii "Date", isVisible a = true := by
  decide +kernel

theorem visible_host : ascii "Host" ≠ [] ∧ ∀ a ∈ ascii "Host", isVisible a = true := by
  decide +kernel

/-- The head is canonical. -/
theorem Fetch.Proper.canonical (hf : f.Proper host) (hhost : IsHost host) :
    (f.head host).Canonical where
  method := hf.method
  target := hf.visible
  target_head := hf.slash
  version := visible_version
  headers := by
    refine List.forall_mem_cons.mpr ⟨⟨by decide, by decide +kernel, by decide +kernel,
        by decide +kernel⟩,
      List.forall_mem_cons.mpr ⟨⟨by decide, by decide +kernel, by decide +kernel,
        by decide +kernel⟩,
      List.forall_mem_cons.mpr ⟨⟨visible_date.1, visible_date.2, hf.date, hf.date_head⟩,
      List.forall_mem_singleton.mpr
        ⟨visible_host.1, visible_host.2, fun a ha => ?_, fun a ha => ?_⟩⟩⟩⟩
    · -- a blank follows the host
      obtain ha | ha := List.mem_append.mp ha
      · exact hhost.text a ha
      · rw [List.mem_singleton.mp ha]
        decide
    · rw [List.head?_append_of_ne_nil _ hhost.ne_nil] at ha
      exact hhost.head a ha
  count := (by decide : 4 ≤ maxHeaders)

/-- The request, as it is sent. -/
def Fetch.request (host : List UInt8) (f : Fetch) : Request :=
  ⟨(f.head host).bytes, []⟩

theorem Fetch.stream_request (host : List UInt8) (fs : List Fetch) :
    stream (fs.map (Fetch.request host)) = fs.flatMap fun f => (f.head host).bytes := by
  simp [stream, List.flatMap_map, Fetch.request]

/-- The head says that there is no body, and that the connection is kept. -/
theorem Fetch.Proper.framing (hf : f.Proper host) (hhost : IsHost host)
    (strtod : List UInt8 → ℤ) (req : HttpReq) :
    (httpParse strtod req (f.head host).bytes).2.framing = ⟨0, false, true, 0⟩ := by
  rw [httpParse_framing strtod req (hf.canonical hhost)]
  rfl

theorem Fetch.Proper.wellFormed (hf : f.Proper host) (hhost : IsHost host) (env : Env) :
    (f.request host).WellFormed env ∧ (f.request host).Framed := by
  have hc := hf.canonical hhost
  obtain ⟨r, -, -, -, -, hmethod, -, hparse⟩ := httpParse_eq env.strtod (HttpReq.alloc 0 0) hc
  have hframing := hf.framing hhost env.strtod (HttpReq.alloc 0 0)
  refine ⟨⟨?_, hf.length, congrArg Prod.fst hparse, ?_, congrArg Framing.upgrade hframing,
    congrArg Framing.chunked hframing, congrArg Framing.contentlen hframing,
    (by decide : 0 < 2 ^ 53)⟩, ?_⟩
  · refine ⟨f.method ++ 32 :: (f.path ++ 32 :: (ascii "HTTP/" ++ (ascii "1.1" ++ 13 :: 10 ::
      ((f.head host).headers.dropLast.flatMap HeaderLine.bytes ++
        (ascii "Host" ++ 58 :: 32 :: (host ++ [32])))))), ?_⟩
    rw [show ascii "\r\n\r\n" = [13, 10, 13, 10] from rfl]
    simp [Fetch.request, Fetch.head, RequestHead.bytes, RequestHead.lines, HeaderLine.bytes]
  · show (httpParse _ _ _).2.method ≠ none
    rw [Fetch.request, hparse, httpParseheaders_method, hmethod]
    exact Option.some_ne_none 0
  · have hframed := httpValidrequest_bytes hc []
    have hpos : (f.head host).bytes.length ≠ 0 := by
      rw [RequestHead.length_bytes]
      omega
    rw [List.append_nil] at hframed
    unfold Request.Framed headScan Fetch.request
    dsimp only
    rw [hframed, Option.filter_some, if_pos (by simpa using hpos)]

/-- The fields that the server looks at. -/
theorem Fetch.Proper.fields (hf : f.Proper host) (hhost : IsHost host) (env : Env) :
    ∃ req, (f.request host).fields env = req ∧ req.method.map (cstr req.buf) = some f.method ∧
      req.uri.map (cstr req.buf) = some (percentDecode f.path) ∧ req.keepalive = true ∧
      req.upgrade = 0 := by
  have hc := hf.canonical hhost
  have hframing := hf.framing hhost env.strtod (HttpReq.alloc 0 0)
  obtain ⟨q, htext, hmethod, htarget⟩ : ∃ q : RequestText, q.text = (f.head host).bytes ∧
    q.method = f.method ∧ q.target = f.path := ⟨hc.text, hc.text_text, rfl, rfl⟩
  obtain ⟨r, hparse, hfirst, hstr, hname, -⟩ :=
    q.httpParse_text env.strtod (HttpReq.alloc 0 0)
  rw [htext] at hparse
  rw [hparse] at hframing
  -- the target has no query and no fragment, so the path is decoded
  obtain ⟨A, b, C, hcopy, hA, hb⟩ := q.copy_target
  obtain ⟨t, ht⟩ : ∃ t : TargetText, t = ⟨f.path, none, none, hf.slash, hf.plain, nofun, hf.escaped,
    nofun, nofun⟩ := ⟨_, rfl⟩
  have hpath : t.text = q.target := by
    rw [htarget, ht]
    exact List.append_nil _
  have hcut : TargetCut (httpParseUri (q.cut (HttpReq.alloc 0 0)) A.length) A.length t := by
    refine httpParseUri_target t (by rw [hpath]; exact hcopy) hb (fun a ha => ?_) fun h0 => ?_
    · exact q.target_token a (by rwa [← hpath])
    · cases q.target_ok 0 (by rwa [← hpath])
  rw [← hA] at hcut
  refine ⟨r.headFields, ?_, ?_, ?_, congrArg Framing.keepalive hframing,
    congrArg Framing.upgrade hframing⟩
  · exact congrArg (fun p => HttpReq.headFields p.2) hparse
  · rw [show r.headFields.method = some 0 from congrArg (fun p => p.1) hfirst, Option.map_some,
      ← hmethod, ← hname]
    rfl
  · rw [show r.headFields.uri = some q.uriAt from congrArg (fun p => p.2.1) hfirst,
      Option.map_some, show r.headFields.buf = r.buf from rfl, hstr _ (Nat.le_add_right _ _),
      hcut.path, ht]
    rfl

/-! ## What the server answers -/

/-- What a server of the files under `root` answers. -/
def Fetch.answer (root : List UInt8) (f : Fetch) : Answer :=
  if f.method = ascii "GET" ∨ f.method = ascii "HEAD" then
    .file (root ++ percentDecode f.path) (decide (f.method = ascii "GET"))
  else .nothing

theorem serverPath_of_fits {root uri : List UInt8} (h : (root ++ uri).length < PATH_MAX) :
    serverPath root uri = some (root ++ uri) := by
  rw [List.length_append] at h
  have hroot : root.take (PATH_MAX - 1) = root := List.take_of_length_le (by omega)
  have huri : uri.take (PATH_MAX - 1) = uri := List.take_of_length_le (by omega)
  unfold serverPath strappend strlcat
  dsimp only
  rw [hroot, huri, if_pos (by omega)]
  rfl

/-- A server of files. -/
structure Site.Plain (site : Site) : Prop where
  urls : site.urls = []
  authFile : site.authFile = none

theorem Fetch.Proper.reply (hf : f.Proper host) (hhost : IsHost host) (env : Env) {site : Site}
    (hsite : site.Plain) (hfits : (site.documentRoot ++ percentDecode f.path).length < PATH_MAX) :
    site.reply ((f.request host).fields env) =
      some (.answer (f.answer site.documentRoot), 0) := by
  obtain ⟨req, hreq, hmethod, huri, hkeep, hupgrade⟩ := hf.fields hhost env
  have herr : (if req.keepalive = false then Error.Close else 0) = 0 := by
    rw [hkeep]
    rfl
  unfold Site.reply serverHandlerequest serverAuthorize Fetch.answer
  rw [if_pos hsite.urls, hsite.authFile, hreq]
  dsimp only
  rw [if_neg (not_not_intro hupgrade), hmethod, huri, Option.getD_some, serverPath_of_fits hfits,
    herr]
  simp only [Option.some.injEq, Option.bind_some, ne_eq, not_true_eq_false, if_false,
    Option.map_some]
  split_ifs <;> rfl

/-- The replies are the answers, and the connection ends only if a part of a file could not be
written. -/
theorem Answered.served {env : Env} {site : Site} {done : List Fetch} {h : Handler}
    (ha : Answered env site (done.map (Fetch.request host)) h)
    (hdone : ∀ f ∈ done, site.reply ((f.request host).fields env) =
      some (.answer (f.answer site.documentRoot), 0)) :
    h.replies.map Prod.snd = done.map (fun f => .answer (f.answer site.documentRoot)) ∧
      (h.closed = true → ∃ r ∈ h.replies.getLast?, ∃ o, (site.write r.2 o).2 = true) := by
  constructor
  · have hreplies := ha.replies
    rw [List.forall₂_map_left_iff] at hreplies
    clear ha
    generalize h.replies = rs at hreplies ⊢
    induction hreplies with
    | nil => rfl
    | @cons f r done _ hr _ ih =>
      obtain ⟨-, err, hreply⟩ := hr
      rw [hdone f List.mem_cons_self] at hreply
      have hanswer : Reply.answer (f.answer site.documentRoot) = r.2 :=
        congrArg Prod.fst (Option.some.inj hreply)
      rw [List.map_cons, List.map_cons, ih fun f' hf' => hdone f' (List.mem_cons_of_mem _ hf'),
        hanswer]
  · intro hclosed
    obtain ⟨before, q, r, hsplit, hlast, -, hcloses | hcut⟩ := ha.closed hclosed
    · -- every request keeps the connection
      exfalso
      have hq : q ∈ done.map (Fetch.request host) := by
        rw [hsplit]
        exact List.mem_append_right _ (List.mem_singleton_self q)
      obtain ⟨f, hf, rfl⟩ := List.mem_map.mp hq
      obtain ⟨r', err, hreply, hne⟩ := hcloses
      rw [hdone f hf] at hreply
      exact hne (congrArg Prod.snd (Option.some.inj hreply)).symm
    · exact ⟨r, hlast, hcut⟩

/-- Two requests for files, one of them with a blank in its path. -/
def twoFetches : List Fetch :=
  [⟨ascii "Thu, 01 Jan 1970 00:00:00 GMT", ascii "GET", ascii "/a%20b.html"⟩,
    ⟨ascii "Thu, 01 Jan 1970 00:00:01 GMT", ascii "HEAD", ascii "/c"⟩]

theorem proper_twoFetches : ∀ f ∈ twoFetches, f.Proper (ascii "localhost") := by
  refine List.forall_mem_cons.mpr ⟨⟨by decide, by decide +kernel, by decide, by decide +kernel, ?_,
    by decide +kernel, by decide +kernel, by decide +kernel⟩, List.forall_mem_singleton.mpr
    ⟨by decide, by decide +kernel, by decide, by decide +kernel, ?_, by decide +kernel,
      by decide +kernel, by decide +kernel⟩⟩
  · exact .byte (by decide) (.byte (by decide) (.escape rfl rfl (by decide) (.byte (by decide)
      (.byte (by decide) (.byte (by decide) (.byte (by decide) (.byte (by decide)
        (.byte (by decide) .nil))))))))
  · exact .byte (by decide) (.byte (by decide) .nil)

end Webxs
