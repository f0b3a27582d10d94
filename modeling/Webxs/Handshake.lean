import Webxs.Base64
import Webxs.PathBuffer
import Webxs.Read
import Webxs.Sha1Stream

/-!
# The opening handshake of a websocket

The server answers the key of the client with the digest of the key and a fixed text behind it, in
base64. `xs_websocket_response` composes the two in a buffer of 128 bytes, so a key of more than 91
bytes is answered with the digest of what fits (`acceptValue_eq`). The client sends one key
(`xs_conn_httpwebsocket`), and has the answer as a constant (`xs_websocket_accept`) : it is what
the server answers (`websocketAccept_iff`).
-/

open Webxs.PathBuffer Webxs.Sha1

namespace Webxs

namespace Handshake

/-- `ws_magic`. -/
def wsMagic : List UInt8 :=
  ascii "258EAFA5-E914-47DA-95CA-C5AB0DC85B11"

/-- `sec_key` of `xs_conn_httpwebsocket`. -/
def secKey : List UInt8 :=
  ascii "sr33k0t2ypZYKUwIrsGYaw=="

/-- The variables of `xs_websocket_response`, as they are found on the stack. -/
structure Locals where
  buf : List UInt8
  shaCtx : Ctx
  length_buf : buf.length = 128
  length_buffer : shaCtx.buffer.length = 64

/-- `shab64` of `xs_websocket_response`. -/
def acceptValue (isBigEndian : Bool) (l : Locals) (key : List UInt8) : Option (List UInt8) := do
  let buf ← strlcpy l.buf 0 key 128
  let buf ← PathBuffer.strlcat buf 0 wsMagic 128
  let sha ← SHA1Final isBigEndian (SHA1Update isBigEndian (SHA1Init l.shaCtx) (cstr buf 0))
  some (b64Encode sha)

/-! ## The buffer -/

/-- `xs_strlcat` skips a text. -/
theorem strlcatLoop_text {dst : List UInt8} {t v : List UInt8} (ht : 0 ∉ t) :
    ∀ {d n : ℕ}, dst.drop d = t ++ 0 :: v → t.length < n →
      strlcatLoop dst n d = some (n - t.length, d + t.length) := by
  induction t with
  | nil =>
    intro d n hdrop hn
    obtain ⟨k, rfl⟩ : ∃ k, n = k + 1 := ⟨n - 1, by rw [List.length_nil] at hn; omega⟩
    have hget : dst[d]? = some 0 := by
      have : (dst.drop d)[0]? = dst[d + 0]? := List.getElem?_drop
      rw [hdrop, Nat.add_zero] at this
      exact this.symm
    rw [strlcatLoop, hget, Option.bind_some, if_neg (fun h => h.1 rfl)]
    rfl
  | cons a t ih =>
    intro d n hdrop hn
    rw [List.length_cons] at hn
    obtain ⟨k, rfl⟩ : ∃ k, n = k + 1 := ⟨n - 1, by omega⟩
    rw [List.mem_cons, not_or] at ht
    have hget : dst[d]? = some a := by
      have : (dst.drop d)[0]? = dst[d + 0]? := List.getElem?_drop
      rw [hdrop, Nat.add_zero] at this
      exact this.symm
    have hdrop' : dst.drop (d + 1) = t ++ 0 :: v := by
      rw [← List.drop_drop, hdrop]
      rfl
    rw [strlcatLoop, hget, Option.bind_some, if_pos ⟨Ne.symm ht.1, by omega⟩,
      ih ht.2 hdrop' (by omega), List.length_cons]
    congr 2 <;> omega

theorem zero_notMem_wsMagic : 0 ∉ wsMagic := by
  decide +kernel

/-- The key and the text behind it, cut to the buffer. -/
theorem composed {buf key : List UInt8} (hbuf : 0 < buf.length) (hkey : 0 ∉ key) :
    ∃ buf₁ buf₂, strlcpy buf 0 key buf.length = some buf₁ ∧
      PathBuffer.strlcat buf₁ 0 wsMagic buf.length = some buf₂ ∧
      cstr buf₂ 0 = (key ++ wsMagic).take (buf.length - 1) := by
  obtain ⟨k, hk⟩ : ∃ k, buf.length = k + 1 := ⟨buf.length - 1, by omega⟩
  have hcut : 0 ∉ key.take k := fun hmem => hkey (List.mem_of_mem_take hmem)
  have hcutlen : (key.take k).length ≤ k := by
    rw [List.length_take]
    omega
  obtain ⟨buf₁, hcpy, hst₁⟩ := (strlcpy_spec key hbuf (Nat.zero_le _)).1 (by
    rw [hk, Nat.add_sub_cancel]
    omega)
  rw [hk, Nat.add_sub_cancel] at hst₁
  obtain ⟨v, hv⟩ := drop_of_stored hst₁ (Nat.zero_le _)
  rw [List.append_assoc] at hv
  have hskip := strlcatLoop_text hcut hv (n := k + 1) (by omega)
  have hcat : PathBuffer.strlcat buf₁ 0 wsMagic (k + 1) =
      if 1 < k + 1 - (key.take k).length then
        strlcpy buf₁ (key.take k).length wsMagic (k + 1 - (key.take k).length)
      else some buf₁ := by
    rw [PathBuffer.strlcat, if_neg (by omega), hskip, Option.bind_some, Nat.zero_add]
  refine ⟨buf₁, ?_⟩
  rw [hk] at hcpy ⊢
  rw [Nat.add_sub_cancel, hcat]
  rcases Nat.lt_or_eq_of_le hcutlen with hlt | heq
  · have hkeep : key.take k = key := by
      rw [List.length_take] at hlt
      exact List.take_of_length_le (by omega)
    obtain ⟨buf₂, hcpy₂, hst₂⟩ := (strlcpy_spec wsMagic (m := buf₁) (d := (key.take k).length)
      (n := k + 1 - (key.take k).length) (by omega) (by rw [hst₁.length]; omega)).1 (by
        have := List.length_take_le (k + 1 - (key.take k).length - 1) wsMagic
        rw [hst₁.length]
        omega)
    refine ⟨buf₂, hcpy, by rw [if_pos (by omega)]; exact hcpy₂, ?_⟩
    have hall := (hst₁.of_append (Nat.zero_le _)).trans (by rwa [Nat.zero_add])
    rw [← List.append_assoc] at hall
    rw [cstr_of_stored hall (Nat.zero_le _) ?_, hkeep, List.take_append, hkeep]
    · congr 2
      omega
    · rw [List.mem_append, not_or]
      exact ⟨hcut, fun hmem => zero_notMem_wsMagic (List.mem_of_mem_take hmem)⟩
  · refine ⟨buf₁, hcpy, by rw [if_neg (by omega)], ?_⟩
    rw [cstr_of_stored hst₁ (Nat.zero_le _) hcut]
    rw [List.length_take] at heq
    rw [List.take_append_of_le_length (by omega)]

/-! ## The answer -/

theorem acceptValue_spec (be : Bool) (l : Locals) {key : List UInt8} (hkey : 0 ∉ key) :
    acceptValue be l key = some (base64 (sha1 ((key ++ wsMagic).take 127))) := by
  have hbuf := l.length_buf
  obtain ⟨buf₁, buf₂, hcpy, hcat, htext⟩ := composed (by omega : 0 < l.buf.length) hkey
  rw [hbuf] at hcpy hcat htext
  have hafter := (after_init l.length_buffer).update be (cstr buf₂ 0) (by
    rw [htext, List.length_take]
    omega)
  rw [List.nil_append] at hafter
  have hsha := hafter.final be
  rw [htext] at hsha
  rw [acceptValue]
  simp only [hcpy, hcat, htext, hsha, Option.bind_eq_bind, Option.bind_some, b64Encode_eq_base64]

/-- The answer is the one of the protocol for a key that fits the buffer; of a longer one only the
front counts. -/
theorem acceptValue_eq (be : Bool) (l : Locals) {key : List UInt8} (hkey : 0 ∉ key) :
    acceptValue be l key =
      some (base64 (sha1 (if key.length ≤ 91 then key ++ wsMagic
        else (key ++ wsMagic).take 127))) := by
  have hmagic : wsMagic.length = 36 := by decide +kernel
  rw [acceptValue_spec be l hkey]
  split_ifs with hshort
  · rw [List.take_of_length_le (by rw [List.length_append]; omega)]
  · rfl

/-- Variables that are all 0. -/
def zeroLocals : Locals where
  buf := List.replicate 128 0
  shaCtx := anyContext
  length_buf := List.length_replicate
  length_buffer := List.length_replicate

/-- A key of 24 bytes. -/
theorem acceptValue_eq_secKey :
    acceptValue false zeroLocals secKey =
      some (base64 (sha1 (if secKey.length ≤ 91 then secKey ++ wsMagic
        else (secKey ++ wsMagic).take 127))) :=
  acceptValue_eq false zeroLocals (by decide +kernel)

theorem zero_notMem_secKey : 0 ∉ secKey := by
  decide +kernel

/-- What is found on the stack makes no difference. -/
theorem acceptValue_locals (be be' : Bool) (l l' : Locals) {key : List UInt8} (hkey : 0 ∉ key) :
    acceptValue be l key = acceptValue be' l' key := by
  rw [acceptValue_spec be l hkey, acceptValue_spec be' l' hkey]

/-- The constant of the client is what the server answers to its key. -/
theorem acceptValue_secKey (be : Bool) (l : Locals) :
    acceptValue be l secKey = some (ascii "zY5/M7Ht2MENvjW5tL57/BmNnE4=") := by
  have heval : acceptValue false zeroLocals secKey =
      some (ascii "zY5/M7Ht2MENvjW5tL57/BmNnE4=") := by
    decide +kernel
  rw [← heval, acceptValue_locals be false l zeroLocals zero_notMem_secKey]

/-- The client takes exactly the answers that the server gives to its key. -/
theorem websocketAccept_iff (be : Bool) (l : Locals) (c : Conn) :
    (websocketAccept c).1 = 0 ↔
      ((connGetreq c).bind fun req => httpGetheader req (ascii "Sec-WebSocket-Accept")) =
        acceptValue be l secKey := by
  rw [acceptValue_secKey be l, websocketAccept]
  rcases (connGetreq c).bind fun req => httpGetheader req (ascii "Sec-WebSocket-Accept") with _ | h
  · simp
  · rw [Option.some.injEq]
    dsimp only
    split_ifs with hne
    · exact ⟨fun h => absurd (show (-1 : ℤ) = 0 from h) (by decide), fun heq => absurd heq hne⟩
    · exact ⟨fun _ => not_not.mp hne, fun _ => rfl⟩

end Handshake

end Webxs
