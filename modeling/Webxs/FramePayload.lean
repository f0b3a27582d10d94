import Webxs.Accepting
import Webxs.Frames

/-!
# The payload of a frame that is written

`xs_conn_write_websocket` (`xs_connection.h`) masks a payload in blocks of 4096 bytes, and each of
them is taken from the start of the payload, since the loop does not move `data`. So the `i`-th byte
that it sends is made of the byte `i % 4096` of the payload (`websocketLoop_took`). The key stays in
phase, as 4 divides 4096.

A masked payload is written right exactly if it repeats itself after 4096 bytes
(`writesPayload_iff`), as one of at most 4096 bytes does.
-/

namespace Webxs

variable {o : Out} {mask data : List UInt8}

/-- The bytes behind the header are those of the payload, masked with the key in the header if there
is one, and the return value is the number of bytes sent. -/
def WritesPayload (o : Out) (opcode : ℕ) (data : List UInt8) (mask : Option (List UInt8)) : Prop :=
  ∃ (body : List UInt8) (o' : Out),
    connWriteWebsocket o opcode data mask =
      ((websocketHeader opcode data.length mask ++ body).length, o') ∧
    o'.sock.sent = o.sock.sent ++ (websocketHeader opcode data.length mask ++ body) ∧
    body.length = data.length ∧
    ∀ i, body[i]? = data[i]?.map fun a => mask.elim a fun key => a ^^^ key.getD (i % 4) 0

/-- The loop sends `len` bytes, the `i`-th made of the byte `i % 4096` of the payload. -/
theorem websocketLoop_took (mask : List UInt8) {len : ℕ} (retval : ℕ) (h : o.AcceptsAll)
    (hlen : len ≤ data.length) :
    ∃ t o', websocketLoop mask o data len retval = (retval + len, o') ∧ Took o t o' ∧
      t.length = len ∧
      ∀ i < len, t[i]? = data[i % 4096]?.map fun a => a ^^^ mask.getD (i % 4) 0 := by
  induction len using Nat.strong_induction_on generalizing o retval with
  | _ len ih =>
  unfold websocketLoop
  by_cases h0 : len = 0
  · rw [if_pos h0, h0]
    exact ⟨[], o, rfl, .nil h, rfl, fun i hi => absurd hi (Nat.not_lt_zero i)⟩
  rw [if_neg h0]
  dsimp only
  obtain ⟨outlen, hout⟩ : ∃ outlen, min len 4096 = outlen := ⟨_, rfl⟩
  rw [hout]
  obtain ⟨block, hblock⟩ :
      ∃ block, (data.take outlen).mapIdx (fun i a => a ^^^ mask.getD (i % 4) 0) = block := ⟨_, rfl⟩
  rw [hblock]
  have hbl : block.length = outlen := by
    rw [← hblock, List.length_mapIdx, List.length_take]
    omega
  have hbi : ∀ i < outlen, block[i]? = data[i]?.map fun a => a ^^^ mask.getD (i % 4) 0 := by
    intro i hi
    rw [← hblock, List.getElem?_mapIdx, List.getElem?_take_of_lt hi]
  obtain ⟨o₁, hw, ht₁⟩ := connWrite_took block (decide (outlen < len)) h
  rw [hw]
  obtain ⟨t, o', hr, ht, htl, hti⟩ := ih (len - outlen) (by omega) (retval + block.length)
    ht₁.accepts (by omega)
  refine ⟨block ++ t, o', ?_, ht₁.trans ht, ?_, fun i hi => ?_⟩
  · rw [hr, hbl]
    congr 1
    omega
  · rw [List.length_append, hbl, htl]
    omega
  · rcases Nat.lt_or_ge i outlen with hlt | hge
    · rw [List.getElem?_append_left (by omega), hbi i hlt, Nat.mod_eq_of_lt (a := i) (b := 4096)
        (by omega)]
    · -- a block that is not the last one has 4096 bytes
      rw [List.getElem?_append_right (by omega), hbl, hti _ (by omega),
        show (i - outlen) % 4096 = i % 4096 by omega, show (i - outlen) % 4 = i % 4 by omega]

/-- Without a key the payload is sent as it is. -/
theorem writesPayload_none (h : o.AcceptsAll) (opcode : ℕ) (data : List UInt8) :
    WritesPayload o opcode data none := by
  obtain ⟨o₁, h₁, ht₁⟩ :=
    connWrite_took (websocketHeader opcode data.length none) (decide (data ≠ [])) h
  obtain ⟨o₂, h₂, ht₂⟩ := connWrite_took data false ht₁.accepts
  refine ⟨data, o₂, ?_, (ht₁.trans ht₂).sent, rfl, fun i => by simp⟩
  unfold connWriteWebsocket
  dsimp only
  rw [if_neg (by simp), h₁, h₂, List.length_append]

/-- With a key, what is sent behind the header. -/
theorem connWriteWebsocket_took (opcode : ℕ) (data key : List UInt8) (h : o.AcceptsAll) :
    ∃ (body : List UInt8) (o' : Out), connWriteWebsocket o opcode data (some key) =
        ((websocketHeader opcode data.length (some key) ++ body).length, o') ∧
      Took o (websocketHeader opcode data.length (some key) ++ body) o' ∧
      body.length = data.length ∧
      ∀ i < data.length, body[i]? = data[i % 4096]?.map fun a => a ^^^ key.getD (i % 4) 0 := by
  obtain ⟨o₁, h₁, ht₁⟩ :=
    connWrite_took (websocketHeader opcode data.length (some key)) (decide (data ≠ [])) h
  unfold connWriteWebsocket
  dsimp only
  by_cases hnil : data = []
  · obtain ⟨o₂, h₂, ht₂⟩ := connWrite_took data false ht₁.accepts
    rw [if_neg (by simp [hnil]), h₁, h₂]
    refine ⟨data, o₂, by simp, ht₁.trans ht₂, rfl, fun i hi => ?_⟩
    simp [hnil] at hi
  · obtain ⟨t, o₂, h₂, ht₂, hlen, hi⟩ := websocketLoop_took key
      (websocketHeader opcode data.length (some key)).length ht₁.accepts (le_refl data.length)
    rw [decide_eq_true hnil] at h₁
    rw [if_pos ⟨rfl, hnil⟩, h₁]
    exact ⟨t, o₂, by rw [Option.getD_some, h₂, List.length_append, hlen], ht₁.trans ht₂, hlen, hi⟩

/-- The payload is written right exactly if it is not masked or repeats itself after 4096 bytes. -/
theorem writesPayload_iff (h : o.AcceptsAll) (opcode : ℕ) (data : List UInt8)
    (mask : Option (List UInt8)) :
    WritesPayload o opcode data mask ↔
      mask = none ∨ ∀ i < data.length, data[i]? = data[i % 4096]? := by
  cases mask with
  | none => exact iff_of_true (writesPayload_none h opcode data) (.inl rfl)
  | some key =>
    obtain ⟨body, o', hr, htook, hlen, hi⟩ := connWriteWebsocket_took opcode data key h
    have hxor : ∀ k : UInt8, Function.Injective fun a : UInt8 => a ^^^ k :=
      fun k a b hab => (UInt8.xor_left_inj k).mp hab
    constructor
    · rintro ⟨body', o₁, hr', hsent, hlen', hi'⟩
      obtain rfl : o' = o₁ := congrArg Prod.snd (hr.symm.trans hr')
      obtain rfl : body = body' :=
        List.append_cancel_left (List.append_cancel_left (htook.sent.symm.trans hsent))
      refine .inr fun i hlt => Option.map_injective (hxor (key.getD (i % 4) 0)) ?_
      exact (hi' i).symm.trans (hi i hlt)
    · rintro (hkey | hper)
      · cases hkey
      · refine ⟨body, o', hr, htook.sent, hlen, fun i => ?_⟩
        rcases Nat.lt_or_ge i data.length with hlt | hge
        · rw [hi i hlt, hper i hlt]
          rfl
        · rw [List.getElem?_eq_none (hlen ▸ hge), List.getElem?_eq_none hge, Option.map_none]

theorem writesPayload_hi :
    WritesPayload .willing 1 (ascii "hi") (some [1, 2, 3, 4]) :=
  (writesPayload_iff Out.acceptsAll_willing 1 _ _).mpr (.inr (by decide))

/-- The last of 4097 bytes is replaced by the first one. -/
theorem not_writesPayload_block :
    Out.willing.AcceptsAll ∧
      ¬WritesPayload .willing 1 (List.replicate 4096 65 ++ [66]) (some [1, 2, 3, 4]) := by
  obtain ⟨data, hdata⟩ : ∃ data : List UInt8, List.replicate 4096 65 ++ [66] = data := ⟨_, rfl⟩
  have hlen : data.length = 4097 := by
    rw [← hdata, List.length_append, List.length_replicate, List.length_singleton]
  have hlast : data[4096]? = some 66 := by
    rw [← hdata, List.getElem?_append_right List.length_replicate.le, List.length_replicate]
    rfl
  have hfirst : data[0]? = some 65 := by
    rw [← hdata, List.getElem?_append_left (by rw [List.length_replicate]; decide),
      List.getElem?_replicate, if_pos (by decide)]
  rw [hdata]
  refine ⟨Out.acceptsAll_willing, ?_⟩
  rintro ⟨body, o₁, hr, hsent, -, hi⟩
  obtain ⟨body', o', hr', htook, -, hi'⟩ :=
    connWriteWebsocket_took 1 data [1, 2, 3, 4] Out.acceptsAll_willing
  obtain rfl : o' = o₁ := congrArg Prod.snd (hr'.symm.trans hr)
  obtain rfl : body' = body :=
    List.append_cancel_left (List.append_cancel_left (htook.sent.symm.trans hsent))
  have hwrong := (hi 4096).symm.trans (hi' 4096 (by omega))
  rw [hlast, show 4096 % 4096 = 0 from rfl, hfirst] at hwrong
  exact absurd hwrong (by decide)

end Webxs
