import Webxs.Incremental
import Webxs.Read

/-!
# The scans of the receive buffer

`xs_http_validrequest`, `xs_websocket_framevalid` and `xs_scan_chunk` on the bytes of a list.
They read inside the list, and what they find in it they find in every longer list : the head,
the frame header and the size line of a chunk do not depend on where the input was cut. A head or
a frame header found is in the list. A size line may end two bytes behind it : after the line of
the last chunk the scan takes a line end for granted (`lineSize_le`).
-/

namespace Webxs

/-! ## Reads of an extension -/

theorem getElem?_append_some {l x : List UInt8} {i : ℕ} {a : UInt8} (h : l[i]? = some a) :
    (l ++ x)[i]? = some a := by
  rw [List.getElem?_append_left (List.getElem?_eq_some_iff.mp h).1, h]

theorem exists_getElem? {l : List UInt8} {i : ℕ} (h : i < l.length) : ∃ a, l[i]? = some a :=
  ⟨l[i], List.getElem?_eq_getElem h⟩

/-- The byte at which the rest begins. -/
theorem getElem?_of_drop {l v : List UInt8} {i : ℕ} {a : UInt8} (h : l.drop i = a :: v) :
    l[i]? = some a ∧ l.drop (i + 1) = v := by
  refine ⟨by rw [← List.head?_drop, h]; rfl, ?_⟩
  rw [← List.tail_drop, h]
  rfl

/-! ## Heads -/

theorem httpValidLoop_bound (buf : List UInt8) :
    ∀ n s, n = 0 ∨ s + n < buf.length →
      ∃ r, httpValidLoop buf n s = some r ∧ -1 ≤ r ∧ r ≤ buf.length := by
  intro n
  induction n with
  | zero => exact fun s _ => ⟨0, rfl, by omega, by omega⟩
  | succ n ih =>
    intro s h
    have ih := ih (s + 1) (by omega)
    obtain ⟨a, ha⟩ := exists_getElem? (l := buf) (i := s) (by omega)
    obtain ⟨b, hb⟩ := exists_getElem? (l := buf) (i := s + 1) (by omega)
    simp only [httpValidLoop, ha, hb, Option.bind_eq_bind, Option.bind_some]
    split_ifs with h1 h2 h3 h4
    · exact ⟨-1, rfl, by omega, by omega⟩
    · exact ⟨s + 2, rfl, by omega, by omega⟩
    · obtain ⟨c, hc⟩ := exists_getElem? (l := buf) (i := s + 2) (by omega)
      simp only [hc, Option.bind_some]
      split_ifs
      · exact ⟨s + 3, rfl, by omega, by omega⟩
      · exact ih
    · exact ih
    · exact ih

theorem httpValidLoop_append (buf x : List UInt8) (k : ℕ) :
    ∀ n s r, httpValidLoop buf n s = some r → r ≠ 0 →
      httpValidLoop (buf ++ x) (n + k) s = some r := by
  intro n
  induction n with
  | zero =>
    intro s r h hr
    simp only [httpValidLoop, Option.some.injEq] at h
    omega
  | succ n ih =>
    intro s r h hr
    rw [Nat.succ_add_eq_add_succ, Nat.add_succ]
    simp only [httpValidLoop, Option.bind_eq_bind] at h ⊢
    cases ha : buf[s]? with
    | none => simp [ha] at h
    | some a =>
      rw [ha] at h
      rw [getElem?_append_some ha]
      simp only [Option.bind_some] at h ⊢
      split_ifs at h ⊢ with h1 h2
      · exact h
      · cases hb : buf[s + 1]? with
        | none => simp [hb] at h
        | some b =>
          rw [hb] at h
          rw [getElem?_append_some hb]
          simp only [Option.bind_some] at h ⊢
          by_cases h3 : b = 10
          · simpa only [h3, if_true] using h
          · simp only [h3, if_false] at h ⊢
            by_cases h4 : 0 < n ∧ b = 13
            · have h4' : 0 < n + k ∧ b = 13 := ⟨by omega, h4.2⟩
              simp only [h4, h4', if_true, and_self] at h ⊢
              cases hc : buf[s + 2]? with
              | none => simp [hc] at h
              | some c =>
                rw [hc] at h
                rw [getElem?_append_some hc]
                simp only [Option.bind_some] at h ⊢
                split_ifs at h ⊢ with h5
                · exact h
                · exact ih _ _ h hr
            · simp only [h4, if_false] at h
              -- with no third byte the scan ends and gives 0
              have hn : 0 < n := by
                rcases Nat.eq_zero_or_pos n with rfl | hn
                · simp only [httpValidLoop, Option.some.injEq] at h
                  omega
                · exact hn
              have h4' : ¬(0 < n + k ∧ b = 13) := fun h' => h4 ⟨hn, h'.2⟩
              simp only [h4', if_false]
              exact ih _ _ h hr
      · exact ih _ _ h hr

/-- The length of the head at the start of the bytes received, negative if they are no head. -/
def headScan (l : List UInt8) : Option ℤ :=
  (httpValidrequest l l.length).filter fun r => r ≠ 0

theorem httpValidrequest_eq (l : List UInt8) :
    httpValidrequest l l.length = some ((headScan l).getD 0) := by
  obtain ⟨r, hr, -⟩ := httpValidLoop_bound l ((l.length : ℤ) - 1).toNat 0 (by omega)
  rw [← httpValidrequest] at hr
  by_cases h : r = 0 <;> simp [headScan, hr, h, Option.filter]

theorem headScan_bound {l : List UInt8} {r : ℤ} (h : headScan l = some r) :
    -1 ≤ r ∧ r ≤ l.length ∧ r ≠ 0 := by
  obtain ⟨r', hr, hl, hu⟩ := httpValidLoop_bound l ((l.length : ℤ) - 1).toNat 0 (by omega)
  rw [← httpValidrequest] at hr
  rw [headScan, Option.filter_eq_some_iff, hr] at h
  obtain ⟨h, h0⟩ := h
  cases h
  exact ⟨hl, hu, by simpa using h0⟩

theorem headScan_fits : Fits Int.toNat headScan := by
  intro l r h
  have := headScan_bound h
  omega

theorem headScan_incremental : Incremental headScan := by
  intro l x r h
  rw [headScan, Option.filter_eq_some_iff] at h ⊢
  obtain ⟨h, h0⟩ := h
  refine ⟨?_, h0⟩
  have hl : 0 < l.length := by
    rcases Nat.eq_zero_or_pos l.length with hl | hl
    · rw [httpValidrequest, show ((l.length : ℤ) - 1).toNat = 0 by omega] at h
      cases h
      simp at h0
    · exact hl
  have := httpValidLoop_append l x x.length _ 0 r h (by simpa using h0)
  rw [httpValidrequest, ← this]
  congr 1
  simp only [List.length_append]
  omega

/-! ## Frame headers -/

theorem readBE_of_le {l : List UInt8} {i : ℕ} :
    ∀ {n}, i + n ≤ l.length → ∃ v, readBE l i n = some v ∧ ∀ x, readBE (l ++ x) i n = some v
  | 0, _ => ⟨0, rfl, fun _ => rfl⟩
  | n + 1, h => by
    obtain ⟨v, hv, hvx⟩ := readBE_of_le (l := l) (i := i) (n := n) (by omega)
    obtain ⟨a, ha⟩ := exists_getElem? (l := l) (i := i + n) (by omega)
    exact ⟨v * 256 + a.toNat, by simp [readBE, hv, ha],
      fun x => by simp [readBE, hvx, getElem?_append_some ha]⟩

theorem readBytes_of_le {l : List UInt8} {i n : ℕ} (h : i + n ≤ l.length) :
    readBytes l i n = some ((l.drop i).take n) :=
  if_pos h

theorem readBytes_append {l : List UInt8} {i n : ℕ} (h : i + n ≤ l.length) (x : List UInt8) :
    readBytes (l ++ x) i n = some ((l.drop i).take n) := by
  rw [readBytes_of_le (by simp only [List.length_append]; omega), List.drop_append_of_le_length
    (by omega), List.take_append_of_le_length (by simp only [List.length_drop]; omega)]

/-- The bytes of the header that hold the length of a payload whose second byte gives `len`. -/
def lenBytes (len : ℕ) : ℕ :=
  if len < 126 then 0 else if len = 126 then 2 else 8

/-- The bytes of the header that hold the key. -/
def maskLen (b : UInt8) : ℕ :=
  if 128 ≤ b.toNat then 4 else 0

/-- The length of a header whose second byte is `b`. -/
def headerSize (b : UInt8) : ℕ :=
  maskLen b + 2 + lenBytes (b.toNat % 128)

/-- The key and the length of the payload in a header that is whole. -/
def headerFields (l : List UInt8) (b : UInt8) : Option (List UInt8 × ℕ) := do
  let v ← if b.toNat % 128 < 126 then some (b.toNat % 128)
    else readBE l 2 (lenBytes (b.toNat % 128))
  let mask ← if maskLen b ≠ 0 then readBytes l (headerSize b - 4) 4 else some [0, 0, 0, 0]
  some (mask, v)

/-- A header is read when the bytes that its second byte announces are there. -/
theorem websocketFramevalid_eq {l : List UInt8} {b : UInt8} (hb : l[1]? = some b) :
    websocketFramevalid l l.length =
      if headerSize b ≤ l.length then (headerFields l b).map fun r => ((headerSize b : ℤ), r)
      else some (0, [0, 0, 0, 0], 0) := by
  have hl := (List.getElem?_eq_some_iff.mp hb).1
  have hlen : b.toNat % 128 < 128 := Nat.mod_lt _ (by omega)
  unfold websocketFramevalid headerFields headerSize maskLen
  rw [if_neg (by omega)]
  simp only [hb, Option.bind_eq_bind, Option.bind_some]
  generalize b.toNat % 128 = len at hlen ⊢
  generalize (if 128 ≤ b.toNat then 4 else 0) = m
  obtain h | rfl | rfl : len < 126 ∨ len = 126 ∨ len = 127 := by omega
  · have hk : lenBytes len = 0 := if_pos h
    rw [hk]
    by_cases hr : m + 2 ≤ l.length
    · rw [if_pos ⟨h, by omega⟩, if_pos h, if_pos (show m + 2 + 0 ≤ l.length from hr)]
      by_cases hm : m = 0 <;> simp [hm]
    · rw [if_neg (by omega), if_neg (by omega), if_neg (by omega)]
      simp [hr]
  · rw [show lenBytes 126 = 2 from rfl]
    by_cases hr : m + 4 ≤ l.length
    · rw [if_neg (by omega), if_pos ⟨rfl, by omega⟩, if_pos (show m + 2 + 2 ≤ l.length from hr)]
      by_cases hm : m = 0 <;> simp [hm, Option.map_bind, add_assoc]
    · rw [if_neg (by omega), if_neg (by omega), if_neg (by omega)]
      simp [hr]
  · rw [show lenBytes 127 = 8 from rfl]
    by_cases hr : m + 10 ≤ l.length
    · rw [if_neg (by omega), if_neg (by omega), if_pos (by omega),
        if_pos (show m + 2 + 8 ≤ l.length from hr)]
      by_cases hm : m = 0 <;> simp [hm, Option.map_bind, add_assoc]
    · rw [if_neg (by omega), if_neg (by omega), if_neg (by omega)]
      simp [hr]

theorem headerSize_bound (b : UInt8) : 2 ≤ headerSize b ∧ headerSize b ≤ 14 := by
  unfold headerSize maskLen lenBytes
  split_ifs <;> omega

/-- The key and the length are in the header. -/
theorem headerFields_of_le {l : List UInt8} {b : UInt8} (h : headerSize b ≤ l.length) :
    ∃ r, headerFields l b = some r ∧ ∀ x, headerFields (l ++ x) b = some r := by
  have hs : headerSize b = maskLen b + 2 + lenBytes (b.toNat % 128) := rfl
  obtain ⟨v, hv, hvx⟩ := readBE_of_le (l := l) (i := 2) (n := lenBytes (b.toNat % 128)) (by omega)
  unfold headerFields
  by_cases hm : maskLen b = 0
  · by_cases hk : b.toNat % 128 < 126 <;> simp [hm, hk, hv, hvx]
  · have hm' : maskLen b = 4 := by
      unfold maskLen at hm ⊢
      split_ifs at hm ⊢ <;> trivial
    have hb := readBytes_of_le (l := l) (i := headerSize b - 4) (n := 4) (by omega)
    have hbx := readBytes_append (l := l) (i := headerSize b - 4) (n := 4) (by omega)
    by_cases hk : b.toNat % 128 < 126 <;> simp [hm, hk, hv, hvx, hb, hbx]

theorem websocketFramevalid_bound (l : List UInt8) :
    ∃ r, websocketFramevalid l l.length = some r ∧ 0 ≤ r.1 ∧ r.1 ≤ l.length := by
  by_cases hl : l.length < 2
  · exact ⟨_, if_pos (by omega), le_rfl, by omega⟩
  · obtain ⟨b, hb⟩ := exists_getElem? (l := l) (i := 1) (by omega)
    rw [websocketFramevalid_eq hb]
    split_ifs with h
    · obtain ⟨r, hr, -⟩ := headerFields_of_le h
      exact ⟨_, by rw [hr]; rfl, by simp, by simpa using h⟩
    · exact ⟨_, rfl, le_rfl, by omega⟩

/-- The header of the frame at the start of the bytes received. -/
def frameScan (l : List UInt8) : Option (ℤ × List UInt8 × ℕ) :=
  (websocketFramevalid l l.length).filter fun r => r.1 ≠ 0

theorem websocketFramevalid_eq_getD (l : List UInt8) :
    (websocketFramevalid l l.length).map Prod.fst = some (((frameScan l).map Prod.fst).getD 0) := by
  obtain ⟨r, hr, -⟩ := websocketFramevalid_bound l
  by_cases h : r.1 = 0 <;> simp [frameScan, hr, h, Option.filter]

theorem frameScan_bound {l : List UInt8} {r : ℤ × List UInt8 × ℕ} (h : frameScan l = some r) :
    0 < r.1 ∧ r.1 ≤ l.length ∧ websocketFramevalid l l.length = some r := by
  obtain ⟨r', hr, hl, hu⟩ := websocketFramevalid_bound l
  rw [frameScan, Option.filter_eq_some_iff, hr] at h
  obtain ⟨h, h0⟩ := h
  cases h
  have h0 : r.1 ≠ 0 := by simpa using h0
  exact ⟨by omega, hu, hr⟩

theorem frameScan_incremental : Incremental frameScan := by
  intro l x r h
  obtain ⟨h0, hl, h⟩ := frameScan_bound h
  have h2 : ¬l.length < 2 := fun h2 => by
    rw [websocketFramevalid, if_pos (by omega)] at h
    cases h
    simp at h0
  obtain ⟨b, hb⟩ := exists_getElem? (l := l) (i := 1) (by omega)
  rw [websocketFramevalid_eq hb] at h
  split_ifs at h with hs
  · obtain ⟨f, hf, hfx⟩ := headerFields_of_le hs
    have hs' : headerSize b ≤ (l ++ x).length := by
      simp only [List.length_append]
      omega
    rw [frameScan, websocketFramevalid_eq (getElem?_append_some hb), if_pos hs', hfx x, ← hf, h]
    have : r.1 ≠ 0 := by omega
    simp [Option.filter, this]
  · cases h
    simp at h0

/-! ## Size lines -/

theorem scanChunkLoop_bound (buf : List UInt8) :
    ∀ n s datalen gotdata, n = 0 ∨ s + n < buf.length →
      ∃ d e, scanChunkLoop buf n s datalen gotdata = some (d, e) ∧
        (e = none ∧ d = -1 ∨
          ∃ s', e = some (s' + 2 + if d = 0 then 2 else 0) ∧ s' + 2 ≤ buf.length) := by
  intro n
  induction n with
  | zero => exact fun s datalen gotdata _ => ⟨-1, none, rfl, .inl ⟨rfl, rfl⟩⟩
  | succ n ih =>
    intro s datalen gotdata h
    obtain ⟨a, ha⟩ := exists_getElem? (l := buf) (i := s) (by omega)
    obtain ⟨b, hb⟩ := exists_getElem? (l := buf) (i := s + 1) (by omega)
    simp only [scanChunkLoop, ha, hb, Option.bind_eq_bind, Option.bind_some]
    have ih := fun datalen gotdata => ih (s + 1) datalen gotdata (by omega)
    split_ifs
    any_goals exact ih _ _
    all_goals exact ⟨datalen, _, rfl, .inr ⟨s, by simp [*], by omega⟩⟩

theorem scanChunkLoop_append (buf x : List UInt8) (k : ℕ) :
    ∀ n s datalen gotdata d e, scanChunkLoop buf n s datalen gotdata = some (d, some e) →
      scanChunkLoop (buf ++ x) (n + k) s datalen gotdata = some (d, some e) := by
  intro n
  induction n with
  | zero =>
    intro s datalen gotdata d e h
    simp [scanChunkLoop] at h
  | succ n ih =>
    intro s datalen gotdata d e h
    rw [Nat.succ_add_eq_add_succ, Nat.add_succ]
    simp only [scanChunkLoop, Option.bind_eq_bind] at h ⊢
    cases ha : buf[s]? with
    | none => simp [ha] at h
    | some a =>
      rw [ha] at h
      rw [getElem?_append_some ha]
      simp only [Option.bind_some] at h ⊢
      have ih := ih (s + 1)
      by_cases hc : gotdata ≠ 0 ∧ a = 13
      · rw [if_pos hc] at h ⊢
        cases hb : buf[s + 1]? with
        | none => simp [hb] at h
        | some b =>
          rw [hb] at h
          rw [getElem?_append_some hb]
          simp only [Option.bind_some] at h ⊢
          split_ifs at h ⊢
          any_goals exact ih _ _ _ _ h
          all_goals exact h
      · rw [if_neg hc] at h ⊢
        split_ifs at h ⊢
        any_goals exact ih _ _ _ _ h
        all_goals exact h

/-- The size line of a chunk in the bytes received : its value and where the data begins. -/
def lineScan (l : List UInt8) : Option (ℤ × ℕ) :=
  (scanChunk l l.length).bind fun r => r.2.map fun e => (r.1, e)

theorem scanChunk_eq (l : List UInt8) :
    scanChunk l l.length = some ((lineScan l).elim (-1, none) fun r => (r.1, some r.2)) := by
  obtain ⟨d, e, h, he⟩ := scanChunkLoop_bound l ((l.length : ℤ) - 1).toNat 0 0 0 (by omega)
  rw [← scanChunk] at h
  obtain ⟨rfl, rfl⟩ | ⟨s, rfl, -⟩ := he <;> simp [lineScan, h]

/-- A size line found is in the bytes, without the line end taken for granted behind the last. -/
theorem lineScan_le {l : List UInt8} {r : ℤ × ℕ} (h : lineScan l = some r) :
    2 ≤ r.2 ∧ r.2 ≤ l.length + if r.1 = 0 then 2 else 0 := by
  obtain ⟨d, e, hs, he⟩ := scanChunkLoop_bound l ((l.length : ℤ) - 1).toNat 0 0 0 (by omega)
  rw [← scanChunk] at hs
  obtain ⟨rfl, rfl⟩ | ⟨s, rfl, hl⟩ := he
  · simp [lineScan, hs] at h
  · simp only [lineScan, hs, Option.bind_some, Option.map_some, Option.some.injEq] at h
    subst h
    simp only
    omega

theorem lineScan_incremental : Incremental lineScan := by
  intro l x r h
  obtain ⟨d, e, hs, he⟩ := scanChunkLoop_bound l ((l.length : ℤ) - 1).toNat 0 0 0 (by omega)
  obtain ⟨rfl, rfl⟩ | ⟨s, rfl, hl⟩ := he
  · rw [lineScan, scanChunk, hs] at h
    cases h
  · have := scanChunkLoop_append l x x.length _ _ _ _ _ _ hs
    rw [show ((l.length : ℤ) - 1).toNat + x.length = (((l ++ x).length : ℤ) - 1).toNat by
      simp only [List.length_append]; omega] at this
    rw [lineScan, scanChunk, hs] at h
    rw [lineScan, scanChunk, this]
    exact h

end Webxs
