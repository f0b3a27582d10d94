import Webxs.CopyBounds
import Webxs.Storing

/-!
# Decoding in place

`xs_uri_decode` may be called with one buffer for both. `InWindows` has it once more, with the
accesses checked against the two windows `src[0 .. slen-1]` and `dst[0 .. dlen-1]`, and without a
result if its loop does not end. `decoded` is the text it makes of the bytes of the source, which
does not depend on where they are : the writer stays behind the reader (`Behind`), so that a byte is
read before it is overwritten.
-/

namespace Webxs

namespace InWindows

/-- `src[i]`. -/
def load (m : List UInt8) (src : ℕ) (slen : ℤ) (i : ℕ) : Option UInt8 :=
  if (i : ℤ) < slen then m[src + i]? else none

/-- `dst[i] = a`. -/
def store (m : List UInt8) (dst : ℕ) (dlen : ℤ) (i : ℕ) (a : UInt8) : Option (List UInt8) :=
  if (i : ℤ) < dlen then InCopy.store m (dst + i) a else none

/-- The loop of `xs_uri_decode`, where `dlen` is the size of the window. -/
def uriDecodeLoop (dst src : ℕ) (dlen slen : ℤ) (form : Bool) :
    ℕ → List UInt8 → ℕ → ℕ → ℤ → Option (List UInt8 × ℕ × ℕ × ℤ)
  | 0, _, _, _, _ => none
  | n + 1, m, s, d, err =>
    if slen ≤ s ∨ dlen - 1 ≤ d then some (m, s, d, err)
    else (load m src slen s).bind fun a =>
      if a = 0 then some (m, s, d, err)
      else if form = true ∧ a = 43 then
        (store m dst dlen d 32).bind fun m =>
          uriDecodeLoop dst src dlen slen form n m (s + 1) (d + 1) err
      else if a ≠ 37 then
        (store m dst dlen d a).bind fun m =>
          uriDecodeLoop dst src dlen slen form n m (s + 1) (d + 1) err
      else if (s : ℤ) + 2 < slen ∧ (d : ℤ) + 1 < dlen - 1 then do
        let hi ← load m src slen (s + 1)
        let lo ← load m src slen (s + 2)
        if fromhex hi < 0 ∨ fromhex lo < 0 then
          uriDecodeLoop dst src dlen slen form n m (s + 3) d (-1)
        else
          let m ← store m dst dlen d (UInt8.ofNat ((fromhex hi).toNat * 16 + (fromhex lo).toNat))
          uriDecodeLoop dst src dlen slen form n m (s + 3) (d + 1) err
      else some (m, s, d, -1)

/-- `r` bytes from `src[s]` on are moved to `dst[d]`. -/
def move (m : List UInt8) (dst src : ℕ) (dlen slen : ℤ) (d s r : ℕ) : Option (List UInt8) :=
  if (s : ℤ) + r ≤ slen ∧ (d : ℤ) + r ≤ dlen then
    (readBytes m (src + s) r).bind fun rest => writeBytes m (dst + d) rest
  else none

/-- `xs_uri_decode`, with `n` turns of its loop at most. -/
def uriDecode (n : ℕ) (m : List UInt8) (dst : ℕ) (dlen : ℤ) (src : ℕ) (slen : ℤ) (form : Bool) :
    Option (ℤ × List UInt8) :=
  if dlen - 1 ≤ 0 then some (-50, m)
  else
    (uriDecodeLoop dst src dlen slen form n m 0 0 0).bind fun (m, s, d, err) =>
      let r := slen - s
      if err = 0 ∧ r ≠ 0 ∧ (d : ℤ) + r ≤ dlen - 1 then do
        let m ← move m dst src dlen slen d s r.toNat
        let m ← store m dst dlen (d + r.toNat) 0
        some (err, m)
      else (store m dst dlen d 0).map fun m => (err, m)

end InWindows

/-! ## The text -/

/-- What the loop makes of the bytes `src` with `room` bytes to write : the text, the bytes that are
left, and whether there was an error. -/
def decodedLoop (form : Bool) : ℕ → List UInt8 → List UInt8 × List UInt8 × Bool
  | 0, src => ([], src, false)
  | _, [] => ([], [], false)
  | room + 1, a :: src =>
    if a = 0 then ([], a :: src, false)
    else if form = true ∧ a = 43 then
      let r := decodedLoop form room src
      (32 :: r.1, r.2)
    else if a ≠ 37 then
      let r := decodedLoop form room src
      (a :: r.1, r.2)
    else
      match room, src with
      | room + 1, hi :: lo :: src =>
        if fromhex hi < 0 ∨ fromhex lo < 0 then
          let r := decodedLoop form (room + 2) src
          (r.1, r.2.1, true)
        else
          let r := decodedLoop form (room + 1) src
          (UInt8.ofNat ((fromhex hi).toNat * 16 + (fromhex lo).toNat) :: r.1, r.2)
      | _, src => ([], a :: src, true)
  termination_by _ src => src.length

section

variable {form : Bool} {room : ℕ} {a hi lo : UInt8} {src : List UInt8}

theorem decodedLoop_nul : decodedLoop form (room + 1) (0 :: src) = ([], 0 :: src, false) := by
  rw [decodedLoop.eq_def]
  exact if_pos rfl

theorem decodedLoop_plus (h0 : a ≠ 0) (hplus : form = true ∧ a = 43) :
    decodedLoop form (room + 1) (a :: src) =
      (32 :: (decodedLoop form room src).1, (decodedLoop form room src).2) := by
  rw [decodedLoop.eq_def]
  dsimp only
  rw [if_neg h0, if_pos hplus]

theorem decodedLoop_byte (h0 : a ≠ 0) (hplus : ¬(form = true ∧ a = 43)) (hpct : a ≠ 37) :
    decodedLoop form (room + 1) (a :: src) =
      (a :: (decodedLoop form room src).1, (decodedLoop form room src).2) := by
  rw [decodedLoop.eq_def]
  dsimp only
  rw [if_neg h0, if_neg hplus, if_pos hpct]

theorem decodedLoop_malformed (hbad : fromhex hi < 0 ∨ fromhex lo < 0) :
    decodedLoop form (room + 2) (37 :: hi :: lo :: src) =
      ((decodedLoop form (room + 2) src).1, (decodedLoop form (room + 2) src).2.1, true) := by
  rw [decodedLoop.eq_def]
  dsimp only
  rw [if_neg (by decide), if_neg (fun h => absurd h.2 (by decide)), if_neg (by decide), if_pos hbad]

theorem decodedLoop_escape (hgood : ¬(fromhex hi < 0 ∨ fromhex lo < 0)) :
    decodedLoop form (room + 2) (37 :: hi :: lo :: src) =
      (UInt8.ofNat ((fromhex hi).toNat * 16 + (fromhex lo).toNat) ::
        (decodedLoop form (room + 1) src).1, (decodedLoop form (room + 1) src).2) := by
  rw [decodedLoop.eq_def]
  dsimp only
  rw [if_neg (by decide), if_neg (fun h => absurd h.2 (by decide)), if_neg (by decide),
    if_neg hgood]

/-- An escape that is cut, by the end of the source or of the buffer. -/
theorem decodedLoop_cut
    (hcut : ∀ room' hi lo src', room = room' + 1 → src = hi :: lo :: src' → False) :
    decodedLoop form (room + 1) (37 :: src) = ([], 37 :: src, true) := by
  rw [decodedLoop.eq_def]
  dsimp only
  rw [if_neg (by decide), if_neg (fun h => absurd h.2 (by decide)), if_neg (by decide)]
  split
  · next room' hi lo src' => exact (hcut room' hi lo src' rfl rfl).elim
  · rfl

end

/-- What `xs_uri_decode` returns, and the text in front of the NUL. -/
def decoded (form : Bool) (room : ℕ) (src : List UInt8) : ℤ × List UInt8 :=
  let r := decodedLoop form room src
  if r.2.2 = true then (-1, r.1)
  else if r.1.length + r.2.1.length ≤ room then (0, r.1 ++ r.2.1)
  else (0, r.1)

/-! ## Windows -/

variable {t m : List UInt8} {o i : ℕ} {a : UInt8}

theorem getElem?_of_window (h : a :: t <+: m.drop o) : m[o]? = some a := by
  obtain ⟨v, hv⟩ := h
  have hget : (m.drop o)[0]? = some a := by rw [← hv]; rfl
  rwa [List.getElem?_drop] at hget

theorem window_tail (h : a :: t <+: m.drop o) : t <+: m.drop (o + 1) := by
  obtain ⟨v, hv⟩ := h
  rw [← List.drop_drop, ← hv]
  exact List.prefix_append t v

/-- A store outside a window leaves it. -/
theorem window_set (h : t <+: m.drop o) (hi : i < o ∨ o + t.length ≤ i) :
    t <+: (m.set i a).drop o := by
  rcases hi with hi | hi
  · rwa [List.drop_set_of_lt hi]
  · obtain ⟨v, hv⟩ := h
    rw [List.drop_set, if_neg (by omega), ← hv, List.set_append_right _ _ (by omega)]
    exact List.prefix_append t _

namespace InWindows

theorem load_eq {src s : ℕ} {slen : ℤ} (h : a :: t <+: m.drop (src + s)) (hs : (s : ℤ) < slen) :
    load m src slen s = some a := by
  rw [load, if_pos hs, getElem?_of_window h]

theorem store_eq {dst d : ℕ} {dlen : ℤ} (hd : (d : ℤ) < dlen) (hm : dst + dlen ≤ m.length) :
    store m dst dlen d a = some (m.set (dst + d) a) := by
  rw [store, if_pos hd, InCopy.store, if_pos (by omega)]

/-- The writer does not get ahead of the reader : the destination is not behind the source, or
behind all of it. -/
def Behind (dst src : ℕ) (slen : ℕ) : Prop :=
  dst ≤ src ∨ src + slen ≤ dst

variable {form : Bool} {dst src slen : ℕ}

/-- The loop, from `m` and `d` on, has stored `text`, and `left` is still to be read. -/
def LoopEnds (dst src slen : ℕ) (m : List UInt8) (d : ℕ) (r : Option (List UInt8 × ℕ × ℕ × ℤ))
    (text left : List UInt8) (err : ℤ) : Prop :=
  ∃ m', r = some (m', slen - left.length, d + text.length, err) ∧ Stored m (dst + d) text m' ∧
    left <+: m'.drop (src + (slen - left.length))

/-- A byte that was stored before. -/
theorem LoopEnds.cons {b : UInt8} {d : ℕ} {r : Option (List UInt8 × ℕ × ℕ × ℤ)}
    {text left : List UInt8} {err : ℤ} (hd : dst + d < m.length)
    (h : LoopEnds dst src slen (m.set (dst + d) b) (d + 1) r text left err) :
    LoopEnds dst src slen m d r (b :: text) left err := by
  obtain ⟨m', hr, hs, hleft⟩ := h
  refine ⟨m', ?_, (Stored.set hd b).trans hs, hleft⟩
  rw [hr, List.length_cons, Nat.add_assoc, Nat.add_comm 1]

/-- The loop on the bytes `rest` that are still to be read. -/
theorem uriDecodeLoop_ends (hb : Behind dst src slen) (room : ℕ) (rest : List UInt8) :
    ∀ {m : List UInt8} {s d n : ℕ} {err : ℤ} {dlen : ℤ}, rest <+: m.drop (src + s) →
      s + rest.length = slen → d ≤ s → rest.length < n → dlen = d + room + 1 →
      dst + dlen ≤ m.length →
      LoopEnds dst src slen m d (uriDecodeLoop dst src dlen slen form n m s d err)
        (decodedLoop form room rest).1 (decodedLoop form room rest).2.1
        (if (decodedLoop form room rest).2.2 = true then -1 else err) := by
  have hsep : ∀ s d : ℕ, d ≤ s → s < slen → dst + d < src + (s + 1) ∨ src + slen ≤ dst + d := by
    rcases hb with hb | hb <;> omega
  induction room, rest using decodedLoop.induct form with
  | case1 rest =>
    intro m s d n err dlen hwin hlen hle hn hdlen hm
    obtain ⟨n, rfl⟩ : ∃ k, n = k + 1 := ⟨n - 1, by omega⟩
    rw [uriDecodeLoop, if_pos (.inr (by omega)), decodedLoop]
    refine ⟨m, ?_, .nil _ _, ?_⟩
    · rw [← hlen, Nat.add_sub_cancel]
      rfl
    · rwa [← hlen, Nat.add_sub_cancel]
  | case2 room hroom =>
    intro m s d n err dlen hwin hlen hle hn hdlen hm
    obtain ⟨n, rfl⟩ : ∃ k, n = k + 1 := ⟨n - 1, by omega⟩
    rw [List.length_nil, Nat.add_zero] at hlen
    rw [uriDecodeLoop, if_pos (.inl (by omega)), decodedLoop]
    · exact ⟨m, by rw [hlen]; rfl, .nil _ _, List.nil_prefix⟩
    · exact hroom
  | case3 room rest =>
    intro m s d n err dlen hwin hlen hle hn hdlen hm
    obtain ⟨n, rfl⟩ : ∃ k, n = k + 1 := ⟨n - 1, by omega⟩
    have hlt : s < slen := by
      rw [List.length_cons] at hlen
      omega
    rw [uriDecodeLoop, if_neg (by omega), load_eq hwin (by omega), Option.bind_some, if_pos rfl,
      decodedLoop_nul]
    refine ⟨m, ?_, .nil _ _, ?_⟩
    · rw [← hlen, Nat.add_sub_cancel]
      rfl
    · rwa [← hlen, Nat.add_sub_cancel]
  | case4 room a rest h0 hplus ih =>
    intro m s d n err dlen hwin hlen hle hn hdlen hm
    obtain ⟨n, rfl⟩ : ∃ k, n = k + 1 := ⟨n - 1, by omega⟩
    rw [List.length_cons] at hlen hn
    rw [uriDecodeLoop, if_neg (by omega), load_eq hwin (by omega), Option.bind_some, if_neg h0,
      if_pos hplus, store_eq (by omega) hm, Option.bind_some, decodedLoop_plus h0 hplus]
    refine .cons (by omega) (ih ?_ (by omega) (by omega) (by omega) (by push_cast; omega)
      (by rw [List.length_set]; exact hm))
    exact window_set (window_tail hwin) ((hsep s d hle (by omega)).imp id fun h => by omega)
  | case5 room a rest h0 hplus hpct ih =>
    intro m s d n err dlen hwin hlen hle hn hdlen hm
    obtain ⟨n, rfl⟩ : ∃ k, n = k + 1 := ⟨n - 1, by omega⟩
    rw [List.length_cons] at hlen hn
    rw [uriDecodeLoop, if_neg (by omega), load_eq hwin (by omega), Option.bind_some, if_neg h0,
      if_neg hplus, if_pos hpct, store_eq (by omega) hm, Option.bind_some,
      decodedLoop_byte h0 hplus hpct]
    refine .cons (by omega) (ih ?_ (by omega) (by omega) (by omega) (by push_cast; omega)
      (by rw [List.length_set]; exact hm))
    exact window_set (window_tail hwin) ((hsep s d hle (by omega)).imp id fun h => by omega)
  | case6 a h0 hplus hpct room hi lo rest hbad ih =>
    intro m s d n err dlen hwin hlen hle hn hdlen hm
    obtain ⟨n, rfl⟩ : ∃ k, n = k + 1 := ⟨n - 1, by omega⟩
    simp only [List.length_cons] at hlen hn
    have hwin₁ : hi :: lo :: rest <+: m.drop (src + (s + 1)) := window_tail hwin
    have hwin₂ : lo :: rest <+: m.drop (src + (s + 2)) := window_tail hwin₁
    have hwin₃ : rest <+: m.drop (src + (s + 3)) := window_tail hwin₂
    obtain rfl := not_not.mp hpct
    push_cast at hdlen
    rw [uriDecodeLoop, if_neg (by omega), load_eq hwin (by omega), Option.bind_some, if_neg h0,
      if_neg hplus, if_neg hpct, if_pos (by omega), load_eq hwin₁ (by omega),
      load_eq hwin₂ (by omega), decodedLoop_malformed hbad]
    simp only [Option.bind_eq_bind, Option.bind_some, if_pos hbad, if_true]
    have hend : LoopEnds dst src slen m d (uriDecodeLoop dst src dlen slen form n m (s + 3) d (-1))
        _ _ _ :=
      ih hwin₃ (by omega) (by omega) (by omega) (by push_cast; omega) hm
    rwa [ite_self] at hend
  | case7 a h0 hplus hpct room hi lo rest hgood ih =>
    intro m s d n err dlen hwin hlen hle hn hdlen hm
    obtain ⟨n, rfl⟩ : ∃ k, n = k + 1 := ⟨n - 1, by omega⟩
    simp only [List.length_cons] at hlen hn
    have hwin₁ : hi :: lo :: rest <+: m.drop (src + (s + 1)) := window_tail hwin
    have hwin₂ : lo :: rest <+: m.drop (src + (s + 2)) := window_tail hwin₁
    have hwin₃ : rest <+: m.drop (src + (s + 3)) := window_tail hwin₂
    obtain rfl := not_not.mp hpct
    push_cast at hdlen
    rw [uriDecodeLoop, if_neg (by omega), load_eq hwin (by omega), Option.bind_some, if_neg h0,
      if_neg hplus, if_neg hpct, if_pos (by omega), load_eq hwin₁ (by omega),
      load_eq hwin₂ (by omega), decodedLoop_escape hgood]
    simp only [Option.bind_eq_bind, Option.bind_some, if_neg hgood]
    rw [store_eq (by omega) hm, Option.bind_some]
    refine .cons (by omega) (ih ?_ (by omega) (by omega) (by omega) (by push_cast; omega)
      (by rw [List.length_set]; exact hm))
    exact window_set hwin₃
      ((hsep s d hle (by omega)).imp (fun h => by omega) fun h => by omega)
  | case8 room a h0 hplus hpct rest hshort =>
    intro m s d n err dlen hwin hlen hle hn hdlen hm
    obtain ⟨n, rfl⟩ : ∃ k, n = k + 1 := ⟨n - 1, by omega⟩
    have hlt : s < slen := by
      rw [List.length_cons] at hlen
      omega
    have hcut : ¬((s : ℤ) + 2 < slen ∧ (d : ℤ) + 1 < dlen - 1) := by
      rintro ⟨h2, h1⟩
      match room, rest, hshort with
      | room + 1, hi :: lo :: rest, hshort => exact hshort room hi lo rest rfl rfl
      | 0, rest, _ =>
        push_cast at hdlen
        omega
      | room, [_], _ =>
        simp only [List.length_cons, List.length_nil] at hlen
        omega
      | room, [], _ =>
        simp only [List.length_cons, List.length_nil] at hlen
        omega
    obtain rfl := not_not.mp hpct
    rw [uriDecodeLoop, if_neg (by omega), load_eq hwin (by omega), Option.bind_some, if_neg h0,
      if_neg hplus, if_neg hpct, if_neg hcut, decodedLoop_cut hshort]
    refine ⟨m, ?_, .nil _ _, ?_⟩
    · rw [← hlen, Nat.add_sub_cancel]
      rfl
    · rwa [← hlen, Nat.add_sub_cancel]

/-- The text has room, and is no longer than what was read. -/
theorem length_decodedLoop (form : Bool) (room : ℕ) (rest : List UInt8) :
    (decodedLoop form room rest).1.length ≤ room ∧
      (decodedLoop form room rest).1.length + (decodedLoop form room rest).2.1.length ≤
        rest.length := by
  induction room, rest using decodedLoop.induct form with
  | case1 rest => simp [decodedLoop]
  | case2 room hroom =>
    rw [decodedLoop]
    · simp
    · exact hroom
  | case3 room rest => simp [decodedLoop_nul]
  | case4 room a rest h0 hplus ih =>
    rw [decodedLoop_plus h0 hplus]
    simp only [List.length_cons]
    omega
  | case5 room a rest h0 hplus hpct ih =>
    rw [decodedLoop_byte h0 hplus hpct]
    simp only [List.length_cons]
    omega
  | case6 a h0 hplus hpct room hi lo rest hbad ih =>
    obtain rfl := not_not.mp hpct
    rw [decodedLoop_malformed hbad]
    simp only [List.length_cons]
    omega
  | case7 a h0 hplus hpct room hi lo rest hgood ih =>
    obtain rfl := not_not.mp hpct
    rw [decodedLoop_escape hgood]
    simp only [List.length_cons]
    omega
  | case8 room a h0 hplus hpct rest hshort =>
    obtain rfl := not_not.mp hpct
    rw [decodedLoop_cut hshort]
    simp

theorem move_eq {d s dlen : ℕ} (hwin : t <+: m.drop (src + s)) (hs : s + t.length = slen)
    (hd : d + t.length ≤ dlen) (hm : dst + dlen ≤ m.length) (ht : t ≠ []) :
    ∃ m', move m dst src dlen slen d s t.length = some m' ∧ Stored m (dst + d) t m' := by
  have hpos := List.length_pos_iff.mpr ht
  have hle := hwin.length_le
  rw [List.length_drop] at hle
  have hread : readBytes m (src + s) t.length = some t := by
    rw [readBytes, if_pos (by omega), ← List.prefix_iff_eq_take.mp hwin]
  rw [move, if_pos (by omega), hread, Option.bind_some, writeBytes, if_pos (by omega)]
  exact ⟨_, rfl, .block t (by omega)⟩

/-- The call stores the text that the bytes of the source stand for, with its NUL. -/
theorem uriDecode_eq (hb : Behind dst src slen) {rest : List UInt8} (hwin : rest <+: m.drop src)
    (hlen : rest.length = slen) {n : ℕ} (hn : slen < n) {room : ℕ} (hroom : 0 < room)
    (hm : dst + (room + 1) ≤ m.length) :
    ∃ m', uriDecode n m dst (room + 1) src slen form = some ((decoded form room rest).1, m') ∧
      Stored m dst ((decoded form room rest).2 ++ [0]) m' := by
  obtain ⟨m₁, hloop, hs, hleft⟩ :
      LoopEnds dst src slen m 0 (uriDecodeLoop dst src (room + 1) slen form n m 0 0 0) _ _ _ :=
    uriDecodeLoop_ends hb room rest hwin (by omega) le_rfl (hlen ▸ hn) (by push_cast; omega)
      (by omega)
  obtain ⟨hfits, hshort⟩ := length_decodedLoop form room rest
  rw [uriDecode, if_neg (by omega), hloop, Option.bind_some]
  unfold decoded
  generalize decodedLoop form room rest = r at *
  obtain ⟨text, left, bad⟩ := r
  dsimp only at hs hleft hfits hshort ⊢
  rw [Nat.zero_add]
  rw [Nat.add_zero] at hs
  have hrest : (slen : ℤ) - ((slen - left.length : ℕ) : ℤ) = left.length := by omega
  -- the NUL behind what was stored
  have hnul : ∀ {m' t : List UInt8}, Stored m dst t m' → t.length ≤ room →
      store m' dst (room + 1) t.length 0 = some (m'.set (dst + t.length) 0) ∧
        Stored m dst (t ++ [0]) (m'.set (dst + t.length) 0) := by
    intro m' t h ht
    have hlen' := h.length
    exact ⟨store_eq (by omega) (by omega), h.trans (.set (by omega) 0)⟩
  rw [hrest, Int.toNat_natCast]
  cases bad with
  | true =>
    rw [if_pos rfl, if_pos rfl, if_neg (fun h => absurd h.1 (by decide)), (hnul hs hfits).1]
    exact ⟨_, rfl, (hnul hs hfits).2⟩
  | false =>
    rw [if_neg Bool.false_ne_true, if_neg Bool.false_ne_true]
    by_cases hcopy : text.length + left.length ≤ room
    · rw [if_pos hcopy]
      by_cases hne : left = []
      · rw [if_neg (fun h => h.2.1 (by rw [hne]; rfl)), (hnul hs hfits).1, hne, List.append_nil]
        exact ⟨_, rfl, (hnul hs hfits).2⟩
      · have hlen₁ := hs.length
        obtain ⟨m₂, hmove, hs₂⟩ : ∃ m₂, move m₁ dst src ((room + 1 : ℕ) : ℤ) slen text.length
            (slen - left.length) left.length = some m₂ ∧ Stored m₁ (dst + text.length) left m₂ :=
          move_eq hleft (by omega) (by omega) (by omega) hne
        have hall := hs.trans hs₂
        have hstore := hnul hall (by rw [List.length_append]; exact hcopy)
        rw [List.length_append] at hstore
        have hpos := List.length_pos_iff.mpr hne
        rw [if_pos ⟨rfl, by omega, by omega⟩]
        push_cast at hmove
        simp only [Option.bind_eq_bind, hmove, Option.bind_some, hstore.1]
        exact ⟨_, rfl, hstore.2⟩
    · rw [if_neg hcopy, if_neg (fun h => hcopy (by omega)), (hnul hs hfits).1]
      exact ⟨_, rfl, (hnul hs hfits).2⟩

theorem getD_of_load {slen : ℤ} {s : ℕ} (h : load m src slen s = some a) :
    m.getD (src + s) 0 = a := by
  unfold load at h
  split_ifs at h
  exact InCopy.getD_of_getElem? h

theorem eq_set_of_store {m' : List UInt8} {dlen : ℤ} {d : ℕ}
    (h : store m dst dlen d a = some m') : m' = m.set (dst + d) a := by
  unfold store InCopy.store at h
  split_ifs at h
  exact (Option.some.inj h).symm

theorem move_unchecked {m' : List UInt8} {dlen slen : ℤ} {d s r : ℕ}
    (h : move m dst src dlen slen d s r = some m') :
    m' = Arr.copyTo m (dst + d) ((m.drop (src + s)).take r) := by
  unfold move at h
  split_ifs at h
  obtain ⟨rest, hread, h⟩ := Option.bind_eq_some_iff.mp h
  unfold readBytes at hread
  unfold writeBytes at h
  split_ifs at hread h
  obtain rfl := Option.some.inj hread
  exact (Option.some.inj h).symm

/-- Where all accesses are in the windows, the loop is the one without checks, with turns enough. -/
theorem uriDecodeLoop_unchecked {dlen slen : ℤ} {r : List UInt8 × ℕ × ℕ × ℤ} :
    ∀ (n k : ℕ) (m : List UInt8) (s d : ℕ) (err : ℤ), slen ≤ s + k →
      uriDecodeLoop dst src dlen slen form n m s d err = some r →
        Webxs.uriDecodeLoop dst src (dlen - 1) slen form k m s d err = r := by
  intro n
  induction n with
  | zero =>
    intro k m s d err _ h
    cases h
  | succ n ih =>
    intro k m s d err hk h
    rw [uriDecodeLoop] at h
    by_cases hend : slen ≤ s ∨ dlen - 1 ≤ d
    · rw [if_pos hend] at h
      cases k with
      | zero => exact Option.some.inj h
      | succ k =>
        rw [Webxs.uriDecodeLoop, if_pos (hend.imp id .inl)]
        exact Option.some.inj h
    obtain ⟨k, rfl⟩ : ∃ k', k = k' + 1 := ⟨k - 1, by omega⟩
    rw [if_neg hend] at h
    obtain ⟨a, ha, h⟩ := Option.bind_eq_some_iff.mp h
    rw [Webxs.uriDecodeLoop]
    dsimp only
    rw [getD_of_load ha]
    by_cases h0 : a = 0
    · rw [if_pos h0] at h
      rw [if_pos (.inr (.inr h0))]
      exact Option.some.inj h
    rw [if_neg h0] at h
    rw [if_neg (by rw [← or_assoc]; exact not_or.mpr ⟨hend, h0⟩)]
    by_cases hplus : form = true ∧ a = 43
    · rw [if_pos hplus] at h ⊢
      obtain ⟨m', hm', h⟩ := Option.bind_eq_some_iff.mp h
      rw [← eq_set_of_store hm']
      exact ih k _ _ _ _ (by push_cast; omega) h
    rw [if_neg hplus] at h ⊢
    by_cases hpct : a ≠ 37
    · rw [if_pos hpct] at h ⊢
      obtain ⟨m', hm', h⟩ := Option.bind_eq_some_iff.mp h
      rw [← eq_set_of_store hm']
      exact ih k _ _ _ _ (by push_cast; omega) h
    rw [if_neg hpct] at h ⊢
    by_cases hroom : (s : ℤ) + 2 < slen ∧ (d : ℤ) + 1 < dlen - 1
    · rw [if_pos hroom] at h ⊢
      obtain ⟨hi, hhi, h⟩ := Option.bind_eq_some_iff.mp h
      obtain ⟨lo, hlo, h⟩ := Option.bind_eq_some_iff.mp h
      rw [Nat.add_assoc src, Nat.add_assoc src, getD_of_load hhi, getD_of_load hlo]
      by_cases hbad : fromhex hi < 0 ∨ fromhex lo < 0
      · rw [if_pos hbad] at h ⊢
        exact ih k _ _ _ _ (by push_cast; omega) h
      · rw [if_neg hbad] at h ⊢
        obtain ⟨m', hm', h⟩ := Option.bind_eq_some_iff.mp h
        rw [← eq_set_of_store hm']
        exact ih k _ _ _ _ (by push_cast; omega) h
    · rw [if_neg hroom] at h ⊢
      exact Option.some.inj h

theorem uriDecode_unchecked {n : ℕ} {dlen : ℤ} {r : ℤ × List UInt8}
    (h : uriDecode n m dst dlen src slen form = some r) :
    Webxs.uriDecode m dst dlen src slen form = r := by
  unfold uriDecode at h
  unfold Webxs.uriDecode
  dsimp only
  by_cases h50 : dlen - 1 ≤ 0
  · rw [if_pos h50] at h ⊢
    exact Option.some.inj h
  rw [if_neg h50] at h ⊢
  obtain ⟨⟨m', s, d, err⟩, hloop, h⟩ := Option.bind_eq_some_iff.mp h
  rw [Int.toNat_natCast, uriDecodeLoop_unchecked n slen m 0 0 0 (by omega) hloop]
  dsimp only at h ⊢
  split_ifs at h ⊢ with hcopy
  · obtain ⟨m₁, hmove, h⟩ := Option.bind_eq_some_iff.mp h
    obtain ⟨m₂, hstore, h⟩ := Option.bind_eq_some_iff.mp h
    rw [← move_unchecked hmove, ← eq_set_of_store hstore]
    exact Option.some.inj h
  · obtain ⟨m₁, hstore, h⟩ := Option.map_eq_some_iff.mp h
    rw [← eq_set_of_store hstore]
    exact h

end InWindows

/-- A call whose source is not overwritten before it is read. -/
theorem uriDecode_behind (form : Bool) {slen : ℕ} {src m : List UInt8} {dst o n : ℕ} {dlen : ℤ}
    (hsrc : src.length = slen) (ho : src <+: m.drop o) (hm : dst + dlen ≤ m.length)
    (hb : 1 < dlen → InWindows.Behind dst o slen) (hn : slen < n) :
    ∃ r, InWindows.uriDecode n m dst dlen o slen form = some r ∧
      uriDecode m dst dlen o slen form = r ∧
      if dlen ≤ 1 then r.1 = -50
      else r.1 = (decoded form (dlen.toNat - 1) src).1 ∧
        Stored m dst ((decoded form (dlen.toNat - 1) src).2 ++ [0]) r.2 := by
  by_cases h50 : dlen ≤ 1
  · have hcall : InWindows.uriDecode n m dst dlen o slen form = some (-50, m) := by
      rw [InWindows.uriDecode, if_pos (by omega)]
    exact ⟨_, hcall, InWindows.uriDecode_unchecked hcall, by rw [if_pos h50]⟩
  · obtain ⟨room, hroom⟩ : ∃ room : ℕ, dlen = room + 1 := ⟨(dlen - 1).toNat, by omega⟩
    obtain ⟨m₁, hr, hs⟩ := @InWindows.uriDecode_eq m form dst o slen (hb (by omega)) src ho hsrc n
      hn room (by omega) (by omega)
    rw [← hroom] at hr
    refine ⟨_, hr, InWindows.uriDecode_unchecked hr, ?_⟩
    rw [if_neg h50, show dlen.toNat - 1 = room by omega]
    exact ⟨rfl, hs⟩

/-- Decoding in place is decoding to another buffer : both calls stay in their windows and end,
return the same value, and, if they write at all, leave the same text with its NUL. -/
theorem uriDecode_inPlace_eq (form : Bool) {slen : ℕ} {dlen : ℤ} {src : List UInt8}
    (hsrc : src.length = slen) {m m' : List UInt8} {p dst o : ℕ} (hp : src <+: m.drop p)
    (hm : p + dlen ≤ m.length) (ho : src <+: m'.drop o) (hm' : dst + dlen ≤ m'.length)
    (hdisjoint : dst + dlen ≤ o ∨ o + slen ≤ dst) {n : ℕ} (hn : slen < n) :
    ∃ v r r', InWindows.uriDecode n m p dlen p slen form = some (v, r) ∧
      InWindows.uriDecode n m' dst dlen o slen form = some (v, r') ∧
      uriDecode m p dlen p slen form = (v, r) ∧ uriDecode m' dst dlen o slen form = (v, r') ∧
      (v ≠ -50 → ∃ t, Stored m p (t ++ [0]) r ∧ Stored m' dst (t ++ [0]) r') := by
  obtain ⟨r, hr, hr₀, hspec⟩ := uriDecode_behind form hsrc hp hm (fun _ => .inl le_rfl) hn
  obtain ⟨r', hr', hr'₀, hspec'⟩ := uriDecode_behind form hsrc ho hm'
    (fun h50 => hdisjoint.imp (fun h => by omega) id) hn
  by_cases h50 : dlen ≤ 1
  · rw [if_pos h50] at hspec hspec'
    have hv : r'.1 = r.1 := hspec'.trans hspec.symm
    refine ⟨r.1, r.2, r'.2, hr, hv ▸ hr', hr₀, hv ▸ hr'₀, fun hne => absurd hspec hne⟩
  · rw [if_neg h50] at hspec hspec'
    have hv : r'.1 = r.1 := hspec'.1.trans hspec.1.symm
    exact ⟨r.1, r.2, r'.2, hr, hv ▸ hr', hr₀, hv ▸ hr'₀, fun _ => ⟨_, hspec.2, hspec'.2⟩⟩

theorem uriDecode_inPlace_eq_plus :
    ∃ v r r', InWindows.uriDecode 9 [43, 37, 52, 49, 0] 0 5 0 4 true = some (v, r) ∧
      InWindows.uriDecode 9 [43, 37, 52, 49, 0, 0, 0, 0, 0] 4 5 0 4 true = some (v, r') ∧
      uriDecode [43, 37, 52, 49, 0] 0 5 0 4 true = (v, r) ∧
      uriDecode [43, 37, 52, 49, 0, 0, 0, 0, 0] 4 5 0 4 true = (v, r') ∧
      (v ≠ -50 → ∃ t, Stored [43, 37, 52, 49, 0] 0 (t ++ [0]) r ∧
        Stored [43, 37, 52, 49, 0, 0, 0, 0, 0] 4 (t ++ [0]) r') :=
  uriDecode_inPlace_eq true (rfl : ([43, 37, 52, 49] : List UInt8).length = 4) ⟨[0], rfl⟩
    (by decide) ⟨[0, 0, 0, 0, 0], rfl⟩ (by decide) (.inr (by decide)) (by decide)

end Webxs
