import Webxs.CopyBounds
import Webxs.Percent
import Webxs.Storing

/-!
# Whether encoding ends

The loop of `xs_uri_encode` turn by turn, with its stores checked. A turn at a byte that is to be
escaped changes nothing if it finds one or two bytes before the one for the NUL : the loop does not
end. `encodes_iff` says that, the digits of `xs_tohex` apart, this is all that can go wrong.
-/

namespace Webxs

/-! ## The loop -/

/-- The state of the loop. -/
structure EncodeCursor where
  dst : List UInt8
  s : ℕ
  d : ℕ
  deriving DecidableEq

/-- One turn of the loop of `xs_uri_encode`, or `none` inside where it ends. -/
def uriEncodeTurn (form : Bool) (dlen : ℤ) (src : List UInt8) (c : EncodeCursor) :
    Option (Option EncodeCursor) :=
  match src[c.s]? with
  | none => some none
  | some a =>
    if dlen ≤ c.d ∨ a = 0 then some none
    else if form = true ∧ a = 32 then
      (InCopy.store c.dst c.d 43).map fun dst => some ⟨dst, c.s + 1, c.d + 1⟩
    else if httpOkchar a = true ∧ a ≠ 37 then
      (InCopy.store c.dst c.d a).map fun dst => some ⟨dst, c.s + 1, c.d + 1⟩
    else if (c.d : ℤ) + 2 < dlen then do
      let dst ← InCopy.store c.dst c.d 37
      let dst ← InCopy.store dst (c.d + 1) (tohex (charValue a / 16) true)
      let dst ← InCopy.store dst (c.d + 2) (tohex (charValue a % 16) true)
      some (some ⟨dst, c.s + 1, c.d + 3⟩)
    else some (some c)

/-- The loop, if it ends in `n` turns. -/
def uriEncodeTurns (form : Bool) (dlen : ℤ) (src : List UInt8) :
    ℕ → EncodeCursor → Option EncodeCursor
  | 0, _ => none
  | n + 1, c => (uriEncodeTurn form dlen src c).bind fun next =>
    next.elim (some c) (uriEncodeTurns form dlen src n)

/-- `xs_uri_encode` of the bytes `src` into the buffer `dst`, if its loop ends in `n` turns. -/
def uriEncodeIn (n : ℕ) (dst src : List UInt8) (form : Bool) : Option (ℤ × List UInt8) :=
  let dlen : ℤ := dst.length - 1
  if dlen ≤ 0 then some (-50, dst)
  else (uriEncodeTurns form dlen src n ⟨dst, 0, 0⟩).bind fun c =>
    (InCopy.store c.dst c.d 0).map fun dst => (0, dst)

/-- A hexadecimal digit. -/
def hexDigit (n : ℕ) : UInt8 :=
  UInt8.ofNat (if n < 10 then n + 48 else n + 55)

/-- The encoding of a byte. -/
def percentEncoded (form : Bool) (a : UInt8) : List UInt8 :=
  if form = true ∧ a = 32 then [43]
  else if httpOkchar a = true ∧ a ≠ 37 then [a]
  else [37, hexDigit (a.toNat / 16), hexDigit (a.toNat % 16)]

/-- The call ends, and the string in the buffer is the encoding of first bytes of the source. -/
def Encodes (form : Bool) (dst src : List UInt8) : Prop :=
  ∃ n v dst', uriEncodeIn n dst src form = some (v, dst') ∧
    (v = -50 ∧ dst' = dst ∨ v = 0 ∧ ∃ x, x <+: src.takeWhile (· ≠ 0) ∧
      Stored dst 0 (x.flatMap (percentEncoded form) ++ [0]) dst')

/-! ## Room -/

/-- A byte that is written with an escape. -/
def Escaped (form : Bool) (a : UInt8) : Prop :=
  ¬(form = true ∧ a = 32) ∧ ¬(httpOkchar a = true ∧ a ≠ 37)

instance (form : Bool) (a : UInt8) : Decidable (Escaped form a) :=
  inferInstanceAs (Decidable (_ ∧ _))

/-- How many bytes a byte is written with. -/
def width (form : Bool) (a : UInt8) : ℕ :=
  if Escaped form a then 3 else 1

/-- A byte to be escaped finds no byte before the one for the NUL, or three. -/
def RoomForEscapes (form : Bool) (room : ℕ) (x : List UInt8) : Prop :=
  ∀ k a, x[k]? = some a → Escaped form a →
    room ≤ ((x.take k).map (width form)).sum ∨ ((x.take k).map (width form)).sum + 3 ≤ room

/-- The first bytes of `x` that are written whole. -/
def fits (form : Bool) : ℕ → List UInt8 → List UInt8
  | _, [] => []
  | room, a :: x => if width form a ≤ room then a :: fits form (room - width form a) x else []

/-- The digits of the byte are decimal ones, and it is not negative. -/
def DecimalDigits (a : UInt8) : Prop :=
  a < 128 ∧ a % 16 < 10

variable {form : Bool} {a : UInt8} {x y src : List UInt8} {room : ℕ}

theorem length_uriEncoded_eq (form : Bool) (a : UInt8) :
    (uriEncoded form a).length = width form a := by
  unfold uriEncoded width
  by_cases hplus : form = true ∧ a = 32
  · rw [if_pos hplus, if_neg fun h => h.1 hplus]
    rfl
  rw [if_neg hplus]
  by_cases hok : httpOkchar a = true ∧ a ≠ 37
  · rw [if_pos hok, if_neg fun h => h.2 hok]
    rfl
  · rw [if_neg hok, if_pos ⟨hplus, hok⟩]
    rfl

theorem width_pos (form : Bool) (a : UInt8) : 1 ≤ width form a ∧ width form a ≤ 3 := by
  unfold width
  split_ifs <;> decide

theorem roomForEscapes_zero (form : Bool) (x : List UInt8) : RoomForEscapes form 0 x :=
  fun _ _ _ _ => .inl (Nat.zero_le _)

theorem roomForEscapes_cons :
    RoomForEscapes form room (a :: x) ↔
      (Escaped form a → room = 0 ∨ 3 ≤ room) ∧ RoomForEscapes form (room - width form a) x := by
  constructor
  · refine fun h => ⟨fun ha => ?_, fun k b hb hesc => ?_⟩
    · have := h 0 a rfl ha
      simp only [List.take_zero, List.map_nil, List.sum_nil] at this
      omega
    · have := h (k + 1) b hb hesc
      simp only [List.take_succ_cons, List.map_cons, List.sum_cons] at this
      omega
  · rintro ⟨hhead, htail⟩ k b hb hesc
    cases k with
    | zero =>
      obtain rfl := Option.some.inj hb
      have := hhead hesc
      simp only [List.take_zero, List.map_nil, List.sum_nil]
      omega
    | succ k =>
      have := htail k b hb hesc
      simp only [List.take_succ_cons, List.map_cons, List.sum_cons]
      omega

theorem fits_prefix (form : Bool) (room : ℕ) (x : List UInt8) : fits form room x <+: x := by
  induction x generalizing room with
  | nil => exact List.prefix_rfl
  | cons a x ih =>
    unfold fits
    split_ifs
    · exact List.cons_prefix_cons.mpr ⟨rfl, ih _⟩
    · exact List.nil_prefix

theorem fits_zero (form : Bool) (x : List UInt8) : fits form 0 x = [] := by
  cases x with
  | nil => rfl
  | cons a x => exact if_neg (by have := (width_pos form a).1; omega)

/-! ## Digits -/

theorem length_percentEncoded (form : Bool) (a : UInt8) :
    (percentEncoded form a).length = (uriEncoded form a).length := by
  unfold percentEncoded uriEncoded
  split_ifs <;> rfl

theorem tohex_eq_hexDigit (a : UInt8) :
    tohex (charValue a / 16) true = hexDigit (a.toNat / 16) ∧
      tohex (charValue a % 16) true = hexDigit (a.toNat % 16) ↔ a < 128 ∧ a % 16 < 10 := by
  revert a
  exact forall_byte (by decide +kernel)

theorem hexDigit_ne_zero (a : UInt8) :
    hexDigit (a.toNat / 16) ≠ 0 ∧ hexDigit (a.toNat % 16) ≠ 0 := by
  revert a
  exact forall_byte (by decide +kernel)

theorem zero_notMem_percentEncoded (ha : a ≠ 0) : 0 ∉ percentEncoded form a := by
  obtain ⟨hhi, hlo⟩ := hexDigit_ne_zero a
  unfold percentEncoded
  split_ifs <;> simp [ha.symm, hhi.symm, hlo.symm]

/-- A byte is written as it is to be, if it is not escaped with other digits. -/
theorem uriEncoded_eq_iff :
    uriEncoded form a = percentEncoded form a ↔ (Escaped form a → DecimalDigits a) := by
  unfold uriEncoded percentEncoded Escaped DecimalDigits
  by_cases hplus : form = true ∧ a = 32
  · rw [if_pos hplus, if_pos hplus]
    exact iff_of_true rfl fun h => absurd hplus h.1
  rw [if_neg hplus, if_neg hplus]
  by_cases hok : httpOkchar a = true ∧ a ≠ 37
  · rw [if_pos hok, if_pos hok]
    exact iff_of_true rfl fun h => absurd hok h.2
  rw [if_neg hok, if_neg hok, ← tohex_eq_hexDigit]
  simp only [List.cons.injEq, true_and, and_true]
  exact ⟨fun h _ => h, fun h => h ⟨hplus, hok⟩⟩

theorem flatMap_uriEncoded_eq (h : ∀ a ∈ x, Escaped form a → DecimalDigits a) :
    x.flatMap (uriEncoded form) = x.flatMap (percentEncoded form) := by
  induction x with
  | nil => rfl
  | cons a x ih =>
    obtain ⟨ha, hx⟩ := List.forall_mem_cons.mp h
    rw [List.flatMap_cons, List.flatMap_cons, ih hx, uriEncoded_eq_iff.mpr ha]

/-- What is written for first bytes of a string is not the encoding of others of its first bytes. -/
theorem decimalDigits_of_flatMap_eq (hx : x <+: src) (hy : y <+: src)
    (h : x.flatMap (uriEncoded form) = y.flatMap (percentEncoded form)) :
    ∀ a ∈ x, Escaped form a → DecimalDigits a := by
  induction x generalizing y src with
  | nil => simp
  | cons a x ih =>
    have hwidth := width_pos form a
    rw [← length_uriEncoded_eq] at hwidth
    cases y with
    | nil =>
      have hlen := congrArg List.length h
      rw [List.flatMap_cons, List.length_append, List.flatMap_nil, List.length_nil] at hlen
      omega
    | cons b y =>
      obtain ⟨src, rfl⟩ : ∃ src', src = a :: src' := by
        obtain ⟨t, rfl⟩ := hx
        exact ⟨x ++ t, rfl⟩
      obtain ⟨-, hx'⟩ := List.cons_prefix_cons.mp hx
      obtain ⟨rfl, hy'⟩ := List.cons_prefix_cons.mp hy
      rw [List.flatMap_cons, List.flatMap_cons] at h
      obtain ⟨ha, hrest⟩ := List.append_inj h (length_percentEncoded form b).symm
      exact List.forall_mem_cons.mpr ⟨uriEncoded_eq_iff.mp ha, ih hx' hy' hrest⟩

/-! ## A turn -/

variable {c c' : EncodeCursor} {rest : List UInt8} {len : ℕ}

theorem store_of_lt {dst : List UInt8} {d : ℕ} (h : d < dst.length) (a : UInt8) :
    InCopy.store dst d a = some (dst.set d a) ∧ Stored dst d [a] (dst.set d a) :=
  ⟨if_pos h, .set h a⟩

/-- A byte that has room is written as it is encoded. -/
theorem uriEncodeTurn_byte (h : src.drop c.s = a :: rest) (h0 : a ≠ 0)
    (hlen : c.dst.length = len + 1) (hd : c.d < len) (hroom : Escaped form a → c.d + 3 ≤ len) :
    ∃ dst, uriEncodeTurn form len src c = some (some ⟨dst, c.s + 1, c.d + width form a⟩) ∧
      Stored c.dst c.d (uriEncoded form a) dst := by
  unfold uriEncodeTurn
  rw [(getElem?_of_drop h).1]
  dsimp only
  rw [if_neg (by rw [not_or]; exact ⟨by omega, h0⟩), ← length_uriEncoded_eq]
  unfold uriEncoded
  by_cases hplus : form = true ∧ a = 32
  · obtain ⟨hstore, hs⟩ := store_of_lt (by omega : c.d < c.dst.length) 43
    rw [if_pos hplus, if_pos hplus, hstore]
    exact ⟨_, rfl, hs⟩
  rw [if_neg hplus, if_neg hplus]
  by_cases hok : httpOkchar a = true ∧ a ≠ 37
  · obtain ⟨hstore, hs⟩ := store_of_lt (by omega : c.d < c.dst.length) a
    rw [if_pos hok, if_pos hok, hstore]
    exact ⟨_, rfl, hs⟩
  have hthree := hroom ⟨hplus, hok⟩
  rw [if_neg hok, if_neg hok, if_pos (by omega)]
  obtain ⟨hstore₁, hs₁⟩ := store_of_lt (by omega : c.d < c.dst.length) 37
  obtain ⟨hstore₂, hs₂⟩ := store_of_lt (by rw [hs₁.length]; omega : c.d + 1 < _)
    (tohex (charValue a / 16) true)
  obtain ⟨hstore₃, hs₃⟩ := store_of_lt (by rw [hs₂.length, hs₁.length]; omega : c.d + 2 < _)
    (tohex (charValue a % 16) true)
  simp only [Option.bind_eq_bind, hstore₁, hstore₂, hstore₃, Option.bind_some]
  exact ⟨_, rfl, (hs₁.trans hs₂).trans hs₃⟩

/-- A byte to be escaped that finds one or two bytes stays where it is. -/
theorem uriEncodeTurn_stuck (h : src.drop c.s = a :: rest) (h0 : a ≠ 0) (hd : c.d < len)
    (hesc : Escaped form a) (hroom : len < c.d + 3) :
    uriEncodeTurn form len src c = some (some c) := by
  unfold uriEncodeTurn
  rw [(getElem?_of_drop h).1]
  dsimp only
  rw [if_neg (by rw [not_or]; exact ⟨by omega, h0⟩), if_neg hesc.1, if_neg hesc.2,
    if_neg (by omega)]

/-! ## The loop -/

theorem uriEncodeTurns_next {dlen : ℤ} (h : uriEncodeTurn form dlen src c = some (some c'))
    (n : ℕ) : uriEncodeTurns form dlen src (n + 1) c = uriEncodeTurns form dlen src n c' := by
  rw [uriEncodeTurns, h]
  rfl

theorem uriEncodeTurns_end {dlen : ℤ} (h : uriEncodeTurn form dlen src c = some none) :
    uriEncodeTurns form dlen src 1 c = some c := by
  rw [uriEncodeTurns, h]
  rfl

theorem uriEncodeTurns_stuck {dlen : ℤ} (h : uriEncodeTurn form dlen src c = some (some c))
    (n : ℕ) : uriEncodeTurns form dlen src n c = none := by
  induction n with
  | zero => rfl
  | succ n ih => rw [uriEncodeTurns_next h, ih]

/-- The loop ends with the bytes of the rest `x` of the string written that have room. -/
def EndsFrom (form : Bool) (src : List UInt8) (len : ℕ) (c : EncodeCursor) (x : List UInt8) :
    Prop :=
  ∃ n c', uriEncodeTurns form len src n c = some c' ∧
    Stored c.dst c.d ((fits form (len - c.d) x).flatMap (uriEncoded form)) c'.dst ∧
    c'.d = c.d + ((fits form (len - c.d) x).flatMap (uriEncoded form)).length ∧ c'.d ≤ len

theorem EndsFrom.of_end (h : uriEncodeTurn form len src c = some none) (hd : c.d ≤ len)
    (hx : fits form (len - c.d) x = []) : EndsFrom form src len c x := by
  unfold EndsFrom
  rw [hx]
  exact ⟨1, c, uriEncodeTurns_end h, .nil _ _, rfl, hd⟩

theorem EndsFrom.of_turn {dst : List UInt8}
    (h : uriEncodeTurn form len src c = some (some ⟨dst, c.s + 1, c.d + width form a⟩))
    (hs : Stored c.dst c.d (uriEncoded form a) dst) (hle : c.d + width form a ≤ len)
    (hend : EndsFrom form src len ⟨dst, c.s + 1, c.d + width form a⟩ x) :
    EndsFrom form src len c (a :: x) := by
  obtain ⟨n, c', hn, hs', hd, hle'⟩ := hend
  have hfits : fits form (len - c.d) (a :: x) =
      a :: fits form (len - (c.d + width form a)) x := by
    rw [fits, if_pos (by omega), Nat.sub_add_eq]
  unfold EndsFrom
  dsimp only at hs' hd
  rw [hfits, List.flatMap_cons, List.length_append, length_uriEncoded_eq, ← Nat.add_assoc]
  refine ⟨n + 1, c', (uriEncodeTurns_next h n).trans hn, hs.trans ?_, hd, hle'⟩
  rwa [length_uriEncoded_eq]

/-- Where every escape has room or finds no byte, the loop ends. Where one is between, it does
not. -/
theorem uriEncodeTurns_spec (form : Bool) (src : List UInt8) (len : ℕ) (rest : List UInt8) :
    ∀ c : EncodeCursor, src.drop c.s = rest → c.dst.length = len + 1 → c.d ≤ len →
      (RoomForEscapes form (len - c.d) (rest.takeWhile (· ≠ 0)) →
        EndsFrom form src len c (rest.takeWhile (· ≠ 0))) ∧
      (¬RoomForEscapes form (len - c.d) (rest.takeWhile (· ≠ 0)) →
        ∀ n, uriEncodeTurns form len src n c = none) := by
  induction rest with
  | nil =>
    intro c hdrop hlen hd
    have hturn : uriEncodeTurn form len src c = some none := by
      unfold uriEncodeTurn
      rw [List.getElem?_eq_none (List.drop_eq_nil_iff.mp hdrop)]
    exact ⟨fun _ => .of_end hturn hd rfl, fun h => absurd (fun k b hb => by cases hb) h⟩
  | cons a rest ih =>
    intro c hdrop hlen hd
    by_cases hstop : (len : ℤ) ≤ c.d ∨ a = 0
    · have hturn : uriEncodeTurn form len src c = some none := by
        unfold uriEncodeTurn
        rw [(getElem?_of_drop hdrop).1]
        exact if_pos hstop
      rcases hstop with hfull | rfl
      · rw [show len - c.d = 0 by omega]
        refine ⟨fun _ => .of_end hturn hd ?_, fun h => absurd (roomForEscapes_zero form _) h⟩
        rw [show len - c.d = 0 by omega, fits_zero]
      · exact ⟨fun _ => .of_end hturn hd rfl, fun h => absurd (fun k b hb => by cases hb) h⟩
    obtain ⟨hlt, h0⟩ := not_or.mp hstop
    rw [List.takeWhile_cons_of_pos (by simpa using h0), roomForEscapes_cons]
    by_cases hroom : Escaped form a → c.d + 3 ≤ len
    · obtain ⟨dst, hturn, hs⟩ := uriEncodeTurn_byte hdrop h0 hlen (by omega) hroom
      have hwidth := width_pos form a
      have hle : c.d + width form a ≤ len := by
        unfold width at hwidth ⊢
        split_ifs with hesc
        · exact hroom hesc
        · omega
      obtain ⟨hends, hnever⟩ := ih ⟨dst, c.s + 1, c.d + width form a⟩ (getElem?_of_drop hdrop).2
        (hs.length.trans hlen) hle
      dsimp only at hends hnever
      rw [Nat.sub_add_eq] at hends hnever
      refine ⟨fun h => .of_turn hturn hs hle (hends h.2), fun h n => ?_⟩
      have hrest : ¬RoomForEscapes form (len - c.d - width form a) (rest.takeWhile (· ≠ 0)) :=
        fun hr => h ⟨fun hesc => .inr (by have := hroom hesc; omega), hr⟩
      cases n with
      | zero => rfl
      | succ n => rw [uriEncodeTurns_next hturn, hnever hrest]
    · obtain ⟨hesc, hshort⟩ := Classical.not_imp.mp hroom
      have hturn := uriEncodeTurn_stuck hdrop h0 (by omega : c.d < len) hesc (by omega)
      refine ⟨fun h => ?_, fun _ => uriEncodeTurns_stuck hturn⟩
      have := h.1 hesc
      omega

theorem uriEncodeIn_eq {dst : List UInt8} (h : 1 < dst.length) (n : ℕ) :
    uriEncodeIn n dst src form =
      (uriEncodeTurns form ((dst.length - 1 : ℕ) : ℤ) src n ⟨dst, 0, 0⟩).bind fun c =>
        (InCopy.store c.dst c.d 0).map fun dst => (0, dst) := by
  rw [Nat.cast_sub (by omega)]
  exact if_neg (by omega)

/-- Where an escape finds one or two bytes, the call does not end. -/
theorem uriEncodeIn_never {dst : List UInt8}
    (h : ¬RoomForEscapes form (dst.length - 1) (src.takeWhile (· ≠ 0))) (n : ℕ) :
    uriEncodeIn n dst src form = none := by
  have hlt : 1 < dst.length := by
    by_contra hle
    rw [show dst.length - 1 = 0 by omega] at h
    exact h (roomForEscapes_zero form _)
  rw [uriEncodeIn_eq hlt, (uriEncodeTurns_spec form src (dst.length - 1) src ⟨dst, 0, 0⟩ rfl
    (by dsimp only; omega) (Nat.zero_le _)).2 h n]
  rfl

/-- Where none does, the call ends with the bytes that have room. -/
theorem uriEncodeIn_ends {dst : List UInt8} (hlt : 1 < dst.length)
    (hroom : RoomForEscapes form (dst.length - 1) (src.takeWhile (· ≠ 0))) :
    ∃ n dst', uriEncodeIn n dst src form = some (0, dst') ∧ Stored dst 0
      ((fits form (dst.length - 1) (src.takeWhile (· ≠ 0))).flatMap (uriEncoded form) ++ [0])
        dst' := by
  obtain ⟨n, c, hn, hs, hd, hle⟩ := (uriEncodeTurns_spec form src (dst.length - 1) src
    ⟨dst, 0, 0⟩ rfl (by dsimp only; omega) (Nat.zero_le _)).1 hroom
  dsimp only at hs hd
  rw [Nat.zero_add, Nat.sub_zero] at hd
  rw [Nat.sub_zero] at hs
  obtain ⟨hstore, hnul⟩ := store_of_lt (by rw [hs.length]; omega : c.d < c.dst.length) 0
  refine ⟨n, c.dst.set c.d 0, ?_, hs.trans ?_⟩
  · rw [uriEncodeIn_eq hlt, hn, Option.bind_some, hstore]
    rfl
  · rwa [Nat.zero_add, ← hd]

/-- More turns change nothing. -/
theorem uriEncodeTurns_mono {dlen : ℤ} {n m : ℕ} (h : uriEncodeTurns form dlen src n c = some c')
    (hle : n ≤ m) : uriEncodeTurns form dlen src m c = some c' := by
  induction n generalizing m c with
  | zero => cases h
  | succ n ih =>
    obtain ⟨m, rfl⟩ : ∃ k, m = k + 1 := ⟨m - 1, by omega⟩
    rw [uriEncodeTurns, Option.bind_eq_some_iff] at h ⊢
    obtain ⟨next, hturn, h⟩ := h
    refine ⟨next, hturn, ?_⟩
    cases next with
    | none => exact h
    | some next => exact ih h (by omega)

theorem uriEncodeIn_unique {dst : List UInt8} {n m : ℕ} {r r' : ℤ × List UInt8}
    (h : uriEncodeIn n dst src form = some r) (h' : uriEncodeIn m dst src form = some r') :
    r = r' := by
  unfold uriEncodeIn at h h'
  dsimp only at h h'
  split_ifs at h h' with hle
  · exact Option.some.inj (h.symm.trans h')
  obtain ⟨c, hc, h⟩ := Option.bind_eq_some_iff.mp h
  obtain ⟨c', hc', h'⟩ := Option.bind_eq_some_iff.mp h'
  have hmax := uriEncodeTurns_mono hc (Nat.le_max_left n m)
  rw [uriEncodeTurns_mono hc' (Nat.le_max_right n m)] at hmax
  cases hmax
  exact Option.some.inj (h.symm.trans h')

/-- The call ends with the encoding of first bytes of the source if and only if no escape finds one
or two bytes, and those that are written have decimal digits. -/
theorem encodes_iff (form : Bool) (dst src : List UInt8) :
    Encodes form dst src ↔ RoomForEscapes form (dst.length - 1) (src.takeWhile (· ≠ 0)) ∧
      ∀ a ∈ fits form (dst.length - 1) (src.takeWhile (· ≠ 0)),
        Escaped form a → DecimalDigits a := by
  by_cases hlt : 1 < dst.length
  swap
  · rw [show dst.length - 1 = 0 by omega, fits_zero]
    exact iff_of_true ⟨0, -50, dst, if_pos (by omega), .inl ⟨rfl, rfl⟩⟩
      ⟨roomForEscapes_zero form _, by simp⟩
  have hzero : ∀ t, t <+: src.takeWhile (· ≠ 0) → ∀ a ∈ t, a ≠ 0 := fun t ht a ha => by
    simpa using List.mem_takeWhile_imp (ht.subset ha)
  have hfits := fits_prefix form (dst.length - 1) (src.takeWhile (· ≠ 0))
  constructor
  · rintro ⟨n, v, dst', hn, hv⟩
    have hroom : RoomForEscapes form (dst.length - 1) (src.takeWhile (· ≠ 0)) := by
      by_contra hroom
      rw [uriEncodeIn_never hroom n] at hn
      cases hn
    obtain ⟨m, dst'', hm, hs⟩ := uriEncodeIn_ends hlt hroom
    cases uriEncodeIn_unique hn hm
    obtain ⟨hv, -⟩ | ⟨-, x, hx, hs'⟩ := hv
    · cases hv
    -- the string that is written is both
    have hcstr := cstr_of_stored hs (Nat.zero_le _) fun h => by
      obtain ⟨a, ha, h⟩ := List.mem_flatMap.mp h
      exact zero_notMem_uriEncoded (hzero _ hfits a ha) h
    rw [cstr_of_stored hs' (Nat.zero_le _) fun h => by
      obtain ⟨a, ha, h⟩ := List.mem_flatMap.mp h
      exact zero_notMem_percentEncoded (hzero _ hx a ha) h] at hcstr
    exact ⟨hroom, decimalDigits_of_flatMap_eq hfits hx hcstr.symm⟩
  · rintro ⟨hroom, hdigits⟩
    obtain ⟨n, dst', hn, hs⟩ := uriEncodeIn_ends hlt hroom
    rw [flatMap_uriEncoded_eq hdigits] at hs
    exact ⟨n, 0, dst', hn, .inr ⟨rfl, _, hfits, hs⟩⟩

/-- An escape for which only one byte is left. -/
theorem not_encodes_control : ¬Encodes false [0, 0] [1] := by
  rintro ⟨n, v, dst', hn, -⟩
  have hroom : ¬RoomForEscapes false 1 [1] := fun h => absurd (h 0 1 rfl (by decide)) (by decide)
  have hnone : uriEncodeIn n [0, 0] [1] false = none := uriEncodeIn_never hroom n
  rw [hnone] at hn
  cases hn

end Webxs
