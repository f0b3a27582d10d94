import Webxs.Calls
import Webxs.CompressDrain
import Webxs.GzipHeader

/-!
# Skipping the header of gzip

The gzip decompressor stages the header in `xc->out` until a look at what is staged, made from the
start each time, finds its end. As long as it is not there, each look asks for more bytes than are
staged, but not for more than the header has : it never takes a byte of what follows.

But the CRC of the header, which is the last part of it, is taken to stand in front of the others :
`xs_compress_in` looks for the extra field, the name and the comment from byte 12 on. And nothing
keeps a header from being longer than `xc->out`. `skipsHeader_iff` says that the header is skipped
exactly if the parts so read end where the header ends, and this is inside of `xc->out` (and the
lengths fit `avail_in`).
-/

namespace Webxs

open Gzip

variable {T : List UInt8} {r o O E : ℕ} {flags : UInt8}

/-! ## Looks at a part -/

/-- `xc->out` with the first `r` bytes of `T` staged. -/
def staging (T : List UInt8) (r : ℕ) : List UInt8 :=
  T.take r ++ List.replicate (XS_CHUNK_SIZE - r) 0

theorem length_staging (hr : r ≤ T.length) (hc : r ≤ XS_CHUNK_SIZE) :
    (staging T r).length = XS_CHUNK_SIZE := by
  rw [staging, List.length_append, List.length_take, List.length_replicate]
  omega

theorem staging_byte (hr : r ≤ T.length) {i : ℕ} (hi : i < r) : (staging T r)[i]? = T[i]? := by
  rw [staging, List.getElem?_append_left (by rw [List.length_take]; omega),
    List.getElem?_take_of_lt hi]

theorem staging_free (hr : r ≤ T.length) {i : ℕ} (hi : r ≤ i) (hc : i < XS_CHUNK_SIZE) :
    (staging T r)[i]? = some 0 := by
  have hlen : (T.take r).length = r := by
    rw [List.length_take, Nat.min_eq_left hr]
  rw [staging, List.getElem?_append_right (by omega), hlen, List.getElem?_replicate,
    if_pos (by omega)]

theorem stringEnd_eq (T : List UInt8) (O : ℕ) :
    stringEnd T O = T[O]?.bind fun a => if a = 0 then some (O + 1) else stringEnd T (O + 1) := by
  unfold stringEnd
  cases h : T[O]? with
  | none =>
    rw [List.drop_eq_nil_of_le (List.getElem?_eq_none_iff.mp h)]
    rfl
  | some a =>
    obtain ⟨hlt, ha⟩ := List.getElem?_eq_some_iff.mp h
    rw [List.drop_eq_getElem_cons hlt, ha, List.findIdx?_cons, Option.bind_some]
    by_cases h0 : a = 0
    · rw [decide_eq_true h0, if_pos h0]
      rfl
    · rw [decide_eq_false h0, if_neg h0]
      simp only [Bool.false_eq_true, if_false, Option.map_map]
      congr 1
      funext n
      simp only [Function.comp_apply]
      omega

theorem lt_of_stringEnd (h : stringEnd T O = some E) : O < E := by
  obtain ⟨n, -, rfl⟩ := Option.map_eq_some_iff.mp h
  omega

theorem gzSkip_drop (l : List UInt8) (r O : ℕ) :
    gzSkip r (l.drop O) O = l[O]?.bind fun a =>
      if a ≠ 0 then checkGzHdr r (O + 1) (gzSkip r (l.drop (O + 1)) (O + 1))
      else some (.done (O + 1)) := by
  cases h : l[O]? with
  | none =>
    rw [List.drop_eq_nil_of_le (List.getElem?_eq_none_iff.mp h)]
    rfl
  | some a =>
    obtain ⟨hlt, ha⟩ := List.getElem?_eq_some_iff.mp h
    rw [List.drop_eq_getElem_cons hlt, ha]
    rfl

/-! ## A header that is not there yet -/

/-- `o` is taken for `E`, where a part ends : it is right, or there is nothing staged there. -/
def Near (r o E : ℕ) : Prop :=
  o = E ∨ r < o ∧ o ≤ E

/-- A look at a part that ends at `E` asks for more, but not too much, or finds the end. -/
def ScanTo (r : ℕ) (scan : Option HeaderScan) (E : ℕ) : Prop :=
  (∃ a, scan = some (.more a) ∧ r < a ∧ a ≤ E) ∨ ∃ o, scan = some (.done o) ∧ Near r o E

theorem gzSkip_scanTo (hr : r ≤ T.length) (hE : E ≤ XS_CHUNK_SIZE) (hO : O ≤ r)
    (h : stringEnd T O = some E) : ScanTo r (gzSkip r ((staging T r).drop O) O) E := by
  obtain ⟨n, hn⟩ : ∃ n, r - O = n := ⟨_, rfl⟩
  have hlt := lt_of_stringEnd h
  induction n generalizing O with
  | zero =>
    -- the byte behind what is staged is 0
    refine .inr ⟨O + 1, ?_, .inr ⟨by omega, by omega⟩⟩
    rw [gzSkip_drop, staging_free hr (by omega) (by omega)]
    rfl
  | succ n ih =>
    rw [stringEnd_eq] at h
    obtain ⟨a, ha, h⟩ := Option.bind_eq_some_iff.mp h
    rw [gzSkip_drop, staging_byte hr (by omega), ha, Option.bind_some]
    by_cases h0 : a = 0
    · rw [if_pos h0] at h
      rw [if_neg (not_not.mpr h0)]
      exact .inr ⟨O + 1, rfl, .inl (Option.some.inj h)⟩
    · rw [if_neg h0] at h
      rw [if_pos h0, checkGzHdr, if_neg (by omega)]
      exact ih (by omega) h (by omega) (lt_of_stringEnd h)

theorem gzString_scanTo (hr : r ≤ T.length) (hE : E ≤ XS_CHUNK_SIZE) (ho : Near r o O)
    (h : stringEnd T O = some E) : ScanTo r (gzString (staging T r) r o) E := by
  have hlt := lt_of_stringEnd h
  unfold gzString checkGzHdr
  by_cases hmore : o + 1 > r
  · rw [if_pos hmore]
    refine .inl ⟨_, rfl, hmore, ?_⟩
    obtain rfl | ⟨-, hle⟩ := ho <;> omega
  · rw [if_neg hmore]
    obtain rfl | ⟨hlt, -⟩ := ho
    · exact gzSkip_scanTo hr hE (by omega) h
    · omega

theorem gzExtra_scanTo (hr : r ≤ T.length) (ho : Near r o O) (h : extraEnd T O = some E) :
    ScanTo r (gzExtra (staging T r) r o) E := by
  obtain ⟨lo, hlo, h⟩ := Option.bind_eq_some_iff.mp h
  obtain ⟨hi, hhi, h⟩ := Option.bind_eq_some_iff.mp h
  have hE : O + 2 + lo.toNat + hi.toNat * 256 = E := Option.some.inj h
  unfold gzExtra checkGzHdr
  by_cases hmore : o + 2 > r
  · rw [if_pos hmore]
    refine .inl ⟨_, rfl, hmore, ?_⟩
    obtain rfl | ⟨-, hle⟩ := ho <;> omega
  · rw [if_neg hmore]
    obtain rfl | ⟨hlt, -⟩ := ho
    · refine .inr ⟨_, ?_, .inl rfl⟩
      rw [staging_byte hr (by omega), staging_byte hr (by omega), hlo, hhi, ← hE]
      simp only [Option.bind_eq_bind, Option.bind_some, Option.some.injEq, HeaderScan.done.injEq]
      omega
    · omega

theorem gzPart_scanTo {flag : Bool} {f : ℕ → Option HeaderScan} {e : ℕ → Option ℕ}
    (ho : Near r o O) (hf : e O = some E → ScanTo r (f o) E) (h : partEnd flag e O = some E) :
    ScanTo r (gzPart flag f o) E := by
  cases flag with
  | true => exact hf h
  | false =>
    obtain rfl := Option.some.inj h
    exact .inr ⟨o, rfl, ho⟩

theorem andThen_scanTo {scan : Option HeaderScan} {f : ℕ → Option HeaderScan} {E' : ℕ}
    (hs : ScanTo r scan E) (hle : E ≤ E') (hf : ∀ o, Near r o E → ScanTo r (f o) E') :
    ScanTo r (HeaderScan.andThen scan f) E' := by
  obtain ⟨a, rfl, hlt, ha⟩ | ⟨o, rfl, ho⟩ := hs
  · exact .inl ⟨a, rfl, hlt, ha.trans hle⟩
  · exact hf o ho

/-- The byte from which `xs_compress_in` looks for the parts. -/
def fieldsStart (flags : UInt8) : ℕ :=
  if flags &&& 0x02 ≠ 0 then 12 else 10

/-- What `xs_compress_in` looks for behind the first four bytes. -/
def gzFields (out : List UInt8) (r : ℕ) (flags : UInt8) : Option HeaderScan :=
  HeaderScan.andThen (gzPart (flags &&& 0x04 ≠ 0) (gzExtra out r) (fieldsStart flags))
    fun offset => HeaderScan.andThen (gzPart (flags &&& 0x08 ≠ 0) (gzString out r) offset)
    fun offset => HeaderScan.andThen (gzPart (flags &&& 0x10 ≠ 0) (gzString out r) offset)
    fun offset => checkGzHdr r offset (some (.done offset))

theorem gzScan_eq (hT : [0x1f, 0x8b, 0x08, flags] <+: T) (hr : r ≤ T.length) :
    gzScan (staging T r) r =
      if 4 > r then some (.more 4) else gzFields (staging T r) r flags := by
  obtain ⟨t, rfl⟩ := hT
  unfold gzScan checkGzHdr
  by_cases h4 : 4 > r
  · rw [if_pos h4, if_pos h4]
  · rw [if_neg h4, if_neg h4, staging_byte hr (by omega), staging_byte hr (by omega),
      staging_byte hr (by omega), staging_byte hr (by omega)]
    rfl

theorem le_of_extraEnd (h : extraEnd T O = some E) : O ≤ E := by
  obtain ⟨lo, -, h⟩ := Option.bind_eq_some_iff.mp h
  obtain ⟨hi, -, h⟩ := Option.bind_eq_some_iff.mp h
  have := Option.some.inj h
  omega

theorem le_of_partEnd {flag : Bool} {e : ℕ → Option ℕ} (he : ∀ {O E}, e O = some E → O ≤ E)
    (h : partEnd flag e O = some E) : O ≤ E := by
  cases flag with
  | true => exact he h
  | false => exact (Option.some.inj h).le

theorem le_of_fieldsEnd (h : fieldsEnd T flags O = some E) : O ≤ E := by
  obtain ⟨e₁, h₁, h⟩ := Option.bind_eq_some_iff.mp h
  obtain ⟨e₂, h₂, h⟩ := Option.bind_eq_some_iff.mp h
  have hle₁ := le_of_partEnd (e := extraEnd T) le_of_extraEnd h₁
  have hle₂ := le_of_partEnd (e := stringEnd T) (fun h => (lt_of_stringEnd h).le) h₂
  have hle₃ := le_of_partEnd (e := stringEnd T) (fun h => (lt_of_stringEnd h).le) h
  omega

theorem le_fieldsStart (flags : UInt8) : 10 ≤ fieldsStart flags := by
  unfold fieldsStart
  split_ifs <;> omega

/-! ## What a look finds -/

/-- A look from `o` on asks for more than is staged, or finds an end. If this is inside of what is
staged it is `e`. -/
def Sound (r : ℕ) (scan : Option HeaderScan) (o : ℕ) (e : Option ℕ) : Prop :=
  ∀ x, scan = some x →
    (∃ a, x = .more a ∧ r < a) ∨ ∃ o', x = .done o' ∧ o ≤ o' ∧ (o' ≤ r → e = some o')

theorem checkGzHdr_sound {a : ℕ} {scan : Option HeaderScan} {e : Option ℕ}
    (h : a ≤ r → Sound r scan o e) : Sound r (checkGzHdr r a scan) o e := by
  intro x hx
  unfold checkGzHdr at hx
  by_cases hmore : a > r
  · rw [if_pos hmore] at hx
    exact .inl ⟨a, (Option.some.inj hx).symm, hmore⟩
  · rw [if_neg hmore] at hx
    exact h (by omega) x hx

theorem Sound.mono {scan : Option HeaderScan} {e : Option ℕ} (h : Sound r scan O e)
    (hle : o ≤ O) : Sound r scan o e := by
  intro x hx
  obtain hmore | ⟨o', hdone, ho, he⟩ := h x hx
  · exact .inl hmore
  · exact .inr ⟨o', hdone, hle.trans ho, he⟩

theorem gzSkip_sound (hr : r ≤ T.length) (o : ℕ) :
    Sound r (gzSkip r ((staging T r).drop o) o) o (stringEnd T o) := by
  obtain ⟨n, hn⟩ : ∃ n, r - o = n := ⟨_, rfl⟩
  induction n generalizing o with
  | zero =>
    rw [gzSkip_drop]
    intro x hx
    obtain ⟨a, -, hx⟩ := Option.bind_eq_some_iff.mp hx
    by_cases h0 : a = 0
    · rw [if_neg (not_not.mpr h0)] at hx
      exact .inr ⟨o + 1, (Option.some.inj hx).symm, by omega, by omega⟩
    · rw [if_pos h0, checkGzHdr, if_pos (by omega)] at hx
      exact .inl ⟨o + 1, (Option.some.inj hx).symm, by omega⟩
  | succ n ih =>
    rw [gzSkip_drop, stringEnd_eq, staging_byte hr (by omega)]
    intro x hx
    obtain ⟨a, ha, hx⟩ := Option.bind_eq_some_iff.mp hx
    rw [ha, Option.bind_some]
    by_cases h0 : a = 0
    · rw [if_neg (not_not.mpr h0)] at hx
      rw [if_pos h0]
      exact .inr ⟨o + 1, (Option.some.inj hx).symm, by omega, fun _ => rfl⟩
    · rw [if_pos h0] at hx
      rw [if_neg h0]
      exact checkGzHdr_sound (fun _ => (ih (o + 1) (by omega)).mono (Nat.le_succ o)) x hx

theorem gzString_sound (hr : r ≤ T.length) (o : ℕ) :
    Sound r (gzString (staging T r) r o) o (stringEnd T o) :=
  checkGzHdr_sound fun _ => gzSkip_sound hr o

theorem gzExtra_sound (hr : r ≤ T.length) (o : ℕ) :
    Sound r (gzExtra (staging T r) r o) o (extraEnd T o) := by
  refine checkGzHdr_sound fun hle => ?_
  rw [staging_byte hr (by omega), staging_byte hr (by omega)]
  intro x hx
  obtain ⟨hi, hhi, hx⟩ := Option.bind_eq_some_iff.mp hx
  obtain ⟨lo, hlo, hx⟩ := Option.bind_eq_some_iff.mp hx
  refine .inr ⟨_, (Option.some.inj hx).symm, by omega, fun _ => ?_⟩
  unfold extraEnd
  rw [hhi, hlo]
  simp only [Option.bind_eq_bind, Option.bind_some, Option.some.injEq]
  omega

theorem gzPart_sound {flag : Bool} {f : ℕ → Option HeaderScan} {e : ℕ → Option ℕ} (o : ℕ)
    (hf : Sound r (f o) o (e o)) : Sound r (gzPart flag f o) o (partEnd flag e o) := by
  cases flag with
  | true => exact hf
  | false =>
    intro x hx
    exact .inr ⟨o, (Option.some.inj hx).symm, Nat.le_refl o, fun _ => rfl⟩

theorem andThen_sound {scan : Option HeaderScan} {f : ℕ → Option HeaderScan} {e : Option ℕ}
    {e' : ℕ → Option ℕ} (hs : Sound r scan o e) (hf : ∀ o, Sound r (f o) o (e' o)) :
    Sound r (HeaderScan.andThen scan f) o (e.bind e') := by
  intro x hx
  cases scan with
  | none => cases hx
  | some y =>
    obtain ⟨a, rfl, hlt⟩ | ⟨o₁, rfl, hle, he⟩ := hs y rfl
    · exact .inl ⟨a, (Option.some.inj hx).symm, hlt⟩
    · obtain hmore | ⟨o', rfl, hle', he'⟩ := hf o₁ x hx
      · exact .inl hmore
      · refine .inr ⟨o', rfl, hle.trans hle', fun hr => ?_⟩
        rw [he (hle'.trans hr), Option.bind_some, he' hr]

theorem andThen_eq_done {scan : Option HeaderScan} {f : ℕ → Option HeaderScan}
    (h : HeaderScan.andThen scan f = some (.done o)) :
    ∃ o', scan = some (.done o') ∧ f o' = some (.done o) := by
  unfold HeaderScan.andThen at h
  split at h
  · exact ⟨_, rfl, h⟩
  · rename_i hne
    exact absurd h (hne o)

/-- A look asks for more than is staged, or has found the end, inside of what is staged. -/
theorem gzScan_sound (hT : [0x1f, 0x8b, 0x08, flags] <+: T) (hr : r ≤ T.length) {x : HeaderScan}
    (hx : gzScan (staging T r) r = some x) :
    (∃ a, x = .more a ∧ r < a) ∨
      ∃ o, x = .done o ∧ o ≤ r ∧ fieldsEnd T flags (fieldsStart flags) = some o := by
  rw [gzScan_eq hT hr] at hx
  by_cases h4 : 4 > r
  · rw [if_pos h4] at hx
    exact .inl ⟨4, (Option.some.inj hx).symm, h4⟩
  rw [if_neg h4] at hx
  have hfields : Sound r (gzFields (staging T r) r flags) (fieldsStart flags)
      (fieldsEnd T flags (fieldsStart flags)) := by
    refine andThen_sound (gzPart_sound _ (gzExtra_sound hr _)) fun o => ?_
    refine andThen_sound (gzPart_sound _ (gzString_sound hr _)) fun o => ?_
    have hlast : ∀ o, Sound r (checkGzHdr r o (some (.done o))) o (some o) := fun o =>
      checkGzHdr_sound fun _ x hx =>
        .inr ⟨o, (Option.some.inj hx).symm, Nat.le_refl o, fun _ => rfl⟩
    have hcomment : Sound r (HeaderScan.andThen
        (gzPart (flags &&& 0x10 ≠ 0) (gzString (staging T r) r) o)
          fun offset => checkGzHdr r offset (some (.done offset))) o
        ((partEnd (flags &&& 0x10 ≠ 0) (stringEnd T) o).bind some) :=
      andThen_sound (gzPart_sound o (gzString_sound hr o)) hlast
    rwa [Option.bind_fun_some] at hcomment
  obtain hmore | ⟨o, rfl, -, hend⟩ := hfields x hx
  · exact .inl hmore
  · obtain ⟨_, -, hx⟩ := andThen_eq_done hx
    obtain ⟨_, -, hx⟩ := andThen_eq_done hx
    obtain ⟨o', -, hx⟩ := andThen_eq_done hx
    -- the last check
    unfold checkGzHdr at hx
    by_cases hmore : o' > r
    · rw [if_pos hmore] at hx
      cases hx
    · rw [if_neg hmore] at hx
      obtain rfl : o' = o := HeaderScan.done.inj (Option.some.inj hx)
      exact .inr ⟨o', rfl, by omega, hend (by omega)⟩

/-- A look asks for more than is staged, but not for more than the header, until all is there. -/
theorem gzScan_of_le (hT : [0x1f, 0x8b, 0x08, flags] <+: T)
    (h : fieldsEnd T flags (fieldsStart flags) = some E) (hc : E ≤ XS_CHUNK_SIZE)
    (hr : r ≤ T.length) (hle : r ≤ E) :
    (∃ a, gzScan (staging T r) r = some (.more a) ∧ r < a ∧ a ≤ E) ∨
      r = E ∧ gzScan (staging T r) r = some (.done E) := by
  have hstart := (le_fieldsStart flags).trans (le_of_fieldsEnd h)
  have hlook := gzScan_eq hT hr
  by_cases h4 : 4 > r
  · rw [if_pos h4] at hlook
    exact .inl ⟨4, hlook, h4, by omega⟩
  rw [if_neg h4] at hlook
  obtain ⟨e₁, h₁, h'⟩ := Option.bind_eq_some_iff.mp h
  obtain ⟨e₂, h₂, h₃⟩ := Option.bind_eq_some_iff.mp h'
  have hle₂ := le_of_partEnd (e := stringEnd T) (fun h => (lt_of_stringEnd h).le) h₂
  have hle₃ := le_of_partEnd (e := stringEnd T) (fun h => (lt_of_stringEnd h).le) h₃
  have hscan : ScanTo r (gzFields (staging T r) r flags) E := by
    refine andThen_scanTo (E := e₁)
      (gzPart_scanTo (.inl rfl) (gzExtra_scanTo hr (.inl rfl)) h₁) (by omega) fun o ho => ?_
    refine andThen_scanTo (E := e₂)
      (gzPart_scanTo ho (gzString_scanTo hr (by omega) ho) h₂) (by omega) fun o ho => ?_
    refine andThen_scanTo (E := E)
      (gzPart_scanTo ho (gzString_scanTo hr (by omega) ho) h₃) (Nat.le_refl _) fun o ho => ?_
    unfold checkGzHdr
    by_cases hmore : o > r
    · rw [if_pos hmore]
      refine .inl ⟨o, rfl, hmore, ?_⟩
      obtain rfl | ⟨-, hle⟩ := ho <;> omega
    · rw [if_neg hmore]
      exact .inr ⟨o, rfl, ho⟩
  rw [← hlook] at hscan
  obtain hmore | ⟨o, hdone, -⟩ := hscan
  · exact .inl hmore
  · obtain ⟨a, habsurd, -⟩ | ⟨o', ho', hle', hend⟩ := gzScan_sound hT hr hdone
    · cases habsurd
    · obtain rfl : o = o' := HeaderScan.done.inj ho'
      obtain rfl : E = o := Option.some.inj (h.symm.trans hend)
      exact .inr ⟨by omega, hdone⟩

/-! ## The loop -/

/-- The parts of `T`, as `xs_compress_in` takes them, end at `E`, inside of `xc->out`. -/
def HeaderAt (T : List UInt8) (flags : UInt8) (E : ℕ) : Prop :=
  fieldsEnd T flags (fieldsStart flags) = some E ∧ E ≤ XS_CHUNK_SIZE

variable {κ : Type*} {xc xc' : Compress κ} {c : ℕ}

/-- The first `c` bytes of `T` are staged, and they are not the whole header. -/
structure Staged (T : List UInt8) (flags : UInt8) (c : ℕ) (xc : Compress κ) : Prop where
  out : xc.out = staging T c
  rtotal : xc.rtotal = c
  chunk : c ≤ XS_CHUNK_SIZE
  headeroffset : xc.headeroffset = 0
  availIn : xc.availIn = 0
  gzip : xc.isGzip = true
  mode : xc.isCompress = false
  headermin : c < if xc.headermin = 0 then 10 else xc.headermin
  bound : ∀ E, HeaderAt T flags E → (if xc.headermin = 0 then 10 else xc.headermin) ≤ E

/-- The look that ended the header was made with the first `pos` bytes of the input taken. -/
structure Skipped (T : List UInt8) (flags : UInt8) (c : ℕ) (buf : List UInt8) (pos : ℕ)
    (xc : Compress κ) : Prop where
  pos_le : pos ≤ buf.length
  chunk : c + pos ≤ XS_CHUNK_SIZE
  bound : ∀ E, HeaderAt T flags E → c + pos ≤ E
  scan : gzScan (staging T (c + pos)) (c + pos) = some (.done xc.headeroffset)
  gzip : xc.isGzip = true
  mode : xc.isCompress = false
  nextIn : xc.nextIn = buf.drop (pos + xc.headeroffset - (c + pos))
  availIn : xc.availIn = xc.nextIn.length % 2 ^ 32

/-- `n` more bytes are staged, if there is room. -/
theorem stage_eq (hs : Staged T flags c xc) {b : List UInt8} {n hm : ℕ}
    (hb : T.take (c + b.length) = T.take c ++ b) (hlen : c + b.length ≤ T.length)
    (hhm : (if xc.headermin = 0 then 10 else xc.headermin) = hm)
    (hn : min b.length (hm - c) = n) :
    xc.stage b = if c + n ≤ XS_CHUNK_SIZE then
      some ({ xc with headermin := hm, out := staging T (c + n), rtotal := c + n }, n)
    else none := by
  have hlt := hs.headermin
  rw [hhm] at hlt
  have hout : (if b.length + c > hm then hm - c else b.length) = n := by
    split_ifs <;> omega
  have htake : T.take (c + n) = T.take c ++ b.take n := by
    have := congrArg (List.take (c + n)) hb
    rwa [List.take_take, Nat.min_eq_left (by omega), List.take_append, List.take_take,
      Nat.min_eq_right (by omega), List.length_take, Nat.min_eq_left (by omega),
      Nat.add_sub_cancel_left] at this
  have hstaging := hs.chunk
  unfold Compress.stage
  dsimp only
  rw [hhm, hs.rtotal, if_pos hlt, hout, hs.out]
  unfold writeBytes
  rw [length_staging (by omega) hs.chunk, List.length_take, Nat.min_eq_left (by omega)]
  by_cases hc : c + n ≤ XS_CHUNK_SIZE
  · rw [if_pos hc, if_pos hc, Option.map_some]
    have hnew : (staging T c).take c ++ b.take n ++ (staging T c).drop (c + n) =
        staging T (c + n) := by
      have hlength : (T.take c).length = c := by
        rw [List.length_take, Nat.min_eq_left (by omega)]
      unfold staging
      rw [htake, List.take_left' hlength, List.drop_append, hlength,
        List.drop_eq_nil_of_le (by omega), List.nil_append, List.drop_replicate]
      congr 2
      omega
    rw [hnew]
  · rw [if_neg hc, if_neg hc]
    rfl

/-- The loop stages all of its input, or skips the header; and if the header fits it goes
through. -/
theorem header_spec (hT : [0x1f, 0x8b, 0x08, flags] <+: T) {buf : List UInt8} {fuel pos : ℕ}
    {last : Bool} (hbuf : T.take (c + buf.length) = T.take c ++ buf)
    (hlen : c + buf.length ≤ T.length) (hpos : pos ≤ buf.length) (hfuel : buf.length - pos < fuel)
    (hs : Staged T flags (c + pos) xc) :
    ((∃ E, HeaderAt T flags E) → (xc.header fuel buf pos last).isSome = true) ∧
      ∀ ret xc', xc.header fuel buf pos last = some (ret, xc') →
        Staged T flags (c + buf.length) xc' ∨ ∃ pos', Skipped T flags c buf pos' xc' := by
  induction fuel generalizing pos xc with
  | zero => omega
  | succ fuel ih =>
    have hb : T.take (c + pos + (buf.drop pos).length) = T.take (c + pos) ++ buf.drop pos := by
      have htake := congrArg (List.take (c + pos)) hbuf
      rw [List.take_take, Nat.min_eq_left (by omega), List.take_append, List.take_take,
        Nat.min_eq_right (by omega), List.length_take, Nat.min_eq_left (by omega),
        Nat.add_sub_cancel_left] at htake
      rw [List.length_drop, show c + pos + (buf.length - pos) = c + buf.length by omega, hbuf,
        htake, List.append_assoc, List.take_append_drop]
    obtain ⟨hm, hhm⟩ : ∃ hm, (if xc.headermin = 0 then 10 else xc.headermin) = hm := ⟨_, rfl⟩
    obtain ⟨n, hn⟩ : ∃ n, min (buf.drop pos).length (hm - (c + pos)) = n := ⟨_, rfl⟩
    have hstage := stage_eq hs hb (by rw [List.length_drop]; omega) hhm hn
    have hlt := hs.headermin
    have hbound := hs.bound
    rw [hhm] at hlt hbound
    rw [List.length_drop] at hn
    unfold Compress.header
    rw [hstage]
    by_cases hc : c + pos + n ≤ XS_CHUNK_SIZE
    · rw [if_pos hc, Option.bind_some]
      dsimp only
      have hr : c + pos + n ≤ T.length := by omega
      have hlook : ∀ E, HeaderAt T flags E →
          (∃ a, gzScan (staging T (c + pos + n)) (c + pos + n) = some (.more a) ∧
            c + pos + n < a ∧ a ≤ E) ∨
          c + pos + n = E ∧
            gzScan (staging T (c + pos + n)) (c + pos + n) = some (.done E) := by
        intro E hE
        have := hbound E hE
        exact gzScan_of_le hT hE.1 hE.2 hr (by omega)
      cases hscan : gzScan (staging T (c + pos + n)) (c + pos + n) with
      | none =>
        refine ⟨?_, fun _ _ h => by cases h⟩
        rintro ⟨E, hE⟩
        rw [hscan] at hlook
        obtain ⟨a, ha, -⟩ | ⟨-, ha⟩ := hlook E hE <;> cases ha
      | some x =>
        rw [Option.bind_some]
        obtain ⟨a, rfl, hmore⟩ | ⟨o, rfl, hle, hend⟩ := gzScan_sound hT hr hscan
        · -- more bytes are needed
          have hstaged : ∀ k, c + pos + n = k → Staged T flags k
              { xc with
                headermin := a
                out := staging T (c + pos + n)
                rtotal := c + pos + n } := by
            rintro _ rfl
            have ha : (if a = 0 then 10 else a) = a := if_neg (by omega)
            refine ⟨rfl, rfl, hc, hs.headeroffset, hs.availIn, hs.gzip, hs.mode, ?_, fun E hE => ?_⟩
            · rw [ha]
              exact hmore
            · rw [ha]
              obtain ⟨a', ha', -, hle⟩ | ⟨-, ha'⟩ := hlook E hE
              · rw [hscan] at ha'
                obtain rfl : a = a' := HeaderScan.more.inj (Option.some.inj ha')
                exact hle
              · rw [hscan] at ha'
                cases ha'
          dsimp only
          by_cases hgo : pos + n < buf.length
          · rw [if_pos hgo]
            exact ih hgo.le (by omega) (hstaged _ (Nat.add_assoc c pos n))
          · rw [if_neg hgo]
            have hall := hstaged (c + buf.length) (by omega)
            cases last with
            | true =>
              refine ⟨fun _ => rfl, fun ret xc' h => .inl ?_⟩
              obtain ⟨-, rfl⟩ := Prod.mk.inj (Option.some.inj h)
              exact ⟨hall.out, hall.rtotal, hall.chunk, hall.headeroffset, hall.availIn, hall.gzip,
                hall.mode, hall.headermin, hall.bound⟩
            | false =>
              refine ⟨fun _ => rfl, fun ret xc' h => .inl ?_⟩
              obtain ⟨-, rfl⟩ := Prod.mk.inj (Option.some.inj h)
              exact hall
        · -- the header ends
          dsimp only
          constructor
          · rintro ⟨E, hE⟩
            obtain ⟨a, ha, -⟩ | ⟨heq, ha⟩ := hlook E hE
            · rw [hscan] at ha
              cases ha
            · rw [hscan] at ha
              obtain rfl : o = E := HeaderScan.done.inj (Option.some.inj ha)
              rw [if_pos (by omega)]
              rfl
          · intro ret xc' h
            split_ifs at h
            obtain ⟨-, rfl⟩ := Prod.mk.inj (Option.some.inj h)
            refine .inr ⟨pos + n, by omega, by omega, fun E hE => ?_, ?_, hs.gzip, hs.mode, ?_, rfl⟩
            · have := hbound E hE
              omega
            · rw [← Nat.add_assoc]
              exact hscan
            · rw [← Nat.add_assoc]
              rfl
    · rw [if_neg hc]
      refine ⟨?_, fun _ _ h => by cases h⟩
      rintro ⟨E, hE⟩
      have := hbound E hE
      have := hE.2
      omega

/-! ## Calls -/

/-- The header has `H` bytes, and `before` bytes were passed before these calls, of which each gets
one of `ps`. `headeroffset` is set by the one that gets the last byte of the header, and each hands
on what it gets behind the header. -/
def SkipsHeader (H : ℕ) : ℕ → List (List UInt8 × Bool) → List (ℤ × Compress κ) → Prop
  | _, [], [] => True
  | before, p :: ps, r :: rs =>
    r.2.headeroffset = (if H ≤ before + p.1.length then H else 0) ∧
      r.2.input = p.1.drop (H - before) ∧ SkipsHeader H (before + p.1.length) ps rs
  | _, _, _ => False

/-- The length of what each call hands on has 32 bits. -/
def HandsFit (H : ℕ) : ℕ → List (List UInt8 × Bool) → Prop
  | _, [] => True
  | before, p :: ps => (p.1.drop (H - before)).length < 2 ^ 32 ∧ HandsFit H (before + p.1.length) ps

variable {Z : Zlib κ} {H : ℕ} {p : List UInt8 × Bool} {ps : List (List UInt8 × Bool)}

theorem compressIn_staged (hT : [0x1f, 0x8b, 0x08, flags] <+: T) (hs : Staged T flags c xc)
    (hc : c ≤ T.length) (hp : T.drop c = p.1 ++ (ps.map Prod.fst).flatten) :
    ((∃ E, HeaderAt T flags E) → (compressIn Z xc p.1 p.2).isSome = true) ∧
      ∀ ret xc', compressIn Z xc p.1 p.2 = some (ret, xc') →
        Staged T flags (c + p.1.length) xc' ∨ ∃ pos, Skipped T flags c p.1 pos xc' := by
  have hlen := congrArg List.length hp
  rw [List.length_drop, List.length_append] at hlen
  have hbuf : T.take (c + p.1.length) = T.take c ++ p.1 := by
    rw [List.take_add, hp, List.take_left]
  have hloop : compressIn Z xc p.1 p.2 = xc.header (p.1.length + 1) p.1 0 p.2 := by
    unfold compressIn
    rw [if_neg (by rw [hs.mode]; simp), if_pos ⟨hs.gzip, hs.headeroffset⟩]
  rw [hloop]
  exact header_spec hT hbuf (by omega) (Nat.zero_le _) (by omega) hs

/-- Behind the header the input is handed on. -/
theorem compressIn_skipped (hmode : xc.isCompress = false)
    (hoffset : xc.headeroffset ≠ 0) : compressIn Z xc p.1 p.2 = some (0, xc.hand p.1 p.2) := by
  unfold compressIn
  rw [if_neg (by rw [hmode]; simp), if_neg fun h => hoffset h.2]

/-- Nothing is staged in a new decompressor. -/
theorem compressCreate_staged (T : List UInt8) (flags : UInt8) (z : κ) :
    Staged T flags 0 (compressCreate .decompressGzip z) := by
  refine ⟨rfl, rfl, Nat.zero_le _, rfl, rfl, rfl, rfl, Nat.zero_lt_succ 9, fun E hE => ?_⟩
  exact (le_fieldsStart _).trans (le_of_fieldsEnd hE.1)

/-- If the calls skip `H` bytes, the parts end there. -/
theorem headerAt_of_skipsHeader (hT : [0x1f, 0x8b, 0x08, flags] <+: T)
    {rs : List (ℤ × Compress κ)} (hs : Staged T flags c xc) (hc : c ≤ T.length)
    (hps : T.drop c = (ps.map Prod.fst).flatten)
    (hrs : Calls.run (fun xc p => compressIn Z xc p.1 p.2) xc ps = some rs)
    (hskips : SkipsHeader H c ps rs) (hlt : c < H) (hH : H ≤ T.length) : HeaderAt T flags H := by
  induction ps generalizing c xc rs with
  | nil =>
    have := List.drop_eq_nil_iff.mp hps
    omega
  | cons p ps ih =>
    obtain ⟨⟨ret, xc'⟩, hr, hrs⟩ := Option.bind_eq_some_iff.mp hrs
    obtain ⟨rs', hrs', rfl⟩ := Option.map_eq_some_iff.mp hrs
    obtain ⟨hoffset, -, hskips⟩ := hskips
    rw [List.map_cons, List.flatten_cons] at hps
    dsimp only at hoffset
    have hlen := congrArg List.length hps
    rw [List.length_drop, List.length_append] at hlen
    obtain hs' | ⟨pos, hpos⟩ := (compressIn_staged hT hs hc hps).2 ret xc' hr
    · have hbefore : ¬H ≤ c + p.1.length := by
        intro hle
        rw [if_pos hle, hs'.headeroffset] at hoffset
        omega
      refine ih hs' (by omega) ?_ hrs' hskips (by omega)
      rw [← List.drop_drop, hps, List.drop_left]
    · have hposle := hpos.pos_le
      obtain ⟨a, ha, -⟩ | ⟨o, ho, hle, hend⟩ := gzScan_sound hT (by omega) hpos.scan
      · cases ha
      obtain rfl := HeaderScan.done.inj ho
      have hchunk := hpos.chunk
      have hstart := (le_fieldsStart flags).trans (le_of_fieldsEnd hend)
      split_ifs at hoffset
      · rw [hoffset] at hend hle
        exact ⟨hend, by omega⟩
      · omega

/-- What is cut to 32 bits is whole exactly if its length fits them. -/
theorem take_mod_eq_iff (l : List UInt8) : l.take (l.length % 2 ^ 32) = l ↔ l.length < 2 ^ 32 := by
  constructor
  · intro h
    have hlen := congrArg List.length h
    rw [List.length_take] at hlen
    omega
  · intro h
    exact List.take_of_length_le (by omega)

/-- If the parts end at `H`, the calls skip `H` bytes, but for what `avail_in` cuts off. -/
theorem run_of_headerAt (hT : [0x1f, 0x8b, 0x08, flags] <+: T) (hend : HeaderAt T flags H)
    (hc : c ≤ T.length) (hps : T.drop c = (ps.map Prod.fst).flatten)
    (hxc : Staged T flags c xc ∨
      H ≤ c ∧ xc.headeroffset = H ∧ xc.isGzip = true ∧ xc.isCompress = false) :
    ∃ rs, Calls.run (fun xc p => compressIn Z xc p.1 p.2) xc ps = some rs ∧
      (SkipsHeader H c ps rs ↔ HandsFit H c ps) := by
  have hstart := (le_fieldsStart flags).trans (le_of_fieldsEnd hend.1)
  induction ps generalizing c xc with
  | nil => exact ⟨[], rfl, Iff.rfl⟩
  | cons p ps ih =>
    rw [List.map_cons, List.flatten_cons] at hps
    have hlen := congrArg List.length hps
    rw [List.length_drop, List.length_append] at hlen
    have hps' : T.drop (c + p.1.length) = (ps.map Prod.fst).flatten := by
      rw [← List.drop_drop, hps, List.drop_left]
    -- one call
    obtain ⟨ret, xc', hr, hoffset, hinput, hxc'⟩ : ∃ ret xc',
        compressIn Z xc p.1 p.2 = some (ret, xc') ∧
        xc'.headeroffset = (if H ≤ c + p.1.length then H else 0) ∧
        xc'.input = (p.1.drop (H - c)).take ((p.1.drop (H - c)).length % 2 ^ 32) ∧
        (Staged T flags (c + p.1.length) xc' ∨ H ≤ c + p.1.length ∧ xc'.headeroffset = H ∧
          xc'.isGzip = true ∧ xc'.isCompress = false) := by
      obtain hs | ⟨hle, hoffset, hgzip, hmode⟩ := hxc
      · obtain ⟨htotal, hcases⟩ := compressIn_staged (Z := Z) hT hs hc hps
        obtain ⟨⟨ret, xc'⟩, hr⟩ := Option.isSome_iff_exists.mp (htotal ⟨H, hend⟩)
        refine ⟨ret, xc', hr, ?_⟩
        obtain hs' | ⟨pos, hpos⟩ := hcases ret xc' hr
        · have hbefore : c + p.1.length < H := hs'.headermin.trans_le (hs'.bound H hend)
          rw [if_neg (by omega), List.drop_eq_nil_of_le (by omega)]
          refine ⟨hs'.headeroffset, ?_, .inl hs'⟩
          rw [Compress.input, hs'.availIn, List.take_zero]
          rfl
        · have hposle := hpos.pos_le
          have hle := hpos.bound H hend
          obtain ⟨a, ha, -⟩ | ⟨heq, hdone⟩ := gzScan_of_le hT hend.1 hend.2 (by omega) hle
          · rw [hpos.scan] at ha
            cases ha
          · rw [hpos.scan] at hdone
            have hoffset : xc'.headeroffset = H := HeaderScan.done.inj (Option.some.inj hdone)
            rw [if_pos (by omega)]
            refine ⟨hoffset, ?_, .inr ⟨by omega, hoffset, hpos.gzip, hpos.mode⟩⟩
            rw [Compress.input, hpos.availIn, hpos.nextIn, hoffset,
              show pos + H - (c + pos) = H - c by omega]
      · have hr := compressIn_skipped (Z := Z) (p := p) hmode (by omega)
        refine ⟨_, _, hr, ?_⟩
        rw [if_pos (by omega), show H - c = 0 by omega, List.drop_zero]
        exact ⟨hoffset, rfl, .inr ⟨by omega, hoffset, hgzip, hmode⟩⟩
    obtain ⟨rs, hrs, hiff⟩ := ih (by omega) hps' hxc'
    refine ⟨(ret, xc') :: rs, ?_, ?_⟩
    · unfold Calls.run
      rw [hr, Option.bind_some, hrs]
      rfl
    · unfold SkipsHeader HandsFit
      dsimp only
      rw [hiff, hinput, take_mod_eq_iff]
      exact ⟨fun h => h.2, fun h => ⟨hoffset, h⟩⟩

/-- The header of RFC 1952 is skipped exactly if it fits `xc->out`, the parts end where it ends also
if they are read from byte 12 on when there is a CRC, and no call hands on too much. -/
theorem skipsHeader_iff (Z : Zlib κ) (z : κ) (h : Gzip.Header) (rest : List UInt8)
    (ps : List (List UInt8 × Bool)) (hps : (ps.map Prod.fst).flatten = h.bytes ++ rest) :
    (∃ rs, Calls.run (fun xc p => compressIn Z xc p.1 p.2) (compressCreate .decompressGzip z) ps =
        some rs ∧ SkipsHeader h.bytes.length 0 ps rs) ↔
      h.bytes.length ≤ XS_CHUNK_SIZE ∧
        (h.hcrc.isSome = true →
          fieldsEnd (h.bytes ++ rest) h.flags 12 = some h.bytes.length) ∧
        HandsFit h.bytes.length 0 ps := by
  obtain ⟨T, hT⟩ : ∃ T, h.bytes ++ rest = T := ⟨_, rfl⟩
  have hmagic : [0x1f, 0x8b, 0x08, h.flags] <+: T := by
    rw [← hT, Header.bytes, Header.start, List.append_assoc, List.append_assoc]
    exact List.prefix_append _ _
  have hlen := congrArg List.length hT
  rw [List.length_append] at hlen
  have hfresh := compressCreate_staged T h.flags z
  have hdrop : T.drop 0 = (ps.map Prod.fst).flatten := by
    rw [hps, hT, List.drop_zero]
  have hpos : 0 < h.bytes.length := by
    rw [Header.bytes, List.length_append, h.length_start]
    omega
  have hflag := h.flags_spec.1
  rw [hT]
  constructor
  · rintro ⟨rs, hrs, hskips⟩
    have hend := headerAt_of_skipsHeader hmagic hfresh (Nat.zero_le _) hdrop hrs hskips hpos
      (by omega)
    obtain ⟨rs', hrs', hiff⟩ := run_of_headerAt (Z := Z) hmagic hend (Nat.zero_le _) hdrop
      (.inl hfresh)
    obtain rfl : rs = rs' := Option.some.inj (hrs.symm.trans hrs')
    refine ⟨hend.2, fun hcrc => ?_, hiff.mp hskips⟩
    have hend := hend.1
    rwa [fieldsStart, if_pos (hflag.mpr hcrc)] at hend
  · rintro ⟨hchunk, hfields, hfit⟩
    have hend : HeaderAt T h.flags h.bytes.length := by
      refine ⟨?_, hchunk⟩
      unfold fieldsStart
      by_cases hcrc : h.hcrc.isSome = true
      · rw [if_pos (hflag.mpr hcrc)]
        exact hfields hcrc
      · rw [if_neg (mt hflag.mp hcrc), ← hT]
        exact fieldsEnd_bytes h (Option.not_isSome_iff_eq_none.mp hcrc) rest
    obtain ⟨rs, hrs, hiff⟩ := run_of_headerAt (Z := Z) hmagic hend (Nat.zero_le _) hdrop
      (.inl hfresh)
    exact ⟨rs, hrs, hiff.mpr hfit⟩

/-- The header of a file `a.txt`. -/
def namedHeader (hcrc : Option (UInt8 × UInt8)) : Gzip.Header where
  ftext := false
  fixed := [0, 0, 0, 0, 0, 3]
  fixed_length := rfl
  extra := none
  extra_lt _ h := by cases h
  name := some [97, 46, 116, 120, 116]
  name_ne := by decide
  comment := none
  comment_ne _ h := by cases h
  hcrc := hcrc

/-- It is skipped without a CRC. -/
theorem skipsHeader_iff_named :
    (∃ rs, Calls.run (fun xc p => compressIn zeroZlib xc p.1 p.2)
        (compressCreate .decompressGzip none)
        [((namedHeader none).bytes, false), ([0x03, 0x00], true)] = some rs ∧
      SkipsHeader (namedHeader none).bytes.length 0
        [((namedHeader none).bytes, false), ([0x03, 0x00], true)] rs) ↔
      (namedHeader none).bytes.length ≤ XS_CHUNK_SIZE ∧
        ((namedHeader none).hcrc.isSome = true →
          fieldsEnd ((namedHeader none).bytes ++ [0x03, 0x00]) (namedHeader none).flags 12 =
            some (namedHeader none).bytes.length) ∧
        HandsFit (namedHeader none).bytes.length 0
          [((namedHeader none).bytes, false), ([0x03, 0x00], true)] :=
  skipsHeader_iff zeroZlib none (namedHeader none) [0x03, 0x00]
    [((namedHeader none).bytes, false), ([0x03, 0x00], true)] rfl

/-- With its CRC it is taken to be two bytes shorter. -/
theorem not_skipsHeader_hcrc :
    ¬∃ rs, Calls.run (fun xc p => compressIn zeroZlib xc p.1 p.2)
        (compressCreate .decompressGzip none)
        [((namedHeader (some (0x72, 0xd9))).bytes ++ [0x03, 0x00, 0, 0, 0, 0, 0, 0, 0, 0], true)] =
          some rs ∧
      SkipsHeader (namedHeader (some (0x72, 0xd9))).bytes.length 0
        [((namedHeader (some (0x72, 0xd9))).bytes ++ [0x03, 0x00, 0, 0, 0, 0, 0, 0, 0, 0], true)]
        rs := by
  rintro ⟨rs, hrs, hskips⟩
  obtain ⟨T, hT⟩ : ∃ T, T = (namedHeader (some (0x72, 0xd9))).bytes ++
      [0x03, 0x00, 0, 0, 0, 0, 0, 0, 0, 0] := ⟨_, rfl⟩
  have hmagic : [0x1f, 0x8b, 0x08, 0x0a] <+: T := by
    rw [hT]
    exact ⟨_, rfl⟩
  have hdrop : T.drop 0 = ([(T, true)].map Prod.fst).flatten := by
    rw [List.drop_zero]
    exact (List.append_nil T).symm
  rw [← hT] at hrs hskips
  have hend := headerAt_of_skipsHeader hmagic (compressCreate_staged T 0x0a none) (Nat.zero_le _)
    hdrop hrs hskips (by decide) (by rw [hT]; decide)
  have hfields := hend.1
  rw [hT] at hfields
  exact absurd hfields (by decide)

end Webxs
