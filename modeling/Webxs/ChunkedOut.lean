import Webxs.Accepting
import Webxs.Chunked
import Webxs.Http
import Webxs.PrintfRuns

/-!
# Chunked output

`xs_conn_write_chunked` and `xs_conn_printf_chunked` (`xs_connection.h`) frame what they write as
chunks. The size line of a formatted chunk comes from a run of `xs_sprintf_core` without callback,
and the chunk from a second run that writes to the connection.

On a connection that takes all it is given, each call emits a chunk with its text
(`chunk_emitted`). A text that is empty makes its chunk the last one, in the middle of the body :
`wellFramed_iff` says that the calls and the terminating one emit a chunked body of the texts
exactly if no formatted text is empty.
-/

namespace Webxs

/-! ## The calls -/

/-- The connection after blocks were written to it with `MSG_MORE`. -/
def Out.printed (o : Out) (blocks : List (List UInt8)) : Out :=
  blocks.foldl (fun o block => (connWrite false o block true).2) o

/-- `xs_conn_print_header_cb`. -/
def connPrintHeaderCb (o : Out) : Sflush :=
  fun blocks block => (connWrite false (o.printed blocks) block true).1

/-- `xs_conn_print_more_cb`. -/
def connPrintMoreCb : Sflush :=
  fun _ block => block.length

/-- `xs_sprintf_core` with a callback that writes to the connection. -/
def connSprintf (answer : Sflush) (o : Out) (fmt : List UInt8) (ap : List Arg) :
    Option (ℤ × Out) :=
  (sprintfCore (some answer) none 0 fmt ap).map fun (p : Printed) => (p.result, o.printed p.blocks)

/-- `xs_conn_printf_header`. -/
def connPrintfHeader (o : Out) (fmt : List UInt8) (ap : List Arg) : Option (ℤ × Out) :=
  if fmt = [] then some (0, o) else connSprintf (connPrintHeaderCb o) o fmt ap

/-- `xs_conn_write_chunked`. -/
def connWriteChunked (o : Out) (buf : List UInt8) : Option (ℤ × Out) :=
  if buf.length = 0 then connPrintfHeader o (ascii "0\r\n\r\n") []
  else do
    let (rret, o) ← connPrintfHeader o (ascii "%x\r\n") [.int (BitVec.ofNat 32 buf.length)]
    let (n, o) := connWrite false o buf false
    let (rret', o) ← connPrintfHeader o (ascii "\r\n") []
    some (rret + n + rret', o)

/-- `xs_conn_printf_chunked`. -/
def connPrintfChunked (o : Out) (fmt : List UInt8) (ap : List Arg) : Option (ℤ × Out) :=
  if fmt = [] then connWriteChunked o []
  else do
    let p ← sprintfCore none none 0 fmt ap
    let (len, o) ← connPrintfHeader o (ascii "%x\r\n") [.int (BitVec.ofInt 32 p.result)]
    let (len', o) ← connSprintf connPrintMoreCb o fmt ap
    let (len'', o) ← connPrintfHeader o (ascii "\r\n") []
    some (len + len' + len'', o)

/-! ## Widths -/

/-- A width or a precision as a call without buffer caps it. -/
def capBits (w : BitVec 32) : BitVec 32 :=
  if 1024 < w.toInt then 1024 else w

/-- An item as a call without buffer writes it. -/
def Item.capped : Item → Item
  | .str left w pr vs p => .str left (capBits w) (capBits pr) vs p
  | .int s => .int { s with w := capBits s.w, pr := capBits s.pr }
  | item => item

theorem cap_capBits (sflush : Option Sflush) (w : BitVec 32) :
    (streaming sflush).cap (capBits w).toInt = (streaming sflush).cap w.toInt := by
  unfold capBits Setup.cap streaming
  dsimp only
  split_ifs <;> first | rfl | omega

theorem writeItem_capped (sflush : Option Sflush) (item : Item) (o : Sink) :
    (streaming sflush).writeItem item.capped o = (streaming sflush).writeItem item o := by
  cases item with
  | text l => rfl
  | chr c => rfl
  | nothing => rfl
  | str left w pr vs p => simp only [Item.capped, Setup.writeItem, cap_capBits]
  | int s =>
    simp only [Item.capped, Setup.writeItem, cap_capBits]
    rfl

theorem writeItems_capped (sflush : Option Sflush) (is : List Item) (o : Sink) :
    (streaming sflush).writeItems (is.map Item.capped) o = (streaming sflush).writeItems is o := by
  induction is generalizing o with
  | nil => rfl
  | cons item is ih =>
    simp only [List.map_cons, Setup.writeItems, writeItem_capped, ih]

theorem capBits_le (w : BitVec 32) : (capBits w).toInt ≤ 1024 := by
  unfold capBits
  split_ifs
  · decide
  · omega

theorem bounded_capped (item : Item) : item.capped.Bounded 1024 := by
  cases item with
  | str => exact ⟨capBits_le _, capBits_le _⟩
  | int => exact ⟨capBits_le _, capBits_le _⟩
  | _ => trivial

/-! ## Printing to a connection that takes everything -/

variable {o o₁ o₂ : Out} {t t' fmt : List UInt8} {ap : List Arg} {is : List Item}

theorem printed_took (blocks : List (List UInt8)) (h : o.AcceptsAll) :
    Took o blocks.flatten (o.printed blocks) := by
  induction blocks generalizing o with
  | nil => exact .nil h
  | cons block blocks ih =>
    obtain ⟨o', hw, htook⟩ := connWrite_took block true h
    rw [List.flatten_cons]
    refine htook.trans ?_
    rw [show o.printed (block :: blocks) = o'.printed blocks by simp [Out.printed, hw]]
    exact ih htook.accepts

/-- Both callbacks take what they are given. -/
theorem accepts_connPrintHeaderCb (h : o.AcceptsAll) : Sflush.Accepts (connPrintHeaderCb o) := by
  intro blocks block
  obtain ⟨o', hw, -⟩ := connWrite_took block true (printed_took blocks h).accepts
  unfold connPrintHeaderCb
  rw [hw]

/-- A format is printed as its items are. -/
theorem connSprintf_took {answer : Sflush} (h : o.AcceptsAll) (ha : Sflush.Accepts answer)
    (hm : Matches fmt ap is) (hlen : (rendering (is.map Item.capped)).length < 2 ^ 31) :
    ∃ o', connSprintf answer o fmt ap = some (((rendering (is.map Item.capped)).length : ℤ), o') ∧
      Took o (rendering (is.map Item.capped)) o' := by
  have hb : ∀ item ∈ is.map Item.capped, item.Bounded 1024 :=
    List.forall_mem_map.mpr fun item _ => bounded_capped item
  obtain ⟨r, hrun, hcontents, hind, htotal⟩ :=
    writeItems_streaming_start (some answer) (fun _ h => by cases h; exact ha) hb hlen
  rw [writeItems_capped] at hrun
  obtain ⟨blocks, str, hcore, hflat⟩ :=
    sprintfCore_of_run_answer hm ha 0 hrun hcontents hind htotal
  unfold connSprintf
  rw [hcore]
  exact ⟨_, rfl, hflat ▸ printed_took blocks h⟩

/-- The run without callback gives the length. -/
theorem sprintfCore_length (hm : Matches fmt ap is)
    (hlen : (rendering (is.map Item.capped)).length < 2 ^ 31) :
    ∃ str, sprintfCore none none 0 fmt ap =
      some ⟨(rendering (is.map Item.capped)).length, [], str⟩ := by
  have hb : ∀ item ∈ is.map Item.capped, item.Bounded 1024 :=
    List.forall_mem_map.mpr fun item _ => bounded_capped item
  obtain ⟨r, hrun, -, -, htotal⟩ :=
    writeItems_streaming_start none (fun _ h => by cases h) hb hlen
  rw [writeItems_capped] at hrun
  exact sprintfCore_of_run_count hm 0 hrun htotal

theorem connPrintfHeader_took (h : o.AcceptsAll) (hne : fmt ≠ []) (hm : Matches fmt ap is)
    (ht : rendering (is.map Item.capped) = t) (hlen : t.length < 2 ^ 31) :
    ∃ o', connPrintfHeader o fmt ap = some ((t.length : ℤ), o') ∧ Took o t o' := by
  subst ht
  unfold connPrintfHeader
  rw [if_neg hne]
  exact connSprintf_took h (accepts_connPrintHeaderCb h) hm hlen

/-! ## Size lines -/

theorem hexDigitValue_digit : ∀ d < 16, hexDigitValue
    (if 9 < d then UInt8.ofNat (d - 10) + 97 else UInt8.ofNat d + 48) = some d := by
  decide

/-- The digits of a size are hexadecimal, and have its value. -/
theorem hexValue_backwards (k n : ℕ) (hn : n < 16 ^ k) (hk : 0 < k) :
    IsHex (convertToBackwardsStr k n 16 120).reverse ∧
      hexValue (convertToBackwardsStr k n 16 120).reverse = n := by
  induction k generalizing n with
  | zero => omega
  | succ k ih =>
    have hdigit := hexDigitValue_digit (n % 16) (Nat.mod_lt n (by decide))
    unfold convertToBackwardsStr
    dsimp only
    rw [if_pos rfl] at *
    rw [List.reverse_cons]
    generalize (if 9 < n % 16 then UInt8.ofNat (n % 16 - 10) + 97 else UInt8.ofNat (n % 16) + 48) =
      b at hdigit ⊢
    by_cases h0 : n / 16 = 0
    · rw [if_pos h0]
      refine ⟨⟨by simp, by simp [hdigit]⟩, ?_⟩
      simp only [hexValue, List.reverse_nil, List.nil_append, List.foldl_cons, List.foldl_nil,
        hdigit, Option.getD_some]
      omega
    · rw [if_neg h0]
      have hdiv : n / 16 < 16 ^ k := by
        rw [Nat.pow_succ] at hn
        exact Nat.div_lt_of_lt_mul (by omega)
      have hk' : 0 < k := by
        by_contra hk'
        obtain rfl : k = 0 := by omega
        omega
      obtain ⟨⟨hne, hall⟩, hval⟩ := ih (n / 16) hdiv hk'
      refine ⟨⟨by simp, ?_⟩, ?_⟩
      · intro a ha
        rcases List.mem_append.mp ha with ha | ha
        · exact hall a ha
        · rw [List.mem_singleton.mp ha, hdigit]
          rfl
      · rw [hexValue_append, hval, List.foldl_cons, List.foldl_nil, hdigit, Option.getD_some]
        omega

/-- A size as it is printed. -/
def sizeText (n : ℕ) : List UInt8 :=
  (convertToBackwardsStr 64 n 16 120).reverse

theorem isHex_sizeText {n : ℕ} (hn : n < 2 ^ 31) :
    IsHex (sizeText n) ∧ hexValue (sizeText n) = n :=
  hexValue_backwards 64 n (hn.trans (by decide)) (by decide)

/-- The conversion of a size line. -/
def sizeConv (n : ℕ) : IntConv :=
  ⟨⟨false, false, false, false, false⟩, 0, -1, 4, 16, 120, (BitVec.ofNat 32 n).signExtend 64, 0⟩

theorem vs_sizeConv (n : ℕ) : (sizeConv n).vs ≠ 8 :=
  show (4 : ℤ) ≠ 8 by decide

theorem v_sizeConv {n : ℕ} (hn : n < 2 ^ 31) : (sizeConv n).v = BitVec.ofNat 64 n := by
  have hmsb : (BitVec.ofNat 32 n).msb = false := by
    rw [BitVec.msb_eq_false_iff_two_mul_lt, BitVec.toNat_ofNat]
    omega
  unfold sizeConv
  dsimp only
  rw [BitVec.signExtend_eq_setWidth_of_msb_false hmsb,
    BitVec.setWidth_ofNat_of_le_of_lt (by decide) (by omega)]

theorem neg_sizeConv {n : ℕ} (hn : n < 2 ^ 31) : (sizeConv n).neg = false := by
  have hand : BitVec.ofNat 64 n &&& 0x80000000 = 0 := by
    rw [show (0x80000000 : BitVec 64) = BitVec.twoPow 64 31 from rfl, BitVec.and_twoPow,
      BitVec.getLsbD_ofNat, Nat.testBit_lt_two_pow hn]
    rfl
  unfold IntConv.neg
  rw [if_neg (vs_sizeConv n), v_sizeConv hn, hand]
  rfl

theorem backwards_sizeConv {n : ℕ} (hn : n < 2 ^ 31) :
    (sizeConv n).backwards = convertToBackwardsStr 64 n 16 120 := by
  have hmag : (sizeConv n).magnitude = n := by
    unfold IntConv.magnitude
    rw [if_neg (vs_sizeConv n), neg_sizeConv hn, if_neg (by decide),
      v_sizeConv hn, BitVec.toNat_ofNat]
    omega
  unfold IntConv.backwards
  rw [hmag]
  rfl

/-- What `%x` makes of a size. -/
theorem rendered_size {n : ℕ} (hn : n < 2 ^ 31) :
    (Item.int (sizeConv n)).capped.rendered = sizeText n := by
  have hcap : (Item.int (sizeConv n)).capped = .int (sizeConv n) := rfl
  have hlen := (sizeConv n).length_backwards_le
  have hfill := fillCount_of_le (sizeConv n) (show -2 ^ 31 ≤ (-1 : ℤ) - _ by omega) (by decide)
  have hsilent : ¬(sizeConv n).Silent (sizeConv n).pr.toInt := fun h =>
    absurd h.2.1 (show (-1 : BitVec 32).toInt ≠ 0 by decide)
  have hsign : (sizeConv n).sign = [] := by
    unfold IntConv.sign
    rw [neg_sizeConv hn]
    rfl
  have hpads : ((sizeConv n).w.toInt - (sizeConv n).backwards.reverse.length).toNat = 0 := by
    rw [show (sizeConv n).w.toInt = 0 from rfl]
    omega
  rw [hcap, Item.rendered, if_neg hsilent, hsign, List.nil_append]
  unfold IntConv.number
  dsimp only
  rw [hpads, show (sizeConv n).pr.toInt = -1 from rfl, hfill, Int.toNat_of_nonpos (by omega),
    if_neg (show ¬((sizeConv n).f.left = true) from Bool.false_ne_true), List.replicate_zero,
    List.nil_append, List.replicate_zero, List.nil_append, backwards_sizeConv hn]
  rfl

theorem sizeLine_took (h : o.AcceptsAll) {n : ℕ} (hn : n < 2 ^ 31) :
    ∃ o' r, connPrintfHeader o (ascii "%x\r\n") [.int (BitVec.ofNat 32 n)] = some (r, o') ∧
      Took o (sizeText n ++ [13, 10]) o' := by
  have hm : Matches (ascii "%x\r\n") [.int (BitVec.ofNat 32 n)]
      [.int (sizeConv n), .text [13, 10]] :=
    .cons (by decide) rfl (.cons (by decide) rfl (.nil _))
  have ht : rendering ([.int (sizeConv n), .text [13, 10]].map Item.capped) =
      sizeText n ++ [13, 10] := by
    rw [List.map_cons, rendering_cons, rendered_size hn]
    rfl
  have hlen : (sizeText n ++ [13, 10]).length < 2 ^ 31 := by
    have := length_convertToBackwardsStr_le 64 n 16 120
    simp only [sizeText, List.length_append, List.length_reverse, List.length_cons,
      List.length_nil]
    omega
  obtain ⟨o', hp, htook⟩ := connPrintfHeader_took h (by decide) hm ht hlen
  exact ⟨o', _, hp, htook⟩

theorem lineEnd_took (h : o.AcceptsAll) :
    ∃ o' r, connPrintfHeader o (ascii "\r\n") [] = some (r, o') ∧ Took o [13, 10] o' := by
  have hm : Matches (ascii "\r\n") [] [.text [13, 10]] := .cons (by decide) rfl (.nil _)
  obtain ⟨o', hp, htook⟩ := connPrintfHeader_took h (by decide) hm rfl (by decide)
  exact ⟨o', _, hp, htook⟩

/-- The terminating call. -/
theorem terminate_took (h : o.AcceptsAll) :
    ∃ o' r, connWriteChunked o [] = some (r, o') ∧ Took o [48, 13, 10, 13, 10] o' := by
  have hm : Matches (ascii "0\r\n\r\n") [] [.text [48, 13, 10, 13, 10]] :=
    .cons (by decide) rfl (.nil _)
  obtain ⟨o', hp, htook⟩ := connPrintfHeader_took h (by decide) hm rfl (by decide)
  exact ⟨o', _, hp, htook⟩

/-! ## Runs -/

/-- A call that emits a chunk. The items are those of the format. -/
inductive ChunkCall
  | write (buf : List UInt8)
  | printf (fmt : List UInt8) (ap : List Arg) (is : List Item)

namespace ChunkCall

/-- The text of the chunk. -/
def text : ChunkCall → List UInt8
  | write buf => buf
  | printf _ _ is => rendering (is.map Item.capped)

/-- The call asks for a chunk : its data or its format is not empty, the arguments match the format,
and the text is below 2³¹ bytes. -/
def Proper : ChunkCall → Prop
  | write buf => buf ≠ [] ∧ buf.length < 2 ^ 31
  | printf fmt ap is => fmt ≠ [] ∧ Matches fmt ap is ∧
      (rendering (is.map Item.capped)).length < 2 ^ 31

/-- The call. -/
def exec (o : Out) : ChunkCall → Option (ℤ × Out)
  | write buf => connWriteChunked o buf
  | printf fmt ap _ => connPrintfChunked o fmt ap

/-- The bytes that it emits. -/
def frame (c : ChunkCall) : List UInt8 :=
  sizeText c.text.length ++ 13 :: 10 :: (c.text ++ [13, 10])

end ChunkCall

/-- The calls, and the terminating one. -/
def emitChunked (o : Out) (calls : List ChunkCall) : Option Out := do
  let o ← calls.foldlM (fun o c => (c.exec o).map Prod.snd) o
  (connWriteChunked o []).map Prod.snd

/-- What the calls emit is a chunked body, and decodes to their texts. -/
def WellFramed (o : Out) (calls : List ChunkCall) : Prop :=
  ∃ o' s, emitChunked o calls = some o' ∧ o'.sock.sent = o.sock.sent ++ s ∧
    ChunkedBody s (calls.flatMap ChunkCall.text)

/-- A call emits a chunk with its text, empty or not. -/
theorem chunk_emitted {c : ChunkCall} (h : o.AcceptsAll) (hc : c.Proper) :
    ∃ o' r, c.exec o = some (r, o') ∧ Took o c.frame o' := by
  cases c with
  | write buf =>
    obtain ⟨hne, hlen⟩ := hc
    obtain ⟨o₁, r₁, h₁, ht₁⟩ := sizeLine_took h hlen
    obtain ⟨o₂, h₂, ht₂⟩ := connWrite_took buf false ht₁.accepts
    obtain ⟨o₃, r₃, h₃, ht₃⟩ := lineEnd_took ht₂.accepts
    refine ⟨o₃, r₁ + buf.length + r₃, ?_, ?_⟩
    · simp only [ChunkCall.exec]
      unfold connWriteChunked
      rw [if_neg (by simpa using hne), h₁]
      simp only [Option.bind_eq_bind, Option.bind_some]
      rw [h₂]
      dsimp only
      rw [h₃]
      rfl
    · have hframe : (ChunkCall.write buf).frame =
          sizeText buf.length ++ [13, 10] ++ buf ++ [13, 10] := by
        simp [ChunkCall.frame, ChunkCall.text]
      exact hframe ▸ (ht₁.trans ht₂).trans ht₃
  | printf fmt ap is =>
    obtain ⟨hne, hm, hlen⟩ := hc
    obtain ⟨str, hcount⟩ := sprintfCore_length hm hlen
    obtain ⟨o₁, r₁, h₁, ht₁⟩ := sizeLine_took h hlen
    have hcb : Sflush.Accepts connPrintMoreCb := fun _ _ => rfl
    obtain ⟨o₂, h₂, ht₂⟩ := connSprintf_took ht₁.accepts hcb hm hlen
    obtain ⟨o₃, r₃, h₃, ht₃⟩ := lineEnd_took ht₂.accepts
    refine ⟨o₃, r₁ + (rendering (is.map Item.capped)).length + r₃, ?_, ?_⟩
    · simp only [ChunkCall.exec]
      unfold connPrintfChunked
      rw [if_neg hne, hcount]
      simp only [Option.bind_eq_bind, Option.bind_some, BitVec.ofInt_natCast]
      rw [h₁, Option.bind_some, h₂, Option.bind_some, h₃]
      rfl
    · have hframe : (ChunkCall.printf fmt ap is).frame =
          sizeText (rendering (is.map Item.capped)).length ++ [13, 10] ++
            rendering (is.map Item.capped) ++ [13, 10] := by
        simp [ChunkCall.frame, ChunkCall.text]
      exact hframe ▸ (ht₁.trans ht₂).trans ht₃

theorem foldlM_emitted {calls : List ChunkCall} (h : o.AcceptsAll)
    (hc : ∀ c ∈ calls, c.Proper) :
    ∃ o', calls.foldlM (fun o c => (ChunkCall.exec o c).map Prod.snd) o = some o' ∧
      Took o (calls.flatMap ChunkCall.frame) o' := by
  induction calls generalizing o with
  | nil => exact ⟨o, rfl, .nil h⟩
  | cons c calls ih =>
    rw [List.forall_mem_cons] at hc
    obtain ⟨o₁, r, h₁, ht₁⟩ := chunk_emitted h hc.1
    obtain ⟨o₂, h₂, ht₂⟩ := ih ht₁.accepts hc.2
    refine ⟨o₂, ?_, ?_⟩
    · rw [List.foldlM_cons, h₁]
      exact h₂
    · rw [List.flatMap_cons]
      exact ht₁.trans ht₂

/-- What the run emits. -/
theorem emitChunked_took {calls : List ChunkCall} (h : o.AcceptsAll)
    (hc : ∀ c ∈ calls, c.Proper) :
    ∃ o', emitChunked o calls = some o' ∧
      Took o (calls.flatMap ChunkCall.frame ++ [48, 13, 10, 13, 10]) o' := by
  obtain ⟨o₁, h₁, ht₁⟩ := foldlM_emitted h hc
  obtain ⟨o₂, r, h₂, ht₂⟩ := terminate_took ht₁.accepts
  refine ⟨o₂, ?_, ht₁.trans ht₂⟩
  unfold emitChunked
  rw [h₁, Option.bind_eq_bind, Option.bind_some, h₂]
  rfl

theorem ChunkCall.Proper.length_lt {c : ChunkCall} (h : c.Proper) : c.text.length < 2 ^ 31 := by
  cases c with
  | write => exact h.2
  | printf => exact h.2.2

/-- The frames are a body of the texts if no text is empty. An empty one ends the body. -/
theorem chunkedBody_frames {calls : List ChunkCall} (hc : ∀ c ∈ calls, c.Proper) :
    ChunkedBody (calls.flatMap ChunkCall.frame ++ [48, 13, 10, 13, 10])
        (calls.flatMap ChunkCall.text) ↔
      ∀ c ∈ calls, c.text ≠ [] := by
  induction calls with
  | nil =>
    have hlast : ChunkedBody ([48] ++ 13 :: 10 :: [13, 10]) [] :=
      .last ⟨by decide, List.forall_mem_singleton.mpr rfl⟩ (by decide)
    exact iff_of_true hlast (by simp)
  | cons c calls ih =>
    rw [List.forall_mem_cons] at hc ⊢
    obtain ⟨hhex, hsize⟩ := isHex_sizeText hc.1.length_lt
    rw [← ih hc.2, List.flatMap_cons, List.flatMap_cons, List.append_assoc]
    generalize hrest : calls.flatMap ChunkCall.frame ++ [48, 13, 10, 13, 10] = rest
    have hframe : c.frame ++ rest =
        sizeText c.text.length ++ 13 :: 10 :: (c.text ++ 13 :: 10 :: rest) := by
      simp [ChunkCall.frame]
    rw [hframe]
    by_cases hnil : c.text = []
    · rw [ChunkedBody.last_iff hhex (by rw [hsize, hnil]; rfl), hnil]
      have hne : rest ≠ [] := by
        rw [← hrest]
        simp
      simp [hne]
    · rw [ChunkedBody.chunk_iff hhex (List.length_pos_of_ne_nil hnil) hsize]
      simp [hnil]

/-- The calls emit one chunked body of their texts exactly if no text is empty. Data are not empty,
so this is about the formatted texts. -/
theorem wellFramed_iff {calls : List ChunkCall} (h : o.AcceptsAll)
    (hc : ∀ c ∈ calls, c.Proper) : WellFramed o calls ↔ ∀ c ∈ calls, c.text ≠ [] := by
  obtain ⟨o', hemit, htook⟩ := emitChunked_took h hc
  rw [← chunkedBody_frames hc]
  constructor
  · rintro ⟨o₁, s, h₁, hs, hbody⟩
    obtain rfl := Option.some.inj (hemit.symm.trans h₁)
    rwa [List.append_cancel_left (htook.sent.symm.trans hs)]
  · exact fun hbody => ⟨o', _, hemit, htook.sent, hbody⟩

/-- `hi` as data and as a format. -/
theorem wellFramed_two :
    WellFramed .willing [.write [104, 105], .printf [104, 105] [] [.text [104, 105]]] := by
  refine (wellFramed_iff Out.acceptsAll_willing ?_).mpr (by decide)
  rw [List.forall_mem_cons, List.forall_mem_singleton]
  exact ⟨⟨by decide, by decide⟩, by decide, .cons (by decide) rfl (.nil _), by decide⟩

/-- `%s` with the empty string, between two blocks of data, ends the body early. -/
theorem not_wellFramed_empty : ∃ calls : List ChunkCall, (∀ c ∈ calls, c.Proper) ∧
    Out.willing.AcceptsAll ∧ ¬WellFramed .willing calls := by
  have hproper : ∀ c ∈ [ChunkCall.write [104],
      .printf (ascii "%s") [.str []] [.str false 0 (-1) 4 []], .write [105]], c.Proper := by
    simp only [List.forall_mem_cons, List.not_mem_nil, false_implies, implies_true, and_true]
    exact ⟨⟨by decide, by decide⟩, ⟨by decide, .cons (by decide) rfl (.nil _), by decide⟩,
      by decide, by decide⟩
  refine ⟨_, hproper, Out.acceptsAll_willing, ?_⟩
  obtain ⟨o', hemit, htook⟩ := emitChunked_took Out.acceptsAll_willing hproper
  rintro ⟨o₁, s, h₁, hs, hbody⟩
  obtain rfl := Option.some.inj (hemit.symm.trans h₁)
  rw [List.append_cancel_left (hs.symm.trans htook.sent)] at hbody
  exact absurd ((chunkedBody_frames hproper).mp hbody) (by decide)

end Webxs
