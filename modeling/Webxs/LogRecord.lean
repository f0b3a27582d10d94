import Webxs.PathBuffer
import Webxs.PrintfCut
import Webxs.PrintfIntegers

/-!
# Records of the log

`xs_logger_va` composes a record in an array of 8192 bytes : the time and the level, the formatted
message and an end of line. Each of the calls is given what is left of the array, and what it
returns is added to the length. What the formatter returns is no length of what it wrote where the
message has no room, so the record is cut at the end of the array exactly if the run of the
formatter is clean (`logs_iff`).
-/

namespace Webxs

namespace Logger

/-! ## The code -/

/-- `xs_strlappend` to `d`, of which there are `n` bytes. -/
def strlappend (d : List UInt8) (n : ℤ) (s : List UInt8) (l : ℤ) : Option (ℤ × List UInt8) :=
  let l := if n ≤ l then n - 1 else l
  if l < 0 then some (0, d)
  else
    (writeBytes d 0 (s.take l.toNat)).bind fun d =>
      (writeBytes d l.toNat [0]).map fun d => (l, d)

/-- A `struct tm` of `gmtime`; `year` is `tm_year + 1900`. -/
structure Tm where
  wday : Fin 7
  mday : Fin 32
  mon : Fin 12
  year : BitVec 32
  hour : Fin 24
  min : Fin 60
  sec : Fin 61

/-- `gxs_month`. -/
def month (i : Fin 12) : List UInt8 :=
  match i with
  | 0 => ascii "Jan"
  | 1 => ascii "Feb"
  | 2 => ascii "Mar"
  | 3 => ascii "Apr"
  | 4 => ascii "May"
  | 5 => ascii "Jun"
  | 6 => ascii "Jul"
  | 7 => ascii "Aug"
  | 8 => ascii "Sep"
  | 9 => ascii "Oct"
  | 10 => ascii "Nov"
  | 11 => ascii "Dec"

/-- `gxs_day`. -/
def day (i : Fin 7) : List UInt8 :=
  match i with
  | 0 => ascii "Sun"
  | 1 => ascii "Mon"
  | 2 => ascii "Tue"
  | 3 => ascii "Wed"
  | 4 => ascii "Thu"
  | 5 => ascii "Fri"
  | 6 => ascii "Sat"

/-- The arguments of the format of a time. -/
def Tm.args (tm : Tm) : List Arg :=
  [.str (day tm.wday), .int (BitVec.ofNat 32 tm.mday), .str (month tm.mon), .int tm.year,
    .int (BitVec.ofNat 32 tm.hour), .int (BitVec.ofNat 32 tm.min), .int (BitVec.ofNat 32 tm.sec)]

/-- What `xs_timestr_now` returns, where `cur` is `gx_curtime_str` before. -/
def timestr (cur : List UInt8) (tm : Tm) : Option (List UInt8) :=
  produced cur (ascii "%s, %02d %s %04d %02d:%02d:%02d GMT") tm.args

/-- `xs_logger_levelstr`. -/
def levelstr (level : ℤ) : List UInt8 :=
  if level = 1 then ascii "TRACE "
  else if level = 2 then ascii "DEBUG "
  else if level = 3 then ascii "INFO  "
  else if level = 4 then ascii "WARN  "
  else if level = 5 then ascii "ERROR "
  else if level = 6 then ascii "FATAL "
  else ascii "-     "

/-- What `xs_logger_va` looks at of an `xs_log`. -/
structure Levels where
  /-- `path[0]` is not 0. -/
  inited : Bool
  filelevel : ℤ
  echolevel : ℤ

/-- The level is below the current one, or there is no log. -/
def Levels.Off (log : Levels) (level : ℤ) : Prop :=
  log.inited = false ∨ level < log.filelevel ∧ level < log.echolevel

instance (log : Levels) (level : ℤ) : Decidable (log.Off level) :=
  inferInstanceAs (Decidable (_ ∨ _))

/-- `l += f (str+l, sl-l)`, with `str` and `l`. -/
def advance (f : List UInt8 → ℤ → Option (ℤ × List UInt8)) (r : List UInt8 × ℤ) :
    Option (List UInt8 × ℤ) :=
  if 0 ≤ r.2 then
    (f (r.1.drop r.2.toNat) (r.1.length - r.2)).map fun a => (r.1.take r.2.toNat ++ a.2, r.2 + a.1)
  else none

/-- A record up to the message. -/
def loggerHead (level : ℤ) (str time : List UInt8) : Option (List UInt8 × ℤ) := do
  let r ← advance (fun d n => strlappend d n [91] 1) (str, 0)
  let r ← advance (fun d n => (PathBuffer.strappend d n (time.drop 5)).map fun a =>
    (a.1 - 4, a.2)) r
  let r ← advance (fun d n => strlappend d n [93, 32] 2) r
  let r ← advance (fun d n => PathBuffer.strappend d n (levelstr level)) r
  advance (fun d n => strlappend d n [32] 1) r

/-- The end of a record. -/
def lineEnd (r : List UInt8 × ℤ) : Option (List UInt8 × ℤ) :=
  advance (fun d n => strlappend d n [13, 10] 2) r

/-- `xs_logger_va` with the array `str` : the array and the length that `xs_log_append` is given, if
it is called. A store outside of the array has no result. -/
def loggerVa (log : Levels) (level : ℤ) (str cur : List UInt8) (tm : Tm) (fmt : List UInt8)
    (ap : List Arg) : Option (Option (List UInt8 × ℤ)) :=
  if log.Off level then some none
  else do
    let time ← timestr cur tm
    let r ← loggerHead level str time
    let r ← advance (fun d _ => sprintf d fmt ap) r
    let r ← lineEnd r
    some (some r)

/-! ## The time -/

theorem padded_head (w : Fin 9) :
    ∀ ds, Amount.digits [w.succ] = .digits ds → ds.head? ≠ some 0 := by
  intro ds h
  cases h
  exact fun h => absurd (Option.some.inj h) (Fin.succ_ne_zero w)

theorem padded_le (w : Fin 9) : (Amount.digits [w.succ]).value ≤ 100 := by
  show 0 * 10 + (w.succ : ℕ) ≤ 100
  omega

/-- A number with zeros up to the width `w + 1`. -/
def padded (w : Fin 9) : IntSpec where
  flags := [.zero]
  width := .digits [w.succ]
  precision := none
  conv := .d
  width_head := padded_head w
  width_le := padded_le w
  precision_le := IntSpec.none_precision_le

/-- The items of the format of a time. -/
def Tm.items (tm : Tm) : List Item :=
  let number (w : Fin 9) (v : BitVec 32) : Item := .int ((padded w).item (.int v))
  let two (n : ℕ) : Item := number 1 (BitVec.ofNat 32 n)
  [.str false 0 (-1) 4 (day tm.wday), .text (ascii ", "), two tm.mday, .text (ascii " "),
    .str false 0 (-1) 4 (month tm.mon), .text (ascii " "), number 3 tm.year, .text (ascii " "),
    two tm.hour, .text (ascii ":"), two tm.min, .text (ascii ":"), two tm.sec,
    .text (ascii " GMT")]

theorem Tm.matches (tm : Tm) :
    Matches (ascii "%s, %02d %s %04d %02d:%02d:%02d GMT") tm.args tm.items :=
  .cons (by decide) rfl <| .cons (by decide) rfl <| .cons (by decide) rfl <|
  .cons (by decide) rfl <| .cons (by decide) rfl <| .cons (by decide) rfl <|
  .cons (by decide) rfl <| .cons (by decide) rfl <| .cons (by decide) rfl <|
  .cons (by decide) rfl <| .cons (by decide) rfl <| .cons (by decide) rfl <|
  .cons (by decide) rfl <| .cons (by decide) rfl <| .nil _

theorem length_lowDigits_le {r v k : ℕ} (hr : 2 ≤ r) (hk : 0 < k) (h : v < r ^ k) :
    (lowDigits r v).length ≤ k := by
  unfold lowDigits
  split_ifs
  · exact hk
  · exact (Nat.digits_length_le_iff hr v).mpr h

/-- A number is as long as its width, or its digits and a sign. -/
theorem length_padded {w : Fin 9} {v : BitVec 32} {k : ℕ} (hk : 0 < k)
    (h : v.toInt.natAbs < 10 ^ k) :
    (Item.int ((padded w).item (.int v))).rendered.length ≤
      (if v.toInt < 0 then 1 else 0) + max (w.val + 1) k := by
  have hdigits : (printedDigits 10 100 v.toInt).length ≤ k :=
    ((padded w).length_printedDigits (.int v)).trans_le
      (length_lowDigits_le (r := 10) (by decide) hk h)
  have hsign : (printedSign (padded w).f false 10 100 v.toInt).length =
      if v.toInt < 0 then 1 else 0 := by
    unfold printedSign
    split_ifs <;> first | rfl | contradiction
  have hw : (padded w).width.value = w.val + 1 := (Nat.zero_add _).trans (Fin.val_succ w)
  have hsilent : ¬(v.toInt = 0 ∧ (none : Option ℕ) = some 0) := fun h => nomatch h.2
  rw [IntSpec.rendered_item]
  show (printedText (padded w).f (padded w).width.value none false 10 100 v.toInt).length ≤ _
  rw [printedText, if_neg hsilent, List.length_append, hsign, length_numberText, hw,
    Option.getD_none]
  omega

theorem rendered_name (p : List UInt8) : (Item.str false 0 (-1) 4 p).rendered = p := by
  simp [Item.rendered, strText, clip]

theorem length_two {n : ℕ} (h : n < 100) :
    (Item.int ((padded 1).item (.int (BitVec.ofNat 32 n)))).rendered.length ≤ 2 := by
  have hn : (BitVec.ofNat 32 n).toInt = n := toInt_ofNat h.le
  have hle := length_padded (w := 1) (v := BitVec.ofNat 32 n) (k := 2) (by decide)
    (by rw [hn]; omega)
  rwa [hn, if_neg (by omega)] at hle

/-- The text of a time. -/
def Tm.text (tm : Tm) : List UInt8 :=
  rendering tm.items

theorem names_length : (∀ i, (day i).length = 3 ∧ 0 ∉ day i) ∧
    ∀ i, (month i).length = 3 ∧ 0 ∉ month i := by
  decide +kernel

theorem Tm.text_bounds (tm : Tm) : 9 ≤ tm.text.length ∧ tm.text.length ≤ 36 ∧ 0 ∉ tm.text := by
  have hday := names_length.1 tm.wday
  have hmonth := names_length.2 tm.mon
  have hyear : (Item.int ((padded 3).item (.int tm.year))).rendered.length ≤ 11 := by
    have hlt := tm.year.toInt_lt
    have hle := tm.year.le_toInt
    have hyear := length_padded (w := 3) (v := tm.year) (k := 10) (by decide) (by omega)
    split_ifs at hyear <;> omega
  have hmday := length_two (tm.mday.isLt.trans (by decide : 32 < 100))
  have hhour := length_two (tm.hour.isLt.trans (by decide : 24 < 100))
  have hmin := length_two (tm.min.isLt.trans (by decide : 60 < 100))
  have hsec := length_two (tm.sec.isLt.trans (by decide : 61 < 100))
  have htext : ∀ l, (Item.text l).rendered = l := fun _ => rfl
  have hlens : (ascii ", ").length = 2 ∧ (ascii " ").length = 1 ∧ (ascii ":").length = 1 ∧
      (ascii " GMT").length = 4 := by decide
  have hzero : 0 ∉ ascii ", " ∧ 0 ∉ ascii " " ∧ 0 ∉ ascii ":" ∧ 0 ∉ ascii " GMT" := by decide
  have hnumber : ∀ w v, 0 ∉ (Item.int ((padded w).item (.int v))).rendered := fun w v =>
    (padded w).zero_notMem_rendered (.int v)
  unfold text items
  simp only [rendering, List.flatMap_cons, List.flatMap_nil, rendered_name, htext,
    List.length_append, List.mem_append, not_or, hnumber, hzero, hday, hmonth, not_false_eq_true,
    List.not_mem_nil, and_self, hlens, List.length_nil, and_true]
  omega

theorem name_narrow (p : List UInt8) : ¬(Item.str false 0 (-1) 4 p).Wide := fun h =>
  absurd (show (4 : ℤ) = 8 from h) (by decide)

theorem Tm.narrow (tm : Tm) : ∀ item ∈ tm.items, ¬item.Wide := by
  unfold items
  simp only [List.forall_mem_cons, name_narrow, not_false_eq_true, true_and]
  simp [Item.Wide]

theorem timestr_eq {cur : List UInt8} (hcur : cur.length = 64) (tm : Tm) :
    timestr cur tm = some tm.text := by
  obtain ⟨-, hle, h0⟩ := tm.text_bounds
  refine produced_rendering tm.matches (by omega) (by rw [← Tm.text]; omega)
    (wideFits_of_narrow tm.narrow) h0

/-! ## Appending -/

/-- `l` bytes of `str` are written, which are `pre`. -/
structure Holds (str pre : List UInt8) (r : List UInt8 × ℤ) : Prop where
  length : r.2 = pre.length
  stored : Stored str 0 pre r.1

section Append

variable {str pre t d : List UInt8} {r : List UInt8 × ℤ}
  {f : List UInt8 → ℤ → Option (ℤ × List UInt8)}

/-- What a call is given. -/
theorem Holds.call_eq (h : Holds str pre r) :
    advance f r = (f (r.1.drop pre.length) (str.length - pre.length)).map fun a =>
      (r.1.take pre.length ++ a.2, (pre.length : ℤ) + a.1) := by
  rw [advance, h.length, if_pos (by omega), Int.toNat_natCast, h.stored.length]

theorem take_of_stored (h : Stored str 0 t d) : d.take t.length = t := by
  have htake := h.take
  rwa [Nat.zero_add, List.take_zero, List.nil_append] at htake

theorem Holds.call (h : Holds str pre r) (hle : pre.length ≤ str.length)
    (hf : f (r.1.drop pre.length) (str.length - pre.length) = some ((t.length : ℤ), d))
    (hd : Stored (r.1.drop pre.length) 0 t d) :
    ∃ r', advance f r = some r' ∧ Holds str (pre ++ t) r' := by
  have hpre := take_of_stored h.stored
  have hlen := hd.length
  rw [List.length_drop, h.stored.length] at hlen
  refine ⟨(r.1.take pre.length ++ d, (pre.length : ℤ) + t.length), ?_, ?_, ?_, ?_⟩
  · rw [h.call_eq, hf, Option.map_some]
  · rw [List.length_append, Nat.cast_add]
  · rw [hpre, List.length_append, hlen]
    omega
  · rw [hpre, Nat.zero_add, List.take_zero, List.nil_append, List.length_append,
      List.take_length_add_append, take_of_stored hd]

/-- The bytes and a NUL are stored. -/
theorem strlappend_spec {n : ℕ} (hn : 0 < n) (hd : d.length = n) (t : List UInt8) :
    ∃ d', strlappend d n t t.length = some (((t.take (n - 1)).length : ℤ), d') ∧
      Stored d 0 (t.take (n - 1)) d' := by
  have hmin : (t.take (n - 1)).length = min (n - 1) t.length := List.length_take
  obtain ⟨d₁, hw, hs⟩ := PathBuffer.writeBytes_stored (m := d) (t := t.take (n - 1)) (d := 0)
    (by omega)
  obtain ⟨d₂, hw', hs'⟩ := PathBuffer.writeBytes_stored (m := d₁) (t := [0])
    (d := (t.take (n - 1)).length) (by rw [hs.length, List.length_singleton]; omega)
  have hl : (if (n : ℤ) ≤ t.length then (n : ℤ) - 1 else t.length) =
      ((t.take (n - 1)).length : ℕ) := by
    split_ifs <;> omega
  have htake : t.take (t.take (n - 1)).length = t.take (n - 1) := by
    rw [hmin, ← List.take_take, List.take_length]
  refine ⟨d₂, ?_, ?_⟩
  · unfold strlappend
    dsimp only
    rw [hl, if_neg (by omega), Int.toNat_natCast, htake, hw, Option.bind_some, hw',
      Option.map_some]
  · exact (hs.trans (by rw [Nat.zero_add]; exact hs')).of_append (Nat.zero_le _)

/-- Nothing is stored behind the array. -/
theorem strlappend_none {n l : ℤ} (hn : n ≤ 0) :
    strlappend d n t l = some (0, d) := by
  unfold strlappend
  dsimp only
  rw [if_pos (by split_ifs <;> omega)]

theorem strappend_spec {n : ℕ} (hn : 0 < n) (hd : d.length = n) (hlen : t.length < 2 ^ 31) :
    ∃ d', PathBuffer.strappend d n t = some (((t.take (n - 1)).length : ℤ), d') ∧
      Stored d 0 (t.take (n - 1)) d' := by
  have heq : PathBuffer.strappend d n t = strlappend d n t (toInt32 t.length) := rfl
  have hsize : toInt32 t.length = t.length := Int.bmod_eq_of_le (by omega) (by omega)
  rw [heq, hsize]
  exact strlappend_spec hn hd t

end Append

/-! ## The record -/

/-- What stands in front of a message. -/
def head (level : ℤ) (tm : Tm) : List UInt8 :=
  [91] ++ (tm.text.drop 5).take (tm.text.length - 9) ++ [93, 32] ++ levelstr level ++ [32]

section Record

variable {log : Levels} {level : ℤ} {str cur fmt : List UInt8} {tm : Tm} {ap : List Arg}
  {is : List Item}

theorem length_levelstr (level : ℤ) : (levelstr level).length = 6 := by
  unfold levelstr
  split_ifs <;> decide

theorem length_head (level : ℤ) (tm : Tm) : (head level tm).length ≤ 37 := by
  have hbounds := tm.text_bounds
  unfold head
  simp only [List.length_append, List.length_take, List.length_drop, List.length_cons,
    List.length_nil, length_levelstr]
  omega

/-- A call with room for its text. -/
theorem Holds.bytes {pre t : List UInt8} {r : List UInt8 × ℤ} (h : Holds str pre r)
    (hroom : pre.length + t.length < str.length) :
    ∃ r', advance (fun d n => strlappend d n t t.length) r = some r' ∧
      Holds str (pre ++ t) r' := by
  have hlen : (r.1.drop pre.length).length = str.length - pre.length := by
    rw [List.length_drop, h.stored.length]
  obtain ⟨d, hf, hd⟩ := strlappend_spec (by omega) hlen t
  rw [List.take_of_length_le (by omega)] at hf hd
  refine h.call (by omega) ?_ hd
  rw [← Nat.cast_sub (by omega)]
  exact hf

theorem Holds.string {pre t : List UInt8} {r : List UInt8 × ℤ} (h : Holds str pre r)
    (hroom : pre.length + t.length < str.length) (hmax : t.length < 2 ^ 31) :
    ∃ r', advance (fun d n => PathBuffer.strappend d n t) r = some r' ∧
      Holds str (pre ++ t) r' := by
  have hlen : (r.1.drop pre.length).length = str.length - pre.length := by
    rw [List.length_drop, h.stored.length]
  obtain ⟨d, hf, hd⟩ := strappend_spec (by omega) hlen hmax
  rw [List.take_of_length_le (by omega)] at hf hd
  refine h.call (by omega) ?_ hd
  rw [← Nat.cast_sub (by omega)]
  exact hf

/-- The time, without its first five and its last four bytes. -/
theorem Holds.time {pre : List UInt8} {r : List UInt8 × ℤ} (h : Holds str pre r)
    (time : List UInt8) (hroom : pre.length + time.length < str.length)
    (hmax : time.length < 2 ^ 31) (hmin : 9 ≤ time.length) :
    ∃ r', advance (fun d n => (PathBuffer.strappend d n (time.drop 5)).map fun a =>
        (a.1 - 4, a.2)) r = some r' ∧
      Holds str (pre ++ (time.drop 5).take (time.length - 9)) r' := by
  have hlen : (r.1.drop pre.length).length = str.length - pre.length := by
    rw [List.length_drop, h.stored.length]
  have htime : (time.drop 5).length = time.length - 5 := List.length_drop
  have htake : ((time.drop 5).take (time.length - 9)).length = time.length - 9 := by
    rw [List.length_take]
    omega
  obtain ⟨d, hf, hd⟩ := strappend_spec (t := time.drop 5) (by omega) hlen (by omega)
  rw [List.take_of_length_le (by omega)] at hf hd
  rw [← List.take_append_drop (time.length - 9) (time.drop 5)] at hd
  refine h.call (by omega) ?_ (hd.of_append (Nat.zero_le _))
  have hfour : ((time.length - 5 : ℕ) : ℤ) - 4 = (time.length - 9 : ℕ) := by omega
  rw [← Nat.cast_sub (by omega), hf, Option.map_some, htake, htime]
  dsimp only
  rw [hfour]

theorem loggerHead_spec (level : ℤ) (tm : Tm) (hstr : str.length = 8192) :
    ∃ r, loggerHead level str tm.text = some r ∧ Holds str (head level tm) r := by
  have hbounds := tm.text_bounds
  have hlevel := length_levelstr level
  have htake : ((tm.text.drop 5).take (tm.text.length - 9)).length = tm.text.length - 9 := by
    rw [List.length_take, List.length_drop]
    omega
  have hstart : Holds str [] (str, 0) := ⟨rfl, Stored.nil str 0⟩
  obtain ⟨r₁, h₁, hr₁⟩ := hstart.bytes (t := [91]) (by simp; omega)
  obtain ⟨r₂, h₂, hr₂⟩ := hr₁.time tm.text (by simp; omega) (by omega) (by omega)
  obtain ⟨r₃, h₃, hr₃⟩ := hr₂.bytes (t := [93, 32]) (by simp; omega)
  obtain ⟨r₄, h₄, hr₄⟩ := hr₃.string (t := levelstr level) (by simp; omega) (by omega)
  obtain ⟨r₅, h₅, hr₅⟩ := hr₄.bytes (t := [32]) (by simp; omega)
  refine ⟨r₅, ?_, hr₅⟩
  exact Option.bind_eq_some_iff.mpr ⟨r₁, h₁, Option.bind_eq_some_iff.mpr ⟨r₂, h₂,
    Option.bind_eq_some_iff.mpr ⟨r₃, h₃, Option.bind_eq_some_iff.mpr ⟨r₄, h₄, h₅⟩⟩⟩⟩

/-- What `xs_log_append` is given is in the array, and is the record, which is cut at the end of the
array. -/
def Logs (log : Levels) (level : ℤ) (str cur : List UInt8) (tm : Tm) (fmt : List UInt8)
    (ap : List Arg) (message : List UInt8) : Prop :=
  ∃ passed, loggerVa log level str cur tm fmt ap = some passed ∧
    ∀ buf n, passed = some (buf, n) → 0 ≤ n ∧ n ≤ 8192 ∧ buf.length = 8192 ∧
      buf.take n.toNat = (head level tm ++ message ++ [13, 10]).take 8191

/-- The call where the level is logged. -/
theorem loggerVa_eq (tm : Tm) (fmt : List UInt8) (ap : List Arg) (hstr : str.length = 8192)
    (hcur : cur.length = 64) (hon : ¬log.Off level) :
    ∃ r, Holds str (head level tm) r ∧ loggerVa log level str cur tm fmt ap =
      ((advance (fun d _ => sprintf d fmt ap) r).bind lineEnd).map some := by
  obtain ⟨r, hhead, hr⟩ := loggerHead_spec level tm hstr
  refine ⟨r, hr, ?_⟩
  unfold loggerVa
  rw [if_neg hon, timestr_eq hcur]
  show (loggerHead level str tm.text).bind _ = _
  rw [hhead]
  show (advance (fun d _ => sprintf d fmt ap) r).bind _ = _
  cases advance (fun d _ => sprintf d fmt ap) r with
  | none => rfl
  | some r => exact (Option.map_eq_bind (f := some) (x := lineEnd r)).symm

/-- The end of the line, cut at the end of the array. -/
theorem Holds.lineEnd {pre : List UInt8} {r : List UInt8 × ℤ} (hr : Holds str pre r)
    (hstr : str.length = 8192) (hroom : pre.length < 8192) :
    ∃ r', Logger.lineEnd r = some r' ∧
      Holds str (pre ++ [13, 10].take (8191 - pre.length)) r' := by
  have hlen : (r.1.drop pre.length).length = 8192 - pre.length := by
    rw [List.length_drop, hr.stored.length, hstr]
  obtain ⟨d, hf, hd⟩ := strlappend_spec (by omega) hlen [13, 10]
  rw [show 8192 - pre.length - 1 = 8191 - pre.length by omega] at hf hd
  refine hr.call (f := fun d n => strlappend d n [13, 10] 2) (by omega) ?_ hd
  rw [← Nat.cast_sub (by omega), hstr]
  exact hf

/-- A record that is cut at the end of the array. -/
theorem record_take (message : List UInt8) :
    (head level tm ++ message ++ [13, 10]).take 8191 =
      head level tm ++ message.take (8191 - (head level tm).length) ++ [13, 10].take
        (8191 - (head level tm ++ message.take (8191 - (head level tm).length)).length) := by
  have hhead := length_head level tm
  have htake : (message.take (8191 - (head level tm).length)).length =
      min (8191 - (head level tm).length) message.length := List.length_take
  have hcut : 8191 - (head level tm ++ message.take (8191 - (head level tm).length)).length =
      8191 - (head level tm ++ message).length := by
    rw [List.length_append, List.length_append]
    omega
  have hfront : (head level tm).take 8191 = head level tm := List.take_of_length_le (by omega)
  rw [List.take_append, List.take_append, hfront, hcut]

/-- A message that is cut cleanly. -/
theorem record_cleanly {r : List UInt8 × ℤ} (hstr : str.length = 8192)
    (hr : Holds str (head level tm) r) (h : Matches fmt ap is) (hwide : ∀ item ∈ is, ¬item.Wide)
    (hclean : Cleanly (8191 - (head level tm).length) 0 is) :
    ∃ r', (advance (fun d _ => sprintf d fmt ap) r).bind lineEnd = some r' ∧
      Holds str ((head level tm ++ rendering is ++ [13, 10]).take 8191) r' := by
  have hhead := length_head level tm
  have hdrop : (r.1.drop (head level tm).length).length = 8192 - (head level tm).length := by
    rw [List.length_drop, hr.stored.length, hstr]
  have hlen : (r.1.drop (head level tm).length).length - 1 = 8191 - (head level tm).length := by
    omega
  obtain ⟨d, hsprintf, hd⟩ := sprintf_cleanly h hwide (by omega) (by omega) (hlen ▸ hclean)
  rw [hlen] at hsprintf hd
  obtain ⟨r₁, h₁, hr₁⟩ := hr.call (f := fun d _ => sprintf d fmt ap) (by omega) hsprintf hd
  have htake : ((rendering is).take (8191 - (head level tm).length)).length =
      min (8191 - (head level tm).length) (rendering is).length := List.length_take
  obtain ⟨r₂, h₂, hr₂⟩ := hr₁.lineEnd hstr (by rw [List.length_append]; omega)
  refine ⟨r₂, by rw [h₁]; exact h₂, ?_⟩
  rw [record_take]
  exact hr₂

/-- A message that is not. -/
theorem record_over {r : List UInt8 × ℤ} (hstr : str.length = 8192)
    (hr : Holds str (head level tm) r) (h : Matches fmt ap is) (hwide : ∀ item ∈ is, ¬item.Wide)
    (hover : ¬Cleanly (8191 - (head level tm).length) 0 is) {buf : List UInt8} {n : ℤ}
    (hrun : (advance (fun d _ => sprintf d fmt ap) r).bind lineEnd = some (buf, n)) :
    8192 ≤ n ∨ n = 8191 ∧
      buf.take 8191 ≠ (head level tm ++ rendering is ++ [13, 10]).take 8191 := by
  have hhead := length_head level tm
  have hdrop : (r.1.drop (head level tm).length).length = 8192 - (head level tm).length := by
    rw [List.length_drop, hr.stored.length, hstr]
  have hlen : (r.1.drop (head level tm).length).length - 1 = 8191 - (head level tm).length := by
    omega
  obtain hnone | ⟨k, d, hsprintf, hd, hor⟩ :=
    sprintf_over h hwide (by omega) (by omega) (hlen ▸ hover)
  · rw [hr.call_eq, hnone] at hrun
    cases hrun
  rw [hdrop] at hor
  obtain hlong | ⟨hk, hne⟩ := hor
  · -- the length is beyond the array, so nothing is appended
    left
    have hbuf : (r.1.take (head level tm).length ++ d).length = 8192 := by
      rw [List.length_append, List.length_take, hd, hdrop, hr.stored.length, hstr]
      omega
    rw [hr.call_eq, hsprintf, Option.map_some, Option.bind_some, lineEnd, advance,
      if_pos (by dsimp only; omega)] at hrun
    dsimp only at hrun
    rw [hbuf, strlappend_none (by omega), Option.map_some] at hrun
    have hn := congrArg Prod.snd (Option.some.inj hrun)
    dsimp only at hn
    omega
  · right
    have hfull : (d.take k).length = k := by
      rw [List.length_take]
      omega
    have hstored : Stored (r.1.drop (head level tm).length) 0 (d.take k) d := by
      refine ⟨hd, ?_⟩
      rw [hfull, Nat.zero_add, List.take_zero, List.nil_append]
    obtain ⟨r₁, h₁, hr₁⟩ := hr.call (f := fun d _ => sprintf d fmt ap) (t := d.take k) (by omega)
      (by rw [hfull]; exact hsprintf) hstored
    have hpre : (head level tm ++ d.take k).length = 8191 := by
      rw [List.length_append]
      omega
    obtain ⟨r₂, h₂, hr₂⟩ := hr₁.lineEnd hstr (by omega)
    rw [h₁, Option.bind_some, h₂] at hrun
    obtain rfl : r₂ = (buf, n) := Option.some.inj hrun
    rw [hpre, Nat.sub_self, List.take_zero, List.append_nil] at hr₂
    have hlong := lt_of_not_cleanly hover
    refine ⟨by rw [← Nat.cast_ofNat, ← hpre]; exact hr₂.length, fun heq => hne ?_⟩
    have htake := take_of_stored hr₂.stored
    rw [hpre] at htake
    have hnil : 8191 - (head level tm ++
        (rendering is).take (8191 - (head level tm).length)).length = 0 := by
      rw [List.length_append, List.length_take]
      omega
    rw [htake, record_take, hnil, List.take_zero, List.append_nil,
      show 8191 - (head level tm).length = k by omega] at heq
    exact List.append_cancel_left heq

theorem not_logs_of_over (hstr : str.length = 8192) (hcur : cur.length = 64)
    (h : Matches fmt ap is) (hwide : ∀ item ∈ is, ¬item.Wide) (hon : ¬log.Off level)
    (hover : ¬Cleanly (8191 - (head level tm).length) 0 is) :
    ¬Logs log level str cur tm fmt ap (rendering is) := by
  obtain ⟨r, hr, heq⟩ := loggerVa_eq tm fmt ap hstr hcur hon
  rintro ⟨passed, hpassed, hlogs⟩
  rw [heq] at hpassed
  obtain ⟨⟨buf, n⟩, hrun, rfl⟩ := Option.map_eq_some_iff.mp hpassed
  obtain ⟨hn, hle, hlen, htake⟩ := hlogs buf n rfl
  obtain hlong | ⟨rfl, hne⟩ := record_over hstr hr h hwide hover hrun
  · have hlens := congrArg List.length htake
    rw [List.length_take, List.length_take, hlen] at hlens
    omega
  · exact hne htake

theorem logs_iff (hstr : str.length = 8192) (hcur : cur.length = 64) (h : Matches fmt ap is)
    (hwide : ∀ item ∈ is, ¬item.Wide) :
    Logs log level str cur tm fmt ap (rendering is) ↔
      log.Off level ∨ Cleanly (8191 - (head level tm).length) 0 is := by
  by_cases hoff : log.Off level
  · exact iff_of_true ⟨none, if_pos hoff, nofun⟩ (.inl hoff)
  rw [or_iff_right hoff]
  refine ⟨fun hlogs => ?_, fun hclean => ?_⟩
  · by_contra hover
    exact not_logs_of_over hstr hcur h hwide hoff hover hlogs
  · obtain ⟨r, hr, heq⟩ := loggerVa_eq tm fmt ap hstr hcur hoff
    obtain ⟨⟨buf, n⟩, hrun, hr'⟩ := record_cleanly hstr hr h hwide hclean
    refine ⟨_, by rw [heq, hrun]; rfl, fun buf' n' hpassed => ?_⟩
    cases hpassed
    have hlen := hr'.length
    have htake := take_of_stored hr'.stored
    have hle : ((head level tm ++ rendering is ++ [13, 10]).take 8191).length ≤ 8191 := by
      rw [List.length_take]
      exact Nat.min_le_left _ _
    dsimp only at hlen htake
    refine ⟨by omega, by omega, hr'.stored.length.trans hstr, ?_⟩
    rw [hlen, Int.toNat_natCast, htake]

end Record

/-- The start of 1970. -/
def epoch : Tm :=
  ⟨4, 1, 0, 1970, 0, 0, 0⟩

theorem logs_iff_hi : Logs ⟨true, 0, 0⟩ 3 (List.replicate 8192 0) (List.replicate 64 0) epoch
    (ascii "hi") [] (rendering [.text (ascii "hi")]) := by
  have hhead := length_head 3 epoch
  refine (logs_iff List.length_replicate List.length_replicate
    (.cons (by decide) rfl (.nil _)) ?_).mpr (.inr fun _ => .inl ⟨?_, trivial⟩)
  · exact List.forall_mem_singleton.mpr id
  · show 0 + 2 ≤ _
    omega

/-- A string of 8100 bytes and a text of 100. -/
theorem not_logs : Matches (ascii "%s" ++ List.replicate 100 97) [.str (List.replicate 8100 97)]
      [.str false 0 (-1) 4 (List.replicate 8100 97), .text (List.replicate 100 97)] ∧
    ¬Logs ⟨true, 0, 0⟩ 3 (List.replicate 8192 0) (List.replicate 64 0) epoch
      (ascii "%s" ++ List.replicate 100 97) [.str (List.replicate 8100 97)]
      (rendering [.str false 0 (-1) 4 (List.replicate 8100 97),
        .text (List.replicate 100 97)]) := by
  have hmatch : Matches (ascii "%s" ++ List.replicate 100 97) [.str (List.replicate 8100 97)]
      [.str false 0 (-1) 4 (List.replicate 8100 97), .text (List.replicate 100 97)] :=
    .cons (by decide) rfl (.cons (by decide) rfl (.nil _))
  have hhead := length_head 3 epoch
  have hlong : (List.replicate 8100 (97 : UInt8)).length = 8100 := List.length_replicate
  have hshort : (Item.text (List.replicate 100 97)).rendered.length = 100 := List.length_replicate
  refine ⟨hmatch, not_logs_of_over List.length_replicate List.length_replicate hmatch ?_
    (by decide) fun hclean => ?_⟩
  · exact List.forall_mem_cons.mpr ⟨name_narrow _, List.forall_mem_singleton.mpr id⟩
  · obtain ⟨-, hclean⟩ | ⟨hbig, -⟩ := hclean (by omega)
    · rw [rendered_name, hlong] at hclean
      obtain ⟨hfit, -⟩ | ⟨-, hroom, -⟩ := hclean (by omega)
      · omega
      · exact hroom
    · rw [rendered_name, hlong] at hbig
      omega

end Logger

end Webxs
