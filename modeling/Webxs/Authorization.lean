import Webxs.Server

/-!
# Basic authentication

A password file has lines `user:hash`. `xs_server_auth_request` decodes the credentials, cuts them
at the first colon, and tries every line that starts with the user : it compares only as many bytes
as the user has, so a line of `alice` is tried for `ali`, and for the empty user every line is. It
does not look at the byte behind `Basic`, nor at the padding : `xs_b64_decode` makes bytes of it,
which belong to the password then.

`decides_iff` says when the decision is the right one, for every function that encrypts passwords :
if there are lines that start with the user, their hashes are all hashes of that user, and the
header is the encoding of what was decoded.
-/

namespace Webxs

/-! ## Lines -/

/-- The lines of a password file : users and hashes. -/
structure PasswordFile where
  lines : List (List UInt8 × List UInt8)
  user_ok : ∀ l ∈ lines, ∀ a ∈ l.1, a ≠ 0 ∧ a ≠ 10 ∧ a ≠ 13 ∧ a ≠ 58
  hash_ok : ∀ l ∈ lines, ∀ a ∈ l.2, a ≠ 0 ∧ a ≠ 10 ∧ a ≠ 13

/-- A line. -/
def passwordLine (l : List UInt8 × List UInt8) : List UInt8 :=
  l.1 ++ 58 :: l.2

/-- The text of a file. -/
def PasswordFile.text (file : PasswordFile) : List UInt8 :=
  file.lines.flatMap fun l => passwordLine l ++ [10]

variable {u p : List UInt8} {l : List UInt8 × List UInt8} {file : PasswordFile}

theorem PasswordFile.line_ok (hl : l ∈ file.lines) :
    ∀ a ∈ passwordLine l, a ≠ 0 ∧ a ≠ 10 ∧ a ≠ 13 := by
  intro a ha
  obtain ha | ha := List.mem_append.mp ha
  · obtain ⟨h0, h10, h13, -⟩ := file.user_ok l hl a ha
    exact ⟨h0, h10, h13⟩
  · obtain rfl | ha := List.mem_cons.mp ha
    · decide
    · exact file.hash_ok l hl a ha

theorem PasswordFile.cstr_text (file : PasswordFile) : cstr file.text 0 = file.text := by
  have hne : ∀ a ∈ file.text, (a != 0) = true := by
    intro a ha
    obtain ⟨l, hl, ha⟩ := List.mem_flatMap.mp ha
    rw [bne_iff_ne]
    obtain ha | ha := List.mem_append.mp ha
    · exact (file.line_ok hl a ha).1
    · rw [List.mem_singleton.mp ha]
      decide
  have hall : (file.text ++ []).takeWhile (fun a => a != 0) =
      file.text ++ [].takeWhile (fun a : UInt8 => a != 0) := List.takeWhile_append_of_pos hne
  rwa [List.append_nil, List.takeWhile_nil, List.append_nil] at hall

/-- `strtok` finds the lines. -/
theorem PasswordFile.strtokLines_text (file : PasswordFile) :
    strtokLines file.text = file.lines.map passwordLine := by
  have hlines := fun l (hl : l ∈ file.lines) => file.line_ok hl
  unfold strtokLines text
  generalize file.lines = lines at hlines ⊢
  induction lines with
  | nil => rfl
  | cons l lines ih =>
    rw [List.forall_mem_cons] at hlines
    have hline : ∀ a ∈ passwordLine l, (decide (a = 10) || decide (a = 13)) = false := by
      intro a ha
      obtain ⟨-, h10, h13⟩ := hlines.1 a ha
      rw [decide_eq_false h10, decide_eq_false h13]
      rfl
    have hne : passwordLine l ≠ [] :=
      List.append_ne_nil_of_right_ne_nil _ (List.cons_ne_nil _ _)
    rw [List.flatMap_cons, List.append_assoc, List.singleton_append,
      List.splitOnP_append_cons_of_forall_mem hline 10 rfl, List.filter_cons, ih hlines.2,
      if_pos (decide_eq_true hne), List.map_cons]

theorem splitColon_eq (hu : 58 ∉ u) (p : List UInt8) : splitColon (u ++ 58 :: p) = some (u, p) := by
  have hfind : (u ++ 58 :: p).findIdx (· == 58) = u.length := by
    rw [List.findIdx_append, List.findIdx_eq_length_of_false, if_neg (Nat.lt_irrefl _)]
    · simp only [List.findIdx_cons, BEq.rfl, cond_true, Nat.zero_add]
    · intro a ha
      rw [beq_eq_false_iff_ne]
      exact fun h => hu (h ▸ ha)
  unfold splitColon
  dsimp only
  rw [hfind, if_pos (by rw [List.length_append, List.length_cons]; omega), List.take_left,
    List.drop_append, List.drop_eq_nil_of_le (by omega), Nat.add_sub_cancel_left]
  rfl

theorem splitColon_eq_some {t : List UInt8} (h : splitColon t = some (u, p)) :
    t = u ++ 58 :: p ∧ 58 ∉ u := by
  by_cases hmem : 58 ∈ t
  · obtain ⟨u', p', rfl, hu'⟩ := List.eq_append_cons_of_mem hmem
    rw [splitColon_eq hu'] at h
    cases h
    exact ⟨rfl, hu'⟩
  · have hfind : t.findIdx (· == 58) = t.length := by
      refine List.findIdx_eq_length_of_false fun a ha => ?_
      rw [beq_eq_false_iff_ne]
      exact fun h => hmem (h ▸ ha)
    unfold splitColon at h
    rw [hfind, if_neg (Nat.lt_irrefl _)] at h
    cases h

/-- A line starts with a user without a colon iff its user does. -/
theorem prefix_passwordLine_iff (hu : 58 ∉ u) : u <+: passwordLine l ↔ u <+: l.1 := by
  refine ⟨fun h => ?_, fun h => h.trans (List.prefix_append _ _)⟩
  obtain h | ⟨t, ht⟩ := List.prefix_or_prefix_of_prefix h (List.prefix_append l.1 (58 :: l.2))
  · exact h
  · cases t with
    | nil =>
      rw [List.append_nil] at ht
      rw [ht]
    | cons a t =>
      obtain ⟨r, hr⟩ := h
      rw [← ht, List.append_assoc, passwordLine, List.append_cancel_left_eq, List.cons_append,
        List.cons.injEq] at hr
      rw [← ht, hr.1] at hu
      exact absurd (List.mem_append_right _ List.mem_cons_self) hu

/-- The loop finds a line that starts with the user and has the right hash. -/
theorem authLoop_eq (file : PasswordFile) (crypt : List UInt8 → List UInt8 → List UInt8)
    (hu : 58 ∉ u) (pass : List UInt8) :
    ∃ r, authLoop crypt u pass (strtokLines (cstr file.text 0)) = some r ∧
      (r = 0 ↔ ∃ l ∈ file.lines, u <+: l.1 ∧ crypt pass (l.2.take 2) = l.2) := by
  have huser := fun l (hl : l ∈ file.lines) a ha => (file.user_ok l hl a ha).2.2.2
  rw [file.cstr_text, file.strtokLines_text]
  generalize file.lines = lines at huser ⊢
  induction lines with
  | nil => exact ⟨-1, rfl, iff_of_false (by decide) (by simp)⟩
  | cons l lines ih =>
    rw [List.forall_mem_cons] at huser
    obtain ⟨r, hr, hiff⟩ := ih huser.2
    have hsplit : splitColon (passwordLine l) = some (l.1, l.2) :=
      splitColon_eq (fun h => huser.1 58 h rfl) l.2
    rw [List.map_cons, authLoop, hr, hsplit, Option.bind_some]
    simp only [List.isPrefixOf_iff_prefix, prefix_passwordLine_iff hu, List.mem_cons,
      exists_eq_or_imp]
    by_cases hpre : u <+: l.1
    · rw [if_pos hpre]
      by_cases hhash : crypt pass (l.2.take 2) = l.2
      · rw [if_pos hhash]
        exact ⟨0, rfl, iff_of_true rfl (.inl ⟨hpre, hhash⟩)⟩
      · rw [if_neg hhash]
        refine ⟨r, rfl, hiff.trans ?_⟩
        simp only [hhash, and_false, false_or]
    · rw [if_neg hpre]
      refine ⟨r, rfl, hiff.trans ?_⟩
      simp only [hpre, false_and, false_or]

/-! ## Decisions -/

variable {req : HttpReq} {text : List UInt8}

/-- The header is the encoding of `u` and `p`, which is that of a line for `u`. -/
def Credentials (crypt : List UInt8 → List UInt8 → List UInt8) (file : PasswordFile)
    (req : HttpReq) : Prop :=
  ∃ u p, 58 ∉ u ∧ (u ++ 58 :: p).length ≤ 255 ∧
    httpGetheader req (ascii "Authorization") = some (ascii "Basic " ++ base64 (u ++ 58 :: p)) ∧
    ∃ l ∈ file.lines, l.1 = u ∧ crypt p (l.2.take 2) = l.2

/-- `xs_server_auth_request` returns 0 for credentials, and something else otherwise. -/
def Decides (crypt : List UInt8 → List UInt8 → List UInt8) (file : PasswordFile)
    (req : HttpReq) : Prop :=
  ∃ r, serverAuthRequest crypt file.text req = some r ∧ (r = 0 ↔ Credentials crypt file req)

/-- If the header is for `Basic`, it is decoded inside of the buffer; and if there are lines that
start with the user in what was decoded, it is the encoding of that, and the hash of each is a hash
of that user. -/
def DecidedRight (file : PasswordFile) (req : HttpReq) : Prop :=
  ∀ h ∈ req.headers.find? fun h => eqCase (ascii "Authorization") (cstr req.buf h.1),
    ascii "Basic" <+: cstr req.buf h.2 →
      ∃ text, authPlaintext req.buf (h.2 + 6) = some text ∧
        ∀ u p, splitColon text = some (u, p) → (∃ l ∈ file.lines, u <+: l.1) →
          cstr req.buf h.2 = ascii "Basic " ++ base64 text ∧ text.length ≤ 255 ∧
            ∀ l ∈ file.lines, u <+: l.1 → (u, l.2) ∈ file.lines

/-- What is decoded of an encoding of credentials has the user. -/
theorem splitColon_of_base64 {buf : List UInt8} {a : ℕ}
    (hbuf : cstr buf a = ascii "Basic " ++ base64 (u ++ 58 :: p)) (h0 : 0 ∉ u) (hu : 58 ∉ u)
    (hlen : (u ++ 58 :: p).length ≤ 255) (htext : authPlaintext buf (a + 6) = some text) :
    ∃ p', splitColon text = some (u, p') := by
  obtain ⟨x, hx⟩ : ∃ x, u ++ 58 :: p = x := ⟨_, rfl⟩
  rw [hx] at hbuf hlen
  -- what follows the encoding
  obtain ⟨rest, hdrop⟩ : ∃ rest, buf.drop (a + 6) = base64 x ++ rest := by
    obtain ⟨-, heq | ⟨v, heq⟩⟩ := cstr_spec buf a
    · refine ⟨[], ?_⟩
      rw [← List.drop_drop, heq, hbuf, List.append_nil]
      rfl
    · refine ⟨0 :: v, ?_⟩
      rw [← List.drop_drop, heq, hbuf, List.append_assoc]
      rfl
  have hcstr : cstr buf (a + 6) = base64 x := by
    obtain ⟨hnul, heq⟩ := cstr_spec buf a
    rw [hbuf, List.mem_append, not_or] at hnul
    obtain heq | ⟨v, heq⟩ := heq
    · have hend : buf.drop (a + 6) = base64 x := by
        rw [← List.drop_drop, heq, hbuf]
        rfl
      obtain ⟨-, hall | ⟨v, hall⟩⟩ := cstr_spec buf (a + 6)
      · rw [← hall, hend]
      · rw [hend] at hall
        rw [hall] at hnul
        exact absurd (List.mem_append_right _ List.mem_cons_self) hnul.2
    · refine cstr_eq (v := v) ?_ hnul.2
      rw [← List.drop_drop, heq, hbuf, List.append_assoc]
      rfl
  obtain ⟨dst, hdecode, hstored, -⟩ := b64Decode_base64 x rest (List.replicate 256 0) (by
    rw [List.length_replicate]
    omega)
  unfold authPlaintext at htext
  rw [hcstr, hdrop, hdecode] at htext
  split_ifs at htext
  obtain rfl : cstr dst 0 = text := Option.some.inj htext
  obtain ⟨w, hw⟩ := drop_of_stored hstored (Nat.zero_le _)
  have hne : ∀ a ∈ u, (a != 0) = true := by
    intro a ha
    rw [bne_iff_ne]
    exact fun h => h0 (h ▸ ha)
  rw [cstr, hw, ← hx, List.append_assoc, List.append_assoc, List.takeWhile_append_of_pos hne,
    List.cons_append, List.takeWhile_cons_of_pos (by decide)]
  exact ⟨_, splitColon_eq hu _⟩

/-- Credentials with a line have the user that was decoded. -/
theorem user_of_credentials {a : ℕ} {t : List UInt8 × List UInt8} (ht : t ∈ file.lines)
    (hbuf : cstr req.buf a = ascii "Basic " ++ base64 (t.1 ++ 58 :: p))
    (hlen : (t.1 ++ 58 :: p).length ≤ 255) (htext : authPlaintext req.buf (a + 6) = some text) :
    ∃ p', splitColon text = some (t.1, p') :=
  splitColon_of_base64 hbuf (fun h => (file.user_ok t ht 0 h).1 rfl)
    (fun h => (file.user_ok t ht 58 h).2.2.2 rfl) hlen htext

/-- The decision for what was decoded. -/
theorem decides_text_iff {a : ℕ} (htext : authPlaintext req.buf (a + 6) = some text) :
    (∀ crypt : List UInt8 → List UInt8 → List UInt8, ∃ r,
      (match splitColon text with
        | none => some (-1)
        | some (user, pass) => authLoop crypt user pass (strtokLines (cstr file.text 0))) =
          some r ∧
        (r = 0 ↔ ∃ u p, 58 ∉ u ∧ (u ++ 58 :: p).length ≤ 255 ∧
          cstr req.buf a = ascii "Basic " ++ base64 (u ++ 58 :: p) ∧
          ∃ l ∈ file.lines, l.1 = u ∧ crypt p (l.2.take 2) = l.2)) ↔
      ∀ u p, splitColon text = some (u, p) → (∃ l ∈ file.lines, u <+: l.1) →
        cstr req.buf a = ascii "Basic " ++ base64 text ∧ text.length ≤ 255 ∧
          ∀ l ∈ file.lines, u <+: l.1 → (u, l.2) ∈ file.lines := by
  cases hsplit : splitColon text with
  | none =>
    refine iff_of_true (fun crypt => ⟨-1, rfl, iff_of_false (by decide) ?_⟩) fun u p h => by cases h
    rintro ⟨u, p, -, hlen, hbuf, l, hl, rfl, -⟩
    obtain ⟨p', hp'⟩ := user_of_credentials hl hbuf hlen htext
    rw [hsplit] at hp'
    cases hp'
  | some up =>
    obtain ⟨u, p⟩ := up
    obtain ⟨rfl, hu⟩ := splitColon_eq_some hsplit
    constructor
    · rintro hall u' p' heq ⟨l, hl, hpre⟩
      cases heq
      -- only the hash `l.2` is that of a password, and only of `p`
      have hline : ∀ l ∈ file.lines, u <+: l.1 →
          cstr req.buf a = ascii "Basic " ++ base64 (u ++ 58 :: p) ∧
            (u ++ 58 :: p).length ≤ 255 ∧ (u, l.2) ∈ file.lines := by
        intro l hl hpre
        obtain ⟨r, hr, hiff⟩ := hall fun q s => if q = p ∧ s = l.2.take 2 then l.2 else [0]
        obtain ⟨r', hr', hiff'⟩ := authLoop_eq file
          (fun q s => if q = p ∧ s = l.2.take 2 then l.2 else [0]) hu p
        obtain rfl : r = r' := Option.some.inj (hr.symm.trans hr')
        obtain ⟨u', p', -, hlen, hbuf, l', hl', rfl, hhash⟩ :=
          hiff.mp (hiff'.mpr ⟨l, hl, hpre, if_pos ⟨rfl, rfl⟩⟩)
        by_cases hsame : p' = p ∧ l'.2.take 2 = l.2.take 2
        · rw [if_pos hsame] at hhash
          obtain ⟨q, hq⟩ := user_of_credentials hl' hbuf hlen htext
          rw [hsplit] at hq
          cases hq
          rw [hsame.1] at hbuf hlen
          exact ⟨hbuf, hlen, hhash ▸ hl'⟩
        · rw [if_neg hsame] at hhash
          have hzero : (0 : UInt8) ∈ l'.2 := by
            rw [← hhash]
            exact List.mem_singleton_self 0
          exact absurd rfl (file.hash_ok l' hl' 0 hzero).1
      exact ⟨(hline l hl hpre).1, (hline l hl hpre).2.1,
        fun l hl hpre => (hline l hl hpre).2.2⟩
    · intro hright crypt
      obtain ⟨r, hr, hiff⟩ := authLoop_eq file crypt hu p
      refine ⟨r, hr, hiff.trans ?_⟩
      constructor
      · rintro ⟨l, hl, hpre, hhash⟩
        obtain ⟨hbuf, hlen, hlines⟩ := hright u p rfl ⟨l, hl, hpre⟩
        exact ⟨u, p, hu, hlen, hbuf, _, hlines l hl hpre, rfl, hhash⟩
      · rintro ⟨u', p', hu', hlen, hbuf, l, hl, rfl, hhash⟩
        obtain ⟨q, hq⟩ := user_of_credentials hl hbuf hlen htext
        rw [hsplit] at hq
        cases hq
        obtain ⟨hbuf', -, -⟩ := hright l.1 p rfl ⟨l, hl, List.prefix_refl _⟩
        rw [hbuf, List.append_cancel_left_eq] at hbuf'
        have hsame := base64_injective hbuf'
        rw [List.append_cancel_left_eq, List.cons.injEq] at hsame
        rw [hsame.2] at hhash
        exact ⟨l, hl, List.prefix_refl _, hhash⟩

/-- The decision is right for all `crypt` exactly if the header is one of these. -/
theorem decides_iff (file : PasswordFile) (req : HttpReq) :
    (∀ crypt, Decides crypt file req) ↔ DecidedRight file req := by
  unfold DecidedRight Decides Credentials httpGetheader serverAuthRequest
  cases hfind : req.headers.find? fun h => eqCase (ascii "Authorization") (cstr req.buf h.1) with
  | none =>
    refine iff_of_true (fun crypt => ⟨-1, rfl, iff_of_false (by decide) ?_⟩) fun h hh => by cases hh
    rintro ⟨u, p, -, -, habsurd, -⟩
    cases habsurd
  | some h =>
    obtain ⟨na, a⟩ := h
    simp only [Option.mem_some_iff, forall_eq', Option.map_some, Option.some.injEq]
    by_cases hbasic : ascii "Basic" <+: cstr req.buf a
    · have hbasic' := List.isPrefixOf_iff_prefix.mpr hbasic
      simp only [if_pos hbasic', hbasic, forall_const]
      cases htext : authPlaintext req.buf (a + 6) with
      | none =>
        refine iff_of_false (fun hall => ?_) fun hall => ?_
        · obtain ⟨r, hr, -⟩ := hall fun _ _ => []
          cases hr
        · obtain ⟨text, habsurd, -⟩ := hall
          cases habsurd
      | some text =>
        simp only [Option.bind_some, Option.some.injEq, exists_eq_left']
        exact decides_text_iff htext
    · have hbasic' := mt List.isPrefixOf_iff_prefix.mp hbasic
      simp only [if_neg hbasic']
      refine iff_of_true (fun crypt => ⟨-1, rfl, iff_of_false (by decide) ?_⟩)
        fun habsurd => absurd habsurd hbasic
      rintro ⟨u, p, -, -, hvalue, -⟩
      rw [hvalue] at hbasic
      exact hbasic ⟨_, (List.append_assoc _ (ascii " ") _).symm⟩

/-- The file has the one user `alice`. -/
def aliceFile : PasswordFile where
  lines := [(ascii "alice", ascii "xypw")]
  user_ok := by decide +kernel
  hash_ok := by decide +kernel

/-- The request of `ali`, with her password `pw`. -/
def aliRequest : HttpReq :=
  (httpParse (fun _ => 0) (.alloc 0 64)
    (ascii "GET / HTTP/1.1\r\nAuthorization: Basic YWxpOnB3\r\n\r\n")).2

/-- It is authorized by the line of `alice`, if the hash is the salt with the password. -/
theorem not_decides_prefix : ¬Decides (fun pass salt => salt ++ pass) aliceFile aliRequest := by
  rintro ⟨r, hr, hiff⟩
  have hzero : serverAuthRequest (fun pass salt => salt ++ pass) aliceFile.text aliRequest =
      some 0 := by decide +kernel
  obtain ⟨u, p, -, -, hvalue, l, hl, rfl, -⟩ := hiff.mp (Option.some.inj (hr.symm.trans hzero))
  have hheader : httpGetheader aliRequest (ascii "Authorization") =
      some (ascii "Basic " ++ base64 (ascii "ali:pw")) := by decide +kernel
  rw [hheader, Option.some.injEq, List.append_cancel_left_eq] at hvalue
  have hsame := base64_injective hvalue
  rw [List.mem_singleton.mp hl] at hsame
  have hbyte := congrArg (List.take 4) hsame
  rw [List.take_append_of_le_length (by decide)] at hbyte
  exact absurd hbyte (by decide)

end Webxs
