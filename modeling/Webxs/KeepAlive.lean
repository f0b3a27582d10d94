import Webxs.RequestText

/-!
# Keeping a connection

A connection is kept after a request of version 1.1 unless a header says close, and after any
request with a header that says keep-alive (`KeepAliveRule`). `xs_http_parseheaders` sets the flag
while it goes through the headers, in a branch for the header that says keep-alive and in the other
branch for the version : a header that says close is like any other one, and without headers the
version is not looked at.
-/

namespace Webxs

/-- A `Connection` header with the value `v`. -/
def HeaderLine.isConnection (l : HeaderLine) (v : List UInt8) : Bool :=
  eqCase l.name (ascii "Connection") && eqCase l.value v

/-- When a connection is to be kept. -/
def KeepAliveRule (version : List UInt8) (headers : List HeaderLine) : Prop :=
  (version = ascii "1.1" ∧ ∀ l ∈ headers, l.isConnection (ascii "close") = false) ∨
    ∃ l ∈ headers, l.isConnection (ascii "keep-alive") = true

/-- A header says keep-alive, or the version is another one, or there are headers and none says
close. -/
def KeepAliveTold (version : List UInt8) (headers : List HeaderLine) : Prop :=
  (∃ l ∈ headers, l.isConnection (ascii "keep-alive") = true) ∨ version ≠ ascii "1.1" ∨
    (headers ≠ [] ∧ ∀ l ∈ headers, l.isConnection (ascii "close") = false)

instance (version : List UInt8) (headers : List HeaderLine) :
    Decidable (KeepAliveRule version headers) :=
  inferInstanceAs (Decidable (_ ∨ _))

instance (version : List UInt8) (headers : List HeaderLine) :
    Decidable (KeepAliveTold version headers) :=
  inferInstanceAs (Decidable (_ ∨ _ ∨ _))

/-- A byte that is no letter is equal to no other one. -/
theorem lower_eq_iff {a b : UInt8} (hb : b < 65) : lower a = b ↔ a = b := by
  unfold lower
  split_ifs with ha
  · obtain ⟨hlo, hhi⟩ := ha
    refine iff_of_false (fun h => ?_) (fun h => ?_)
    · subst h
      rw [UInt8.lt_iff_toNat_lt, UInt8.toNat_add] at hb
      rw [UInt8.le_iff_toNat_le] at hlo hhi
      simp only [UInt8.reduceToNat] at hb hlo hhi
      omega
    · subst h
      rw [UInt8.lt_iff_toNat_lt] at hb
      rw [UInt8.le_iff_toNat_le] at hlo
      omega
  · exact Iff.rfl

theorem eqCase_number (s : List UInt8) : eqCase s (ascii "1.1") = true ↔ s = ascii "1.1" := by
  have hlow : ∀ t : List UInt8, (∀ b ∈ t, b < 65) → ∀ s : List UInt8, s.map lower = t ↔ s = t := by
    intro t
    induction t with
    | nil => exact fun _ s => List.map_eq_nil_iff
    | cons b t ih =>
      intro ht s
      cases s with
      | nil => exact iff_of_false (fun h => by cases h) (fun h => by cases h)
      | cons a s =>
        rw [List.map_cons, List.cons.injEq, List.cons.injEq, lower_eq_iff (ht b List.mem_cons_self),
          ih (fun c hc => ht c (List.mem_cons_of_mem _ hc))]
  rw [eqCase, beq_iff_eq, show (ascii "1.1").map lower = ascii "1.1" from rfl]
  exact hlow _ (by decide +kernel) s

/-- What the code computes of the version and the headers. -/
theorem any_keepsAlive_iff (version : List UInt8) (headers : List HeaderLine) :
    headers.any (keepsAlive version) = true ↔
      (∃ l ∈ headers, l.isConnection (ascii "keep-alive") = true) ∨
        (version = ascii "1.1" ∧ headers ≠ []) := by
  rw [List.any_eq_true]
  constructor
  · rintro ⟨l, hl, hkeep⟩
    rw [keepsAlive, Bool.or_eq_true] at hkeep
    obtain hkeep | hkeep := hkeep
    · exact .inl ⟨l, hl, hkeep⟩
    · exact .inr ⟨(eqCase_number version).mp hkeep, List.ne_nil_of_mem hl⟩
  · rintro (⟨l, hl, hkeep⟩ | ⟨hversion, hne⟩)
    · refine ⟨l, hl, ?_⟩
      rw [keepsAlive, Bool.or_eq_true]
      exact .inl hkeep
    · obtain ⟨l, headers, rfl⟩ := List.exists_cons_of_ne_nil hne
      refine ⟨l, List.mem_cons_self, ?_⟩
      rw [keepsAlive, Bool.or_eq_true]
      exact .inr ((eqCase_number version).mpr hversion)

/-- A request, as any head that is framed and accepted as one is, keeps the connection as the rule
says if and only if the rule is told by a header, by another version, or by headers none of which
says close. -/
theorem keepAlive_iff (strtod : List UInt8 → ℤ) (req r : HttpReq) {head : List UInt8}
    (hframed : httpValidrequest head head.length = some (head.length : ℤ))
    (hparse : httpParse strtod req head = (0, r)) (hmethod : r.method ≠ none) :
    (∃ q : RequestText, q.text = head) ∧
      ∀ q : RequestText, q.text = head →
        r.headerStrings = q.headers.map (fun l => (l.name, l.value)) ∧
        ((r.keepalive = true ↔ KeepAliveRule q.version q.headers) ↔
          KeepAliveTold q.version q.headers) := by
  refine ⟨exists_requestText strtod req hframed (by rw [hparse]) (by
    rw [hparse]
    exact hmethod), ?_⟩
  rintro q rfl
  obtain ⟨r', hr', -, -, -, -, hheaders, hkeep⟩ := q.httpParse_text strtod req
  obtain rfl : r' = r := congrArg Prod.snd (hr'.symm.trans hparse)
  refine ⟨hheaders, ?_⟩
  rw [hkeep, any_keepsAlive_iff]
  unfold KeepAliveRule KeepAliveTold
  by_cases halive : ∃ l ∈ q.headers, l.isConnection (ascii "keep-alive") = true
  · exact iff_of_true (iff_of_true (.inl halive) (.inr halive)) (.inl halive)
  · by_cases hversion : q.version = ascii "1.1"
    · simp only [halive, hversion, true_and, false_or, or_false, ne_eq, not_true_eq_false]
      constructor
      · intro h
        have hne : q.headers ≠ [] := by
          intro hnil
          refine h.mpr ?_ hnil
          rw [hnil]
          exact fun l hl => absurd hl List.not_mem_nil
        exact ⟨hne, h.mp hne⟩
      · exact fun h => iff_of_true h.1 h.2
    · simp only [halive, hversion, false_and, false_or, or_false, ne_eq, not_false_eq_true,
        true_or]

/-- A request with a header that does not say close. -/
def hostText : RequestText :=
  getText (ascii "/") (ascii "\r\nHost: a\r\n\r\n") (by decide +kernel) (by decide)
    (by decide +kernel)
    ⟨13, rfl, rfl⟩ (by decide +kernel) (by decide +kernel)

theorem keepAlive_iff_host :
    (httpParse decimal (HttpReq.alloc 0 0) hostText.text).2.keepalive = true ↔
      KeepAliveRule hostText.version hostText.headers :=
  (((@keepAlive_iff decimal (HttpReq.alloc 0 0) _ hostText.text (by decide +kernel)
    (Prod.ext (by decide +kernel) rfl) (by decide +kernel)).2 hostText rfl).2).mpr
    (by decide +kernel)

/-- A request with a header that says close, and is not heard. -/
def closingText : RequestText :=
  getText (ascii "/") (ascii "\r\nConnection: close\r\n\r\n") (by decide +kernel) (by decide)
    (by decide +kernel)
    ⟨13, rfl, rfl⟩ (by decide +kernel) (by decide +kernel)

theorem not_keepAlive_close :
    httpValidrequest closingText.text closingText.text.length = some (closingText.text.length : ℤ) ∧
      (httpParse decimal (HttpReq.alloc 0 0) closingText.text).1 = 0 ∧
      (httpParse decimal (HttpReq.alloc 0 0) closingText.text).2.keepalive = true ∧
      (httpParse decimal (HttpReq.alloc 0 0) closingText.text).2.headerStrings =
        [(ascii "Connection", ascii "close")] ∧
      ¬KeepAliveRule closingText.version closingText.headers := by
  decide +kernel

end Webxs
