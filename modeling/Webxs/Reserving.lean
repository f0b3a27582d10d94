import Mathlib.Data.List.Basic

/-!
# Reserved regions of a buffer

Writers share a buffer : each reserves a region behind all others and fills it later, in any order.
`E` is what the buffer will hold, the data of all reservations one behind another, and
`pend off data` says that `data` is still to be written at `off`. `Reserved pend b E` says that the
buffer `b` holds `E` outside of the pending regions. A reservation and the filling of a region keep
this, and when nothing is pending the buffer holds `E` (`Reserved.take_eq`).
-/

/-- The buffer `b` holds `E`, but for the regions that are pending. -/
structure Reserved {α : Type*} (pend : ℕ → List α → Prop) (b E : List α) : Prop where
  length : E.length ≤ b.length
  slice : ∀ off data, pend off data →
    off + data.length ≤ E.length ∧ ∀ j < data.length, E[off + j]? = data[j]?
  bytes : ∀ k < E.length, b[k]? = E[k]? ∨
    ∃ off data, pend off data ∧ off ≤ k ∧ k < off + data.length

namespace Reserved

variable {α : Type*} {pend pend' : ℕ → List α → Prop} {b b' E data : List α} {off : ℕ}

theorem nil (b : List α) : Reserved (fun _ _ => False) b [] where
  length := Nat.zero_le _
  slice _ _ h := h.elim
  bytes _ h := absurd h (Nat.not_lt_zero _)

theorem congr (h : Reserved pend b E) (hpend : ∀ off data, pend' off data ↔ pend off data) :
    Reserved pend' b E := by
  have : pend' = pend := funext fun off => funext fun data => propext (hpend off data)
  rwa [this]

/-- Nothing is pending. -/
theorem take_eq (h : Reserved pend b E) (hnone : ∀ off data, ¬pend off data) :
    b.take E.length = E := by
  refine List.ext_getElem? fun k => ?_
  by_cases hk : k < E.length
  · rw [List.getElem?_take_of_lt hk]
    rcases h.bytes k hk with hb | ⟨off, data, hp, -⟩
    · exact hb
    · exact (hnone off data hp).elim
  · rw [List.getElem?_eq_none (by rw [List.length_take]; omega),
      List.getElem?_eq_none (by omega)]

/-- A region is reserved behind the others; the buffer may have been moved and grown. -/
theorem reserve (h : Reserved pend b E) (hlen : E.length + data.length ≤ b'.length)
    (hsame : ∀ k < E.length, b'[k]? = b[k]?)
    (hpend : ∀ off d, pend' off d ↔ pend off d ∨ off = E.length ∧ d = data) :
    Reserved pend' b' (E ++ data) where
  length := by rwa [List.length_append]
  slice off d hp := by
    rw [List.length_append]
    rcases (hpend off d).mp hp with hp | ⟨rfl, rfl⟩
    · obtain ⟨hle, hget⟩ := h.slice off d hp
      refine ⟨by omega, fun j hj => ?_⟩
      rw [List.getElem?_append_left (by omega)]
      exact hget j hj
    · refine ⟨Nat.le_refl _, fun j _ => ?_⟩
      rw [List.getElem?_append_right (by omega), Nat.add_sub_cancel_left]
  bytes k hk := by
    rw [List.length_append] at hk
    by_cases hke : k < E.length
    · rw [hsame k hke, List.getElem?_append_left hke]
      refine (h.bytes k hke).imp id ?_
      rintro ⟨off, d, hp, hk⟩
      exact ⟨off, d, (hpend off d).mpr (.inl hp), hk⟩
    · exact .inr ⟨E.length, data, (hpend _ _).mpr (.inr ⟨rfl, rfl⟩), by omega, hk⟩

/-- A pending region is filled. -/
theorem fill (h : Reserved pend b E) (hp : pend off data)
    (hpend : ∀ o d, pend' o d → pend o d)
    (hrest : ∀ o d, pend o d → pend' o d ∨ o = off ∧ d = data) :
    Reserved pend' (b.take off ++ data ++ b.drop (off + data.length)) E := by
  obtain ⟨hle, hget⟩ := h.slice off data hp
  have hlen := h.length
  have htake : (b.take off).length = off := by
    rw [List.length_take]
    omega
  refine ⟨?_, fun o d hp' => h.slice o d (hpend o d hp'), fun k hk => ?_⟩
  · simp only [List.length_append, List.length_take, List.length_drop]
    omega
  · by_cases hlt : k < off
    · rw [List.append_assoc, List.getElem?_append_left (by omega), List.getElem?_take_of_lt hlt]
      refine (h.bytes k hk).imp id ?_
      rintro ⟨o, d, ho, hko⟩
      rcases hrest o d ho with hp' | ⟨rfl, rfl⟩
      · exact ⟨o, d, hp', hko⟩
      · omega
    by_cases hin : k < off + data.length
    · left
      have hj := hget (k - off) (by omega)
      rw [show off + (k - off) = k by omega] at hj
      rw [List.append_assoc, List.getElem?_append_right (by omega), htake,
        List.getElem?_append_left (by omega), hj]
    · have hsame : (b.take off ++ data ++ b.drop (off + data.length))[k]? = b[k]? := by
        rw [List.getElem?_append_right (by rw [List.length_append]; omega), List.length_append,
          htake, List.getElem?_drop,
          show off + data.length + (k - (off + data.length)) = k by omega]
      rw [hsame]
      refine (h.bytes k hk).imp id ?_
      rintro ⟨o, d, ho, hko⟩
      rcases hrest o d ho with hp' | ⟨rfl, rfl⟩
      · exact ⟨o, d, hp', hko⟩
      · omega

end Reserved
