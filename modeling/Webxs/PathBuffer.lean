import Webxs.Heads
import Webxs.Server

/-!
# The buffer of a path

`xs_server_handlerequest` composes the path of the file in `path`, of `PATH_MAX` bytes :
`xs_strappend` copies the document root and returns its length, and `xs_strlcat` appends the target
there, but with the size of all of `path`. `composePath` does so byte by byte, and has no result if
a byte is stored outside of `path`. That is so exactly if the root is not empty and the path too
long (`composes_iff`), and what it composes is `serverPath` (`composePath_serverPath`).
-/

namespace Webxs

namespace PathBuffer

/-! ## The string functions -/

/-- The loop of `xs_strlcpy` to `dst[d]`; it returns `dst` and `d`. -/
def strlcpyLoop : List UInt8 → List UInt8 → ℕ → ℕ → Option (List UInt8 × ℕ)
  | [], dst, d, _ => some (dst, d)
  | a :: s, dst, d, n =>
    if 1 < n then (writeBytes dst d [a]).bind fun dst => strlcpyLoop s dst (d + 1) (n - 1)
    else some (dst, d)

/-- `xs_strlcpy` to `dst[d]`. -/
def strlcpy (dst : List UInt8) (d : ℕ) (s : List UInt8) (n : ℕ) : Option (List UInt8) :=
  if n < 1 then some dst else (strlcpyLoop s dst d n).bind fun r => writeBytes r.1 r.2 [0]

/-- The loop of `xs_strlcat` over the text at `dst[d]`; it returns `n` and `d`. -/
def strlcatLoop (dst : List UInt8) : ℕ → ℕ → Option (ℕ × ℕ)
  | 0, d => dst[d]?.map fun _ => (0, d)
  | n + 1, d => dst[d]?.bind fun a =>
    if a ≠ 0 ∧ 1 < n + 1 then strlcatLoop dst n (d + 1) else some (n + 1, d)

/-- `xs_strlcat` to `dst[d]`. -/
def strlcat (dst : List UInt8) (d : ℕ) (s : List UInt8) (n : ℕ) : Option (List UInt8) :=
  if n < 1 then some dst
  else (strlcatLoop dst n d).bind fun (n, d) => if 1 < n then strlcpy dst d s n else some dst

/-- `xs_strappend` to `dst`. -/
def strappend (dst : List UInt8) (n : ℤ) (s : List UInt8) : Option (ℤ × List UInt8) :=
  let l := toInt32 s.length
  let l := if n ≤ l then n - 1 else l
  if l < 0 then some (0, dst)
  else
    (writeBytes dst 0 (s.take l.toNat)).bind fun dst =>
      (writeBytes dst l.toNat [0]).map fun dst => (l, dst)

/-- The composition of the document root and the target in `path`. -/
def composePath (documentRoot uri : List UInt8) : Option (List UInt8) :=
  (strappend (List.replicate PATH_MAX 0) PATH_MAX documentRoot).bind fun (n, path) =>
    strlcat path n.toNat uri PATH_MAX

/-! ## What they store -/

theorem writeBytes_stored {m t : List UInt8} {d : ℕ} (h : d + t.length ≤ m.length) :
    ∃ m', writeBytes m d t = some m' ∧ Stored m d t m' :=
  ⟨_, if_pos h, .block t h⟩

theorem strlcpyLoop_spec (s : List UInt8) {m : List UInt8} {d n : ℕ} (hn : 0 < n)
    (hd : d ≤ m.length) :
    (d + (s.take (n - 1)).length ≤ m.length →
      ∃ m', strlcpyLoop s m d n = some (m', d + (s.take (n - 1)).length) ∧
        Stored m d (s.take (n - 1)) m') ∧
    (m.length < d + (s.take (n - 1)).length → strlcpyLoop s m d n = none) := by
  induction s generalizing m d n with
  | nil => exact ⟨fun _ => ⟨m, by simp [strlcpyLoop], by rw [List.take_nil]; exact .nil m d⟩,
      by rw [List.take_nil, List.length_nil]; omega⟩
  | cons a s ih =>
    rw [strlcpyLoop]
    by_cases h1 : 1 < n
    · obtain ⟨k, rfl⟩ : ∃ k, n = k + 2 := ⟨n - 2, by omega⟩
      have htake : (a :: s).take (k + 2 - 1) = a :: s.take k := rfl
      rw [if_pos h1, htake, List.length_cons]
      by_cases hfree : d < m.length
      · obtain ⟨m₁, hw, hst⟩ := writeBytes_stored (t := [a]) hfree
        rw [hw, Option.bind_some]
        obtain ⟨hfit, hlong⟩ := ih (m := m₁) (d := d + 1) (n := k + 1) (by omega)
          (by rw [hst.length]; omega)
        rw [hst.length, Nat.add_sub_cancel] at hfit hlong
        refine ⟨fun h => ?_, fun h => hlong (by omega)⟩
        obtain ⟨m', hloop, hst'⟩ := hfit (by omega)
        have hlen : d + ((s.take k).length + 1) = d + 1 + (s.take k).length := by omega
        exact ⟨m', by rw [hlen]; exact hloop, hst.trans hst'⟩
      · refine ⟨fun h => by omega, fun _ => ?_⟩
        rw [writeBytes, if_neg (by rw [List.length_singleton]; omega), Option.bind_none]
    · rw [if_neg h1, show n - 1 = 0 by omega, List.take_zero, List.length_nil]
      exact ⟨fun _ => ⟨m, rfl, .nil m d⟩, by omega⟩

/-- The text is cut to fit `n` bytes, and stored with a NUL behind it. -/
theorem strlcpy_spec (s : List UInt8) {m : List UInt8} {d n : ℕ} (hn : 0 < n)
    (hd : d ≤ m.length) :
    (d + (s.take (n - 1)).length < m.length →
      ∃ m', strlcpy m d s n = some m' ∧ Stored m d (s.take (n - 1) ++ [0]) m') ∧
    (m.length ≤ d + (s.take (n - 1)).length → strlcpy m d s n = none) := by
  obtain ⟨hfit, hlong⟩ := strlcpyLoop_spec s hn hd
  rw [strlcpy, if_neg (by omega)]
  refine ⟨fun h => ?_, fun h => ?_⟩
  · obtain ⟨m₁, hloop, hst⟩ := hfit h.le
    obtain ⟨m₂, hw, hst'⟩ := writeBytes_stored (m := m₁) (t := [0])
      (d := d + (s.take (n - 1)).length) (by rw [hst.length]; exact h)
    exact ⟨m₂, by rw [hloop, Option.bind_some, hw], hst.trans hst'⟩
  · rcases h.lt_or_eq with h | h
    · rw [hlong h, Option.bind_none]
    · obtain ⟨m₁, hloop, hst⟩ := hfit h.ge
      rw [hloop, Option.bind_some, writeBytes,
        if_neg (by rw [hst.length, List.length_singleton]; omega)]

theorem strappend_root {root : List UInt8} (h : root.length < PATH_MAX) :
    ∃ path, strappend (List.replicate PATH_MAX 0) PATH_MAX root = some ((root.length : ℤ), path) ∧
      Stored (List.replicate PATH_MAX 0) 0 (root ++ [0]) path := by
  have hmax : PATH_MAX = 4096 := rfl
  have hlen : toInt32 root.length = root.length := by
    unfold toInt32
    rw [Int.bmod_def]
    omega
  have hsize : (List.replicate PATH_MAX (0 : UInt8)).length = PATH_MAX := List.length_replicate
  obtain ⟨path₁, hw, hst⟩ := writeBytes_stored (m := List.replicate PATH_MAX 0) (t := root)
    (d := 0) (by omega)
  obtain ⟨path₂, hw', hst'⟩ := writeBytes_stored (m := path₁) (t := [0]) (d := root.length)
    (by rw [hst.length, List.length_singleton]; omega)
  refine ⟨path₂, ?_, hst.trans (by rw [Nat.zero_add]; exact hst')⟩
  unfold strappend
  dsimp only
  rw [hlen, if_neg (by omega), if_neg (by omega), Int.toNat_natCast, List.take_length, hw,
    Option.bind_some, hw', Option.map_some]

/-- The target is copied behind the root, cut to the size of `path`. -/
theorem composePath_spec {root : List UInt8} (hroot : root.length < PATH_MAX) (uri : List UInt8) :
    (root.length + (uri.take (PATH_MAX - 1)).length < PATH_MAX →
      ∃ path, composePath root uri = some path ∧
        Stored (List.replicate PATH_MAX 0) 0 (root ++ uri.take (PATH_MAX - 1) ++ [0]) path) ∧
    (PATH_MAX ≤ root.length + (uri.take (PATH_MAX - 1)).length → composePath root uri = none) := by
  obtain ⟨path₁, happend, hst⟩ := strappend_root hroot
  have hsize : path₁.length = PATH_MAX := hst.length.trans List.length_replicate
  -- the text that `xs_strlcat` skips is empty
  have hend : path₁[root.length]? = some 0 := by
    obtain ⟨v, hv⟩ := drop_of_stored hst (Nat.zero_le _)
    rw [List.drop_zero] at hv
    rw [hv, List.append_assoc, List.getElem?_append_right le_rfl, Nat.sub_self]
    rfl
  have hcat : composePath root uri = strlcpy path₁ root.length uri PATH_MAX := by
    rw [composePath, happend, Option.bind_some]
    dsimp only
    rw [Int.toNat_natCast, strlcat, if_neg (by decide), show PATH_MAX = 4095 + 1 from rfl,
      strlcatLoop, hend, Option.bind_some, if_neg (by simp), Option.bind_some]
    exact if_pos (by decide)
  obtain ⟨hfit, hlong⟩ := strlcpy_spec uri (m := path₁) (d := root.length) (n := PATH_MAX)
    (by decide) (by omega)
  rw [hsize] at hfit hlong
  rw [hcat]
  refine ⟨fun h => ?_, hlong⟩
  obtain ⟨path, hpath, hst'⟩ := hfit h
  refine ⟨path, hpath, ?_⟩
  rw [List.append_assoc]
  exact (hst.of_append (Nat.zero_le _)).trans (by rw [Nat.zero_add]; exact hst')

end PathBuffer

open PathBuffer

theorem cstr_composed {root uri path : List UInt8} (hroot0 : 0 ∉ root) (huri0 : 0 ∉ uri)
    (hst : Stored (List.replicate PATH_MAX 0) 0 (root ++ uri.take (PATH_MAX - 1) ++ [0]) path) :
    cstr path 0 = root ++ uri.take (PATH_MAX - 1) := by
  refine cstr_of_stored hst (Nat.zero_le _) ?_
  rw [List.mem_append, not_or]
  exact ⟨hroot0, fun hmem => huri0 (List.mem_of_mem_take hmem)⟩

/-- The composition of the path is the one of `xs_server_handlerequest`. -/
theorem composePath_serverPath {root uri : List UInt8} (hroot : root.length < PATH_MAX)
    (hroot0 : 0 ∉ root) (huri0 : 0 ∉ uri) :
    (composePath root uri).map (fun path => cstr path 0) = serverPath root uri := by
  obtain ⟨hfit, hlong⟩ := composePath_spec hroot uri
  have hmax : PATH_MAX = 4096 := rfl
  unfold serverPath Webxs.strlcat Webxs.strappend
  dsimp only
  rw [List.take_of_length_le (l := root) (by omega)]
  by_cases h : root.length + (uri.take (PATH_MAX - 1)).length < PATH_MAX
  · obtain ⟨path, hpath, hst⟩ := hfit h
    rw [hpath, Option.map_some, cstr_composed hroot0 huri0 hst, if_pos (by omega), Option.map_some]
  · rw [hlong (by omega), if_neg (by omega)]
    rfl

/-- The path is composed inside `path`, and is the root and the target or the start of these. -/
def Composes (documentRoot uri : List UInt8) : Prop :=
  ∃ path, composePath documentRoot uri = some path ∧ path.length = PATH_MAX ∧ 0 ∈ path ∧
    cstr path 0 <+: documentRoot ++ uri

/-- That is so if the path fits, or the root is empty. -/
theorem composes_iff {root uri : List UInt8} (hroot : root.length < PATH_MAX) (hroot0 : 0 ∉ root)
    (huri0 : 0 ∉ uri) :
    Composes root uri ↔ root = [] ∨ root.length + uri.length < PATH_MAX := by
  obtain ⟨hfit, hlong⟩ := composePath_spec hroot uri
  have hlen : (uri.take (PATH_MAX - 1)).length = min (PATH_MAX - 1) uri.length := List.length_take
  have hmax : PATH_MAX = 4096 := rfl
  constructor
  · rintro ⟨path, hcompose, -⟩
    by_contra hno
    rw [not_or] at hno
    have hpos := List.length_pos_iff.mpr hno.1
    rw [hlong (by omega)] at hcompose
    cases hcompose
  · intro h
    have hle : root.length + (uri.take (PATH_MAX - 1)).length < PATH_MAX := by
      rcases h with rfl | h
      · rw [List.length_nil]
        omega
      · omega
    obtain ⟨path, hcompose, hst⟩ := hfit hle
    refine ⟨path, hcompose, hst.length.trans List.length_replicate, ?_, ?_⟩
    · obtain ⟨v, hv⟩ := drop_of_stored hst (Nat.zero_le _)
      rw [List.drop_zero] at hv
      rw [hv]
      simp
    · rw [cstr_composed hroot0 huri0 hst]
      exact (List.prefix_append_right_inj root).mpr (List.take_prefix _ uri)

/-- The page of a server. -/
theorem composes_iff_index : Composes (ascii "/srv") (ascii "/index.html") :=
  (composes_iff (by decide) (by decide) (by decide)).mpr (.inr (by decide))

/-- A target that fills the rest of `path` is stored with its NUL behind the end. -/
theorem not_composes :
    ∃ root uri : List UInt8, root.length < PATH_MAX ∧ 0 ∉ root ∧ uri.length < 131072 ∧ 0 ∉ uri ∧
      ¬Composes root uri := by
  refine ⟨[46], List.replicate 4095 47, by decide, by decide, ?_, ?_, ?_⟩
  · rw [List.length_replicate]
    decide
  · exact fun h => absurd (List.eq_of_mem_replicate h) (by decide)
  · rintro ⟨path, hpath, -⟩
    rw [(composePath_spec (by decide) _).2 ?_] at hpath
    · cases hpath
    · rw [List.length_take, List.length_replicate]
      decide

end Webxs
