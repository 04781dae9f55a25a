import DtbOverlay.Basic

/-! `fdt_find_string_` (part_000, lines 551-561, commented out in the file as it stands): the
linear scan of a string table for a NUL-terminated string. -/
namespace DtbOverlay

/-- The bytes at a `const char *` holding the string with characters `s`: the characters, its
NUL, then zeros. -/
def cstr (s : List UInt8) (i : Nat) : UInt8 := (s ++ [0]).getD i 0

/-- `strlen` of the C library: the index of the first NUL. -/
def strlen (s : List UInt8) : Nat := (s.takeWhile (· != 0)).length

/-- `memcmp(p, q, n)` of the C library: zero when the first `n` bytes agree, otherwise the
difference of the first bytes that differ. -/
def memcmp (p q : Nat → UInt8) : Nat → Int
  | 0 => 0
  | n + 1 =>
    if p 0 ≠ q 0 then (p 0).toNat - (q 0).toNat
    else memcmp (fun i => p (i + 1)) (fun i => q (i + 1)) n

/-- `memcmp` reads only the first `n` bytes of its first argument. -/
theorem memcmp_congr {p p' q : Nat → UInt8} {n : Nat} (h : ∀ i < n, p' i = p i) :
    memcmp p' q n = memcmp p q n := by
  induction n generalizing p p' q with
  | zero => rfl
  | succ n ih =>
    simp only [memcmp, h 0 (by omega), ih (fun i hi => h (i + 1) (by omega))]

theorem memcmp_eq_zero_iff (p q : Nat → UInt8) (n : Nat) :
    memcmp p q n = 0 ↔ ∀ i < n, p i = q i := by
  induction n generalizing p q with
  | zero => simp [memcmp]
  | succ n ih =>
    by_cases h0 : p 0 = q 0
    · simp only [memcmp, h0, ne_eq, not_true_eq_false, ↓reduceIte, ih]
      constructor
      · intro h i hi
        cases i with
        | zero => exact h0
        | succ i => exact h i (by omega)
      · exact fun h i hi => h (i + 1) (by omega)
    · have hne : ((p 0).toNat : Int) - (q 0).toNat ≠ 0 := fun h =>
        h0 (UInt8.toNat.inj (by omega))
      simp only [memcmp, h0, ne_eq, not_false_eq_true, ↓reduceIte, hne, false_iff, not_forall]
      exact ⟨0, by omega, h0⟩

/-- The loop `for (p = strtab; p <= last; p++) if (memcmp(p, s, len) == 0) return p;`, from
index `p` for `n` more positions. -/
def fdtFindStringScan (strtab s : Nat → UInt8) (len : Nat) : Nat → Nat → Option Nat
  | _, 0 => none
  | p, n + 1 =>
    if memcmp (fun i => strtab (p + i)) s len = 0 then some p
    else fdtFindStringScan strtab s len (p + 1) n

/-- `fdt_find_string_(strtab, tabsize, s)`: the index in `strtab` of the match, `none` for
`NULL`. `len` is an `int`, `last` the pointer `strtab + tabsize - len`. -/
def fdtFindString_ (strtab : Nat → UInt8) (tabsize : CInt) (s : List UInt8) : Option Nat :=
  let len := CInt.ofInt (strlen s + 1)
  let last := tabsize.val - len.val
  fdtFindStringScan strtab (cstr s) (len.val % 2 ^ 64).toNat 0 (last + 1).toNat

/-- The calls `memcmp(strtab + p, s, len)` that the loop makes, as pairs `(p, len)`, in order:
from index `p` on, up to the first that matches, for at most `n` positions. -/
def fdtFindStringCalls (strtab s : Nat → UInt8) (len : Nat) : Nat → Nat → List (Nat × Nat)
  | _, 0 => []
  | p, n + 1 =>
    (p, len) :: if memcmp (fun i => strtab (p + i)) s len = 0 then []
      else fdtFindStringCalls strtab s len (p + 1) n

/-- The calls of `memcmp` that `fdt_find_string_(strtab, tabsize, s)` makes, with the
function's own `len` and `last`. -/
def fdtFindStringCalls_ (strtab : Nat → UInt8) (tabsize : CInt) (s : List UInt8) :
    List (Nat × Nat) :=
  let len := CInt.ofInt (strlen s + 1)
  let last := tabsize.val - len.val
  fdtFindStringCalls strtab (cstr s) (len.val % 2 ^ 64).toNat 0 (last + 1).toNat

example : fdtFindStringCalls_ (cstr [98, 97]) (CInt.ofInt 3) [97] = [(0, 2), (1, 2)] := by
  decide

section
variable {strtab s : Nat → UInt8} {len : Nat}

/-- The scan returns the first position of `[p, p + n)` whose `len` bytes match. -/
theorem fdtFindStringScan_eq_some_iff {p n i : Nat} :
    fdtFindStringScan strtab s len p n = some i ↔
      p ≤ i ∧ i < p + n ∧ (∀ k < len, strtab (i + k) = s k) ∧
        ∀ j, p ≤ j → j < i → ¬∀ k < len, strtab (j + k) = s k := by
  induction n generalizing p with
  | zero =>
    simp only [fdtFindStringScan, reduceCtorEq, false_iff]
    rintro ⟨h1, h2, -⟩
    omega
  | succ n ih =>
    simp only [fdtFindStringScan, memcmp_eq_zero_iff]
    split_ifs with hp
    · constructor
      · intro h
        obtain rfl := Option.some.inj h
        exact ⟨le_rfl, by omega, hp, fun j hj hji => absurd hji (by omega)⟩
      · rintro ⟨hpi, -, -, hfirst⟩
        have hpi' : p = i := by
          by_contra hne
          exact hfirst p le_rfl (by omega) hp
        rw [hpi']
    · rw [ih]
      constructor
      · rintro ⟨hpi, hin, hm, hfirst⟩
        refine ⟨by omega, by omega, hm, fun j hj hji => ?_⟩
        rcases Nat.eq_or_lt_of_le hj with rfl | hj
        · exact hp
        · exact hfirst j hj hji
      · rintro ⟨hpi, hin, hm, hfirst⟩
        rcases Nat.eq_or_lt_of_le hpi with rfl | hpi
        · exact absurd hm hp
        · exact ⟨hpi, by omega, hm, fun j hj hji => hfirst j (by omega) hji⟩

theorem fdtFindStringScan_eq_none_iff {p n : Nat} :
    fdtFindStringScan strtab s len p n = none ↔
      ∀ j, p ≤ j → j < p + n → ¬∀ k < len, strtab (j + k) = s k := by
  induction n generalizing p with
  | zero => simp only [fdtFindStringScan, true_iff]; intro j hj hjn; omega
  | succ n ih =>
    simp only [fdtFindStringScan, memcmp_eq_zero_iff]
    split_ifs with hp
    · simp only [reduceCtorEq, false_iff]
      exact fun h => h p le_rfl (by omega) hp
    · rw [ih]
      constructor
      · intro h j hj hjn
        rcases Nat.eq_or_lt_of_le hj with rfl | hj
        · exact hp
        · exact h j hj (by omega)
      · exact fun h j hj hjn => h j (by omega) (by omega)

/-- The loop calls `memcmp` at the positions of `[p, p + n)` up to the first that matches, each
time with length `len`. -/
theorem mem_fdtFindStringCalls_iff {p n : Nat} {c : Nat × Nat} :
    c ∈ fdtFindStringCalls strtab s len p n ↔
      c.2 = len ∧ p ≤ c.1 ∧ c.1 < p + n ∧
        ∀ j, p ≤ j → j < c.1 → ¬∀ k < len, strtab (j + k) = s k := by
  induction n generalizing p with
  | zero => simp only [fdtFindStringCalls, List.not_mem_nil, false_iff]; omega
  | succ n ih =>
    simp only [fdtFindStringCalls, memcmp_eq_zero_iff, List.mem_cons]
    have hhead : c = (p, len) ↔ c.2 = len ∧ p ≤ c.1 ∧ c.1 < p + (n + 1) ∧ c.1 ≤ p := by
      obtain ⟨c1, c2⟩ := c
      simp only [Prod.mk.injEq]
      omega
    split_ifs with hp
    · simp only [List.not_mem_nil, or_false, hhead]
      exact ⟨fun h => ⟨h.1, h.2.1, h.2.2.1, fun j hj hjc => absurd hjc (by omega)⟩,
        fun h => ⟨h.1, h.2.1, h.2.2.1, Nat.le_of_not_lt fun hlt => h.2.2.2 p le_rfl hlt hp⟩⟩
    · rw [ih, hhead]
      constructor
      · rintro (⟨h2, h1, hn, hc⟩ | ⟨h2, h1, hn, hfirst⟩)
        · exact ⟨h2, h1, hn, fun j hj hjc => absurd hjc (by omega)⟩
        · refine ⟨h2, by omega, by omega, fun j hj hjc => ?_⟩
          rcases Nat.eq_or_lt_of_le hj with rfl | hj
          · exact hp
          · exact hfirst j hj hjc
      · rintro ⟨h2, h1, hn, hfirst⟩
        rcases Nat.eq_or_lt_of_le h1 with h | h
        · exact .inl ⟨h2, h1, hn, h.ge⟩
        · exact .inr ⟨h2, h, by omega, fun j hj hjc => hfirst j (by omega) hjc⟩

/-- The calls are the scan's reads: a table that agrees with `strtab` on the span
`[p, p + len)` of every call gives the same calls and the same result. -/
theorem fdtFindStringScan_congr_calls {strtab' : Nat → UInt8} {p n : Nat}
    (h : ∀ c ∈ fdtFindStringCalls strtab s len p n, ∀ k < c.2,
      strtab' (c.1 + k) = strtab (c.1 + k)) :
    fdtFindStringScan strtab' s len p n = fdtFindStringScan strtab s len p n ∧
      fdtFindStringCalls strtab' s len p n = fdtFindStringCalls strtab s len p n := by
  induction n generalizing p with
  | zero => exact ⟨rfl, rfl⟩
  | succ n ih =>
    have hm : memcmp (fun i => strtab' (p + i)) s len = memcmp (fun i => strtab (p + i)) s len :=
      memcmp_congr (h (p, len) (List.mem_cons_self _ _))
    simp only [fdtFindStringScan, fdtFindStringCalls, hm]
    split_ifs with hp
    · exact ⟨rfl, rfl⟩
    · obtain ⟨h1, h2⟩ := ih fun c hc => h c (by
        rw [fdtFindStringCalls, if_neg hp]; exact List.mem_cons_of_mem _ hc)
      exact ⟨h1, by rw [h2]⟩

end

/-- The `len = strlen(s) + 1` bytes of `strtab` from `i` are the characters of `s`, then its
NUL. -/
def MatchesAt (strtab : Nat → UInt8) (s : List UInt8) (i : Nat) : Prop :=
  ∀ k < s.length + 1, strtab (i + k) = (s ++ [0]).getD k 0

theorem strlen_of_not_mem {s : List UInt8} (hs : 0 ∉ s) : strlen s = s.length := by
  rw [strlen, List.takeWhile_eq_self_iff.mpr]
  intro x hx
  simpa using ne_of_mem_of_not_mem hx hs

/-- For a string whose length plus NUL fits the `int len`, `fdt_find_string_` returns the least
`i` with `i + len ≤ tabsize` where the string and its NUL stand in the table, `NULL` when
there is none, and each `memcmp(strtab + p, s, len)` it makes compares a span with
`p + len ≤ tabsize`. -/
theorem fdtFindString__spec (strtab : Nat → UInt8) (tabsize : CInt) (s : List UInt8)
    (hs : 0 ∉ s) (hlen : s.length + 1 ≤ INT_MAX) :
    (∀ i, fdtFindString_ strtab tabsize s = some i ↔
      (i : Int) + (s.length + 1) ≤ tabsize.val ∧ MatchesAt strtab s i ∧
        ∀ j < i, ¬MatchesAt strtab s j) ∧
    (fdtFindString_ strtab tabsize s = none ↔
      ∀ i : Nat, (i : Int) + (s.length + 1) ≤ tabsize.val → ¬MatchesAt strtab s i) ∧
    ∀ c ∈ fdtFindStringCalls_ strtab tabsize s,
      c.2 = s.length + 1 ∧ (c.1 : Int) + c.2 ≤ tabsize.val := by
  have hl : (CInt.ofInt (strlen s + 1)).val = s.length + 1 := by
    rw [strlen_of_not_mem hs]
    exact CInt.ofInt_val (by omega) (by unfold INT_MAX at hlen; omega)
  have hn : ((s.length + 1 : Int) % 2 ^ 64).toNat = s.length + 1 := by
    unfold INT_MAX at hlen; omega
  simp only [fdtFindString_, fdtFindStringCalls_, hl, hn]
  refine ⟨fun i => ?_, ?_, fun c hc => ?_⟩
  · rw [fdtFindStringScan_eq_some_iff]
    constructor
    · rintro ⟨-, hi, hm, hfirst⟩
      exact ⟨by omega, hm, fun j hj => hfirst j (by omega) hj⟩
    · rintro ⟨hi, hm, hfirst⟩
      exact ⟨by omega, by omega, hm, fun j _ hj => hfirst j hj⟩
  · rw [fdtFindStringScan_eq_none_iff]
    exact ⟨fun h i hi => h i (by omega) (by omega), fun h j _ hj => h j (by omega)⟩
  · obtain ⟨h2, -, hc1, -⟩ := mem_fdtFindStringCalls_iff.mp hc
    exact ⟨h2, by rw [h2]; omega⟩

/-- The table "ba" and the string "a": the loop compares at 0, then matches at 1. -/
theorem fdtFindString__spec_in_table :
    (0 ∉ ([97] : List UInt8) ∧ [97].length + 1 ≤ INT_MAX) ∧
    ((∀ i, fdtFindString_ (cstr [98, 97]) (CInt.ofInt 3) [97] = some i ↔
      (i : Int) + ([97].length + 1) ≤ (CInt.ofInt 3).val ∧ MatchesAt (cstr [98, 97]) [97] i ∧
        ∀ j < i, ¬MatchesAt (cstr [98, 97]) [97] j) ∧
    (fdtFindString_ (cstr [98, 97]) (CInt.ofInt 3) [97] = none ↔
      ∀ i : Nat, (i : Int) + ([97].length + 1) ≤ (CInt.ofInt 3).val →
        ¬MatchesAt (cstr [98, 97]) [97] i) ∧
    ∀ c ∈ fdtFindStringCalls_ (cstr [98, 97]) (CInt.ofInt 3) [97],
      c.2 = [97].length + 1 ∧ (c.1 : Int) + c.2 ≤ (CInt.ofInt 3).val) :=
  ⟨⟨by decide, by decide⟩,
    fdtFindString__spec (cstr [98, 97]) (CInt.ofInt 3) [97] (by decide) (by decide)⟩

/-- `len` is an `int`: for a string of `2 ^ 32 - 1` characters `strlen(s) + 1` wraps to `0`,
and a table of size `0` "contains" it at index `0`. -/
theorem fdtFindString__len_wraps :
    (0 : Int) < strlen (List.replicate (2 ^ 32 - 1) 1) + 1 ∧
      fdtFindString_ (fun _ => 0) (CInt.ofInt 0) (List.replicate (2 ^ 32 - 1) 1) = some 0 := by
  have hl : strlen (List.replicate (2 ^ 32 - 1) (1 : UInt8)) = 2 ^ 32 - 1 := by
    rw [strlen, List.takeWhile_replicate, if_pos (by decide), List.length_replicate]
  refine ⟨by rw [hl]; decide, ?_⟩
  simp only [fdtFindString_, hl]
  decide

end DtbOverlay
