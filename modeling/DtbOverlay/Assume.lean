import DtbOverlay.OffsetPtr

/-! The assumption mask (part_000, lines 157-163): every check is written as "check unless
assumption Y", so enabling assumptions only removes checks. The exception is
`ASSUME_LATEST`, which also sizes every blob as version 17. -/
namespace DtbOverlay

/-- Every assumption enabled in `m` is enabled in `m'`. -/
def AssumeSubset (m m' : Nat) : Prop := ∀ i, m.testBit i = true → m'.testBit i = true

section
variable {m m' : Nat} (hm : AssumeSubset m m')
include hm

theorem canAssume__mono {k : Nat} (h : canAssume_ m (2 ^ k) = true) :
    canAssume_ m' (2 ^ k) = true := by
  rw [canAssume__two_pow] at h ⊢
  exact hm k h

theorem canAssume__mono_false {k : Nat} (h : canAssume_ m' (2 ^ k) = false) :
    canAssume_ m (2 ^ k) = false :=
  Bool.eq_false_iff.mpr fun h' => by simp [canAssume__mono hm h'] at h

end

section
variable {m m' : Nat} {fdt : Blob}

theorem fdtHeaderSize_eq_of_latest (hm : AssumeSubset m m')
    (hl : canAssume_ m ASSUME_LATEST = true ∨ canAssume_ m' ASSUME_LATEST = false ∨
      17 ≤ (fdtVersion fdt).toNat) :
    fdtHeaderSize m fdt = fdtHeaderSize m' fdt := by
  have hL : canAssume_ m ASSUME_LATEST = true → canAssume_ m' ASSUME_LATEST = true :=
    @canAssume__mono m m' hm 2
  have hL' : canAssume_ m' ASSUME_LATEST = false → canAssume_ m ASSUME_LATEST = false :=
    @canAssume__mono_false m m' hm 2
  unfold fdtHeaderSize
  rcases hl with hl | hl | hl
  · rw [if_pos hl, if_pos (hL hl)]
  · rw [if_neg (by simp [hL' hl]), if_neg (by simp [hl])]
  · rw [fdtHeaderSize__of_seventeen_le hl]; split_ifs <;> rfl

private theorem ite_eq_zero_iff {c : Prop} [Decidable c] {e x : Int} (he : e ≠ 0) :
    (if c then e else x) = 0 ↔ ¬c ∧ x = 0 := by
  split_ifs with hc <;> simp [hc, he]

theorem fdtCheckHeader_mono (hm : AssumeSubset m m')
    (hl : canAssume_ m ASSUME_LATEST = true ∨ canAssume_ m' ASSUME_LATEST = false ∨
      17 ≤ (fdtVersion fdt).toNat)
    (h : fdtCheckHeader m fdt = 0) : fdtCheckHeader m' fdt = 0 := by
  have hne : -FDT_ERR_ALIGNMENT ≠ 0 ∧ -FDT_ERR_BADMAGIC ≠ 0 ∧ -FDT_ERR_BADVERSION ≠ 0 ∧
      -FDT_ERR_TRUNCATED ≠ 0 := by decide
  simp only [fdtCheckHeader, ite_eq_zero_iff hne.1, ite_eq_zero_iff hne.2.1,
    ite_eq_zero_iff hne.2.2.1, ite_eq_zero_iff hne.2.2.2, ← fdtHeaderSize_eq_of_latest hm hl] at h ⊢
  have hnL : (!canAssume_ m' ASSUME_LATEST) = true → (!canAssume_ m ASSUME_LATEST) = true := by
    simpa using @canAssume__mono_false m m' hm 2
  have hnD : (!canAssume_ m' ASSUME_VALID_DTB) = true →
      (!canAssume_ m ASSUME_VALID_DTB) = true := by
    simpa using @canAssume__mono_false m m' hm 0
  have hLm : canAssume_ m ASSUME_LATEST = true → canAssume_ m' ASSUME_LATEST = true :=
    @canAssume__mono m m' hm 2
  have hLf : canAssume_ m' ASSUME_LATEST = false → canAssume_ m ASSUME_LATEST = false :=
    @canAssume__mono_false m m' hm 2
  have hbr : ((!canAssume_ m ASSUME_LATEST) = true ∧ fdtVersion fdt < 17) ↔
      ((!canAssume_ m' ASSUME_LATEST) = true ∧ fdtVersion fdt < 17) := by
    rcases hl with hl | hl | hl
    · simp [hl, hLm hl]
    · simp [hl, hLf hl]
    · have h17 : ¬fdtVersion fdt < 17 := fun h' =>
        absurd (u32_lt_iff.mp h') (show ¬(fdtVersion fdt).toNat < 17 by omega)
      simp only [h17, and_false]
  simp only [hbr] at h
  obtain ⟨h1, h2, h3, h4, h5, h6, h7, h8, -⟩ := h
  exact ⟨h1, h2, fun h' => h3 ⟨hnL h'.1, h'.2⟩, fun h' => h4 ⟨hnL h'.1, h'.2⟩,
    fun h' => h5 ⟨hnD h'.1, h'.2⟩, fun h' => h6 ⟨hnD h'.1, h'.2⟩, fun h' => h7 ⟨hnD h'.1, h'.2⟩,
    fun h' => h8 ⟨hnD h'.1, h'.2⟩, trivial⟩

theorem fdtOffsetPtr_mono (hm : AssumeSubset m m')
    (hl : canAssume_ m ASSUME_LATEST = true ∨ canAssume_ m' ASSUME_LATEST = false ∨
      17 ≤ (fdtVersion fdt).toNat)
    {offset : CInt} {len : UInt32} {q : Nat} (h : fdtOffsetPtr m fdt offset len = some q) :
    fdtOffsetPtr m' fdt offset len = some q := by
  have hnI : (!canAssume_ m' ASSUME_VALID_INPUT) = true →
      (!canAssume_ m ASSUME_VALID_INPUT) = true := by
    simpa using @canAssume__mono_false m m' hm 1
  have hL : (canAssume_ m' ASSUME_LATEST = true ∨ fdtVersion fdt ≥ 0x11) →
      (canAssume_ m ASSUME_LATEST = true ∨ fdtVersion fdt ≥ 0x11) := by
    rintro (h' | h')
    · rcases hl with hl | hl | hl
      · exact .inl hl
      · simp [hl] at h'
      · exact .inr hl
    · exact .inr h'
  simp only [fdtOffsetPtr] at h ⊢
  split_ifs at h with h1 h2 h3
  rw [if_neg h1, if_neg (fun h' => h2 ⟨hnI h'.1, h'.2⟩), if_neg (fun h' => h3 ⟨hL h'.1, h'.2⟩)]
  exact h

/-- Enabling more assumptions only removes checks: a header `fdt_check_header` accepts stays
accepted, and a pointer `fdt_offset_ptr` returns stays the same, provided `ASSUME_LATEST` is
not newly enabled for a blob older than version 17. -/
theorem assumptions_only_remove_checks (m m' : Nat) (fdt : Blob) (hm : AssumeSubset m m')
    (hl : canAssume_ m ASSUME_LATEST = true ∨ canAssume_ m' ASSUME_LATEST = false ∨
      17 ≤ (fdtVersion fdt).toNat) :
    (fdtCheckHeader m fdt = 0 → fdtCheckHeader m' fdt = 0) ∧
      ∀ offset len q, fdtOffsetPtr m fdt offset len = some q →
        fdtOffsetPtr m' fdt offset len = some q :=
  ⟨fdtCheckHeader_mono hm hl, fun _ _ _ => fdtOffsetPtr_mono hm hl⟩

theorem assumptions_only_remove_checks_valid_dtb :
    (AssumeSubset 0 ASSUME_VALID_DTB ∧
      (canAssume_ 0 ASSUME_LATEST = true ∨ canAssume_ ASSUME_VALID_DTB ASSUME_LATEST = false ∨
        17 ≤ (fdtVersion (v2Blob 0)).toNat)) ∧
    ((fdtCheckHeader 0 (v2Blob 0) = 0 → fdtCheckHeader ASSUME_VALID_DTB (v2Blob 0) = 0) ∧
      ∀ offset len q, fdtOffsetPtr 0 (v2Blob 0) offset len = some q →
        fdtOffsetPtr ASSUME_VALID_DTB (v2Blob 0) offset len = some q) :=
  have hm : AssumeSubset 0 ASSUME_VALID_DTB := fun i h => by simp at h
  have hl : canAssume_ 0 ASSUME_LATEST = true ∨
      canAssume_ ASSUME_VALID_DTB ASSUME_LATEST = false ∨ 17 ≤ (fdtVersion (v2Blob 0)).toNat :=
    .inr (.inl (by decide))
  ⟨⟨hm, hl⟩, assumptions_only_remove_checks 0 ASSUME_VALID_DTB (v2Blob 0) hm hl⟩

end

/-- What `fdt_check_header` establishes of a blob it accepts: `totalsize` fits an `int`, and the
header of `fdt_header_size` bytes, the memory reservation map, the structure block (its end too
when its size is read) and the strings block lie between the header and `totalsize`. -/
structure HeaderBounds (m : Nat) (fdt : Blob) : Prop where
  totalsize_le : (fdtTotalsize fdt).toNat ≤ INT_MAX
  header_le : fdtHeaderSize m fdt ≤ (fdtTotalsize fdt).toNat
  rsvmap : fdtHeaderSize m fdt ≤ (fdtOffMemRsvmap fdt).toNat ∧
    (fdtOffMemRsvmap fdt).toNat ≤ (fdtTotalsize fdt).toNat
  struct : fdtHeaderSize m fdt ≤ (fdtOffDtStruct fdt).toNat ∧
    (fdtOffDtStruct fdt).toNat ≤ (fdtTotalsize fdt).toNat
  structEnd : (canAssume_ m ASSUME_LATEST = true ∨ 17 ≤ (fdtVersion fdt).toNat) →
    (fdtOffDtStruct fdt).toNat + (fdtSizeDtStruct fdt).toNat ≤ (fdtTotalsize fdt).toNat
  strings : fdtHeaderSize m fdt ≤ (fdtOffDtStrings fdt).toNat ∧
    (fdtOffDtStrings fdt).toNat + (fdtSizeDtStrings fdt).toNat ≤ (fdtTotalsize fdt).toNat

/-- `fdt_header_size_` adds a word to the 28-byte version-1 header at versions 2, 3 and 17. -/
theorem fdtHeaderSize__eq_steps (v : UInt32) :
    fdtHeaderSize_ v = 28 + 4 * min 1 (v.toNat - 1) + 4 * min 1 (v.toNat - 2) +
      4 * min 1 (v.toNat - 16) := by
  unfold fdtHeaderSize_ FDT_V17_SIZE FDT_V16_SIZE FDT_V3_SIZE FDT_V2_SIZE FDT_V1_SIZE
  simp only [u32_le_iff, show (1 : UInt32).toNat = 1 from rfl, show (2 : UInt32).toNat = 2 from rfl,
    show (3 : UInt32).toNat = 3 from rfl, show (16 : UInt32).toNat = 16 from rfl]
  split_ifs <;> omega

theorem fdtHeaderSize__mono {v v' : UInt32} (h : v ≤ v') :
    fdtHeaderSize_ v ≤ fdtHeaderSize_ v' := by
  have h' := u32_le_iff.mp h
  rw [fdtHeaderSize__eq_steps, fdtHeaderSize__eq_steps]
  gcongr

section
variable {m : Nat} {fdt : Blob}

theorem fdtHeaderSize_le_forty : fdtHeaderSize m fdt ≤ 40 := by
  have := (fdtHeaderSize__bounds (fdtVersion fdt)).2
  unfold fdtHeaderSize
  split_ifs
  · exact le_rfl
  · exact this

/-- Without `ASSUME_VALID_DTB`, every bounds check of `fdt_check_header` is made: the other
assumptions change which header size and which structure-block test apply, never whether. -/
theorem fdtCheckHeader_bounds (hm : canAssume_ m ASSUME_VALID_DTB = false)
    (h : fdtCheckHeader m fdt = 0) : HeaderBounds m fdt := by
  have h32 : (UInt32.ofNat (fdtHeaderSize m fdt)).toNat = fdtHeaderSize m fdt :=
    UInt32.toNat_ofNat_of_lt (by have := @fdtHeaderSize_le_forty m fdt; unfold UInt32.size; omega)
  have hne : -FDT_ERR_ALIGNMENT ≠ 0 ∧ -FDT_ERR_BADMAGIC ≠ 0 ∧ -FDT_ERR_BADVERSION ≠ 0 ∧
      -FDT_ERR_TRUNCATED ≠ 0 := by decide
  simp only [fdtCheckHeader, ite_eq_zero_iff hne.1, ite_eq_zero_iff hne.2.1,
    ite_eq_zero_iff hne.2.2.1, ite_eq_zero_iff hne.2.2.2, hm, Bool.not_false, true_and,
    checkOff__eq, checkBlock__eq, h32, Bool.not_eq_true', decide_eq_false_iff_not, not_not,
    INT_MAX] at h
  obtain ⟨-, -, -, -, h5, h6, h7, h8, -⟩ := h
  refine ⟨by unfold INT_MAX; omega, by omega, h6, ?_, fun hl => ?_, h8⟩
  · split_ifs at h7 <;>
      simp only [Bool.not_eq_true', decide_eq_false_iff_not, not_not] at h7 <;> omega
  · have hc : ¬(canAssume_ m ASSUME_LATEST = false ∧ fdtVersion fdt < 17) := by
      rintro ⟨h1, h2⟩
      rcases hl with hl | hl
      · simp [hl] at h1
      · exact absurd (u32_lt_iff.mp h2) (show ¬(fdtVersion fdt).toNat < 17 by omega)
    rw [if_neg hc] at h7
    simp only [Bool.not_eq_true', decide_eq_false_iff_not, not_not] at h7
    exact h7.2

/-- With `ASSUME_VALID_DTB`, the verdict of `fdt_check_header` depends on the address, the magic
word and the two version words only. -/
theorem fdtCheckHeader_congr_of_valid_dtb (hm : canAssume_ m ASSUME_VALID_DTB = true)
    {fdt' : Blob} (ha : fdt'.addr = fdt.addr) (hmag : fdtMagic fdt' = fdtMagic fdt)
    (hv : fdtVersion fdt' = fdtVersion fdt)
    (hlc : fdtLastCompVersion fdt' = fdtLastCompVersion fdt) :
    fdtCheckHeader m fdt' = fdtCheckHeader m fdt := by
  simp only [fdtCheckHeader, hm, Bool.not_true, Bool.false_eq_true, false_and, ↓reduceIte, ha,
    hmag, hv, hlc]

end

/-- `fdt_header_size_` grows with the version. Without `ASSUME_VALID_DTB`, whatever else is
assumed, a blob that `fdt_check_header` accepts has `totalsize` within `INT_MAX`, holds the
header of `fdt_header_size` bytes, and has its memory reservation map, structure block and
strings block between the header and `totalsize`. With it, none of these is checked: the verdict
depends on the address, the magic word and the version words only. -/
theorem valid_dtb_guards_bounds (m : Nat) :
    (∀ v v' : UInt32, v ≤ v' → fdtHeaderSize_ v ≤ fdtHeaderSize_ v') ∧
      (canAssume_ m ASSUME_VALID_DTB = false →
        ∀ fdt, fdtCheckHeader m fdt = 0 → HeaderBounds m fdt) ∧
      (canAssume_ m ASSUME_VALID_DTB = true → ∀ fdt fdt' : Blob, fdt'.addr = fdt.addr →
        fdtMagic fdt' = fdtMagic fdt → fdtVersion fdt' = fdtVersion fdt →
        fdtLastCompVersion fdt' = fdtLastCompVersion fdt →
        fdtCheckHeader m fdt' = fdtCheckHeader m fdt) :=
  ⟨fun _ _ => fdtHeaderSize__mono, fun hm _ => fdtCheckHeader_bounds hm,
    fun hm _ _ => fdtCheckHeader_congr_of_valid_dtb hm⟩

/-- `v2Blob 0` with its `totalsize` word cleared. -/
def v2BlobNoSize : Blob := ⟨0, fun i => if 4 ≤ i ∧ i < 8 then 0 else (v2Blob 0).byte i⟩

/-- `v2Blob 0` meets the bounds; with its `totalsize` cleared it is rejected as truncated with no
assumptions and accepted under `ASSUME_VALID_DTB`. -/
theorem valid_dtb_guards_bounds_v2 :
    HeaderBounds 0 (v2Blob 0) ∧ fdtCheckHeader 0 v2BlobNoSize = -FDT_ERR_TRUNCATED ∧
      fdtCheckHeader ASSUME_VALID_DTB v2BlobNoSize = 0 :=
  ⟨(valid_dtb_guards_bounds 0).2.1 rfl _ (by decide), by decide,
    ((valid_dtb_guards_bounds ASSUME_VALID_DTB).2.2 (by decide) _ _ rfl (by decide) (by decide)
      (by decide)).trans (by decide)⟩

end DtbOverlay
