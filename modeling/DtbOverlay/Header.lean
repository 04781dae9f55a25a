import DtbOverlay.Basic

/-! The header model and `fdt_check_header` (part_000, lines 273-381). Header fields are
read big-endian by `fdt32_ld`; the offsets of the fields are those of the layout of
spec section 6, since `struct fdt_header` lives in the missing `fdt.h`. -/
namespace DtbOverlay

/-- `fdt32_ld(p)`: the big-endian word at byte `p`, composed a byte at a time. -/
def fdt32Ld (bp : Nat → UInt8) (p : Nat) : UInt32 :=
  ((bp p).toUInt32 <<< 24) ||| ((bp (p + 1)).toUInt32 <<< 16) |||
    ((bp (p + 2)).toUInt32 <<< 8) ||| (bp (p + 3)).toUInt32

private theorem two_pow_mul_lor {a b k : Nat} (hb : b < 2 ^ k) :
    2 ^ k * a ||| b = 2 ^ k * a + b := by
  apply Nat.eq_of_testBit_eq
  intro j
  have h0 := Nat.testBit_mul_pow_two_add a (Nat.two_pow_pos k) j
  rw [Nat.add_zero] at h0
  rw [Nat.testBit_or, Nat.testBit_mul_pow_two_add a hb, h0]
  by_cases hj : j < k
  · simp [hj]
  · have hb' : b < 2 ^ j := lt_of_lt_of_le hb (Nat.pow_le_pow_right (by decide) (by omega))
    simp [hj, Nat.testBit_lt_two_pow hb']

private theorem u8_shl_toNat (x : UInt8) (s : UInt32) (hs : s.toNat ≤ 24) :
    (x.toUInt32 <<< s).toNat = 2 ^ s.toNat * x.toNat := by
  have hx : x.toNat < 2 ^ 8 := x.toNat_lt_size
  have hs' : (s % 32).toNat = s.toNat := by
    rw [UInt32.toNat_mod]; exact Nat.mod_eq_of_lt (by show s.toNat < 32; omega)
  show (x.toUInt32.toBitVec <<< (s % 32).toBitVec).toNat = _
  rw [BitVec.shiftLeft_eq', BitVec.toNat_shiftLeft, Nat.shiftLeft_eq]
  show x.toNat * 2 ^ (s % 32).toNat % 2 ^ 32 = _
  have hlt : x.toNat * 2 ^ s.toNat < 2 ^ 32 :=
    calc x.toNat * 2 ^ s.toNat < 2 ^ 8 * 2 ^ s.toNat :=
          Nat.mul_lt_mul_of_pos_right hx (Nat.two_pow_pos _)
      _ = 2 ^ (8 + s.toNat) := (Nat.pow_add 2 8 _).symm
      _ ≤ 2 ^ 32 := Nat.pow_le_pow_right (by decide) (by omega)
  rw [hs', Nat.mod_eq_of_lt hlt, Nat.mul_comm]

private theorem u32_lor_toNat (a b : UInt32) : (a ||| b).toNat = a.toNat ||| b.toNat :=
  BitVec.toNat_or ..

private theorem u8_toUInt32_toNat (x : UInt8) : x.toUInt32.toNat = x.toNat := rfl

/-- `fdt32_ld` is the big-endian value of its four bytes. -/
theorem fdt32Ld_toNat (bp : Nat → UInt8) (p : Nat) :
    (fdt32Ld bp p).toNat = 2 ^ 24 * (bp p).toNat + 2 ^ 16 * (bp (p + 1)).toNat +
      2 ^ 8 * (bp (p + 2)).toNat + (bp (p + 3)).toNat := by
  have h1 : (bp (p + 1)).toNat < 2 ^ 8 := (bp (p + 1)).toNat_lt_size
  have h2 : (bp (p + 2)).toNat < 2 ^ 8 := (bp (p + 2)).toNat_lt_size
  have h3 : (bp (p + 3)).toNat < 2 ^ 8 := (bp (p + 3)).toNat_lt_size
  simp only [fdt32Ld, u32_lor_toNat, u8_toUInt32_toNat]
  rw [u8_shl_toNat _ 24 (by decide), u8_shl_toNat _ 16 (by decide),
    u8_shl_toNat _ 8 (by decide)]
  show 2 ^ 24 * _ ||| 2 ^ 16 * _ ||| 2 ^ 8 * _ ||| _ = _
  rw [Nat.lor_assoc, Nat.lor_assoc, two_pow_mul_lor h3,
    @two_pow_mul_lor (bp (p + 1)).toNat _ 16 (by omega),
    @two_pow_mul_lor (bp p).toNat _ 24 (by omega)]
  omega

/-- `fdt32_ld` reads only its four bytes. -/
theorem fdt32Ld_congr {b b' : Nat → UInt8} {p : Nat} (h : ∀ i < 4, b (p + i) = b' (p + i)) :
    fdt32Ld b p = fdt32Ld b' p := by
  simp only [fdt32Ld]
  rw [← Nat.add_zero p, h 0 (by decide), Nat.add_zero, h 1 (by decide), h 2 (by decide),
    h 3 (by decide)]

/-- `fdt_get_header(fdt, field)`, the field at byte `off` of the header. -/
def fdtGetHeader (fdt : Blob) (off : Nat) : UInt32 := fdt32Ld fdt.byte off

def fdtMagic (fdt : Blob) : UInt32 := fdtGetHeader fdt 0
def fdtTotalsize (fdt : Blob) : UInt32 := fdtGetHeader fdt 4
def fdtOffDtStruct (fdt : Blob) : UInt32 := fdtGetHeader fdt 8
def fdtOffDtStrings (fdt : Blob) : UInt32 := fdtGetHeader fdt 12
def fdtOffMemRsvmap (fdt : Blob) : UInt32 := fdtGetHeader fdt 16
def fdtVersion (fdt : Blob) : UInt32 := fdtGetHeader fdt 20
def fdtLastCompVersion (fdt : Blob) : UInt32 := fdtGetHeader fdt 24
def fdtSizeDtStrings (fdt : Blob) : UInt32 := fdtGetHeader fdt 32
def fdtSizeDtStruct (fdt : Blob) : UInt32 := fdtGetHeader fdt 36

/-- `check_off_`: the offset lies in `[hdrsize, totalsize]`. -/
def checkOff_ (hdrsize totalsize off : UInt32) : Bool :=
  decide (off ≥ hdrsize) && decide (off ≤ totalsize)

/-- `check_block_`: start in bounds, no `u32` overflow, end in bounds. -/
def checkBlock_ (hdrsize totalsize base size : UInt32) : Bool :=
  if !checkOff_ hdrsize totalsize base then false
  else if base + size < base then false
  else if !checkOff_ hdrsize totalsize (base + size) then false
  else true

theorem checkOff__eq (hdrsize totalsize off : UInt32) :
    checkOff_ hdrsize totalsize off =
      decide (hdrsize.toNat ≤ off.toNat ∧ off.toNat ≤ totalsize.toNat) := by
  simp [checkOff_, u32_le_iff]

/-- `check_block_` in unbounded arithmetic: the block ends are read without wraparound. -/
theorem checkBlock__eq (hdrsize totalsize base size : UInt32) :
    checkBlock_ hdrsize totalsize base size =
      decide (hdrsize.toNat ≤ base.toNat ∧ base.toNat + size.toNat ≤ totalsize.toNat) := by
  have hb : base.toNat < 2 ^ 32 := base.toNat_lt_size
  have hs : size.toNat < 2 ^ 32 := size.toNat_lt_size
  have ht : totalsize.toNat < 2 ^ 32 := totalsize.toNat_lt_size
  simp only [checkBlock_, checkOff__eq, u32_lt_iff, u32_add_toNat, Bool.not_eq_true',
    decide_eq_false_iff_not]
  split_ifs <;>
    simp only [Bool.false_eq, Bool.true_eq, decide_eq_true_eq, decide_eq_false_iff_not] <;> omega

/-- `check_block_` accepts exactly the blocks that lie in `[hdrsize, totalsize]` in unbounded
arithmetic: one whose end wraps past `2^32` is rejected, and an empty block at either bound is
accepted. -/
theorem checkBlock__accepts_iff (hdrsize totalsize base size : UInt32) :
    (checkBlock_ hdrsize totalsize base size = true ↔
        hdrsize.toNat ≤ base.toNat ∧ base.toNat + size.toNat ≤ totalsize.toNat) ∧
      (2 ^ 32 ≤ base.toNat + size.toNat → checkBlock_ hdrsize totalsize base size = false) ∧
      (size = 0 → hdrsize ≤ totalsize → (base = hdrsize ∨ base = totalsize) →
        checkBlock_ hdrsize totalsize base size = true) := by
  have h := checkBlock__eq hdrsize totalsize base size
  have ht : totalsize.toNat < 2 ^ 32 := totalsize.toNat_lt_size
  refine ⟨by rw [h, decide_eq_true_iff], fun hw => by rw [h, decide_eq_false_iff_not]; omega, ?_⟩
  rintro rfl hle hb
  rw [u32_le_iff] at hle
  rw [h, decide_eq_true_iff, show (0 : UInt32).toNat = 0 from rfl]
  rcases hb with rfl | rfl <;> omega

/-- The two blocks of the spec's bounds-check properties, with `hdrsize` 40 and `totalsize` 64:
`base = totalsize - 1` with the largest `u32` size wraps and is rejected, and the empty block at
`hdrsize` is accepted. -/
theorem checkBlock__accepts_iff_samples :
    2 ^ 32 ≤ (63 : UInt32).toNat + (0xFFFFFFFF : UInt32).toNat ∧
      checkBlock_ 40 64 63 0xFFFFFFFF = false ∧
      (40 : UInt32) ≤ 64 ∧ checkBlock_ 40 64 40 0 = true :=
  ⟨by decide, (checkBlock__accepts_iff 40 64 63 0xFFFFFFFF).2.1 (by decide), by decide,
    (checkBlock__accepts_iff 40 64 40 0).2.2 rfl (by decide) (.inl rfl)⟩

/-- `fdt_header_size_`: the header length of a version. -/
def fdtHeaderSize_ (version : UInt32) : Nat :=
  if version ≤ 1 then FDT_V1_SIZE
  else if version ≤ 2 then FDT_V2_SIZE
  else if version ≤ 3 then FDT_V3_SIZE
  else if version ≤ 16 then FDT_V16_SIZE
  else FDT_V17_SIZE

theorem fdtHeaderSize__bounds (version : UInt32) :
    28 ≤ fdtHeaderSize_ version ∧ fdtHeaderSize_ version ≤ 40 := by
  unfold fdtHeaderSize_ FDT_V17_SIZE FDT_V16_SIZE FDT_V3_SIZE FDT_V2_SIZE FDT_V1_SIZE
  split_ifs <;> omega

section
variable (FDT_ASSUME_MASK : Nat)

/-- `fdt_header_size`: under `ASSUME_LATEST` every blob is sized as version 17. -/
def fdtHeaderSize (fdt : Blob) : Nat :=
  if canAssume_ FDT_ASSUME_MASK ASSUME_LATEST then FDT_V17_SIZE
  else fdtHeaderSize_ (fdtVersion fdt)

/-- `fdt_check_header`, each `if` of the source in order. The `printk` lines only print. -/
def fdtCheckHeader (fdt : Blob) : Int :=
  let hdrsize := fdtHeaderSize FDT_ASSUME_MASK fdt
  let h32 := UInt32.ofNat hdrsize
  if fdt.addr &&& 7 ≠ 0 then -FDT_ERR_ALIGNMENT
  else if fdtMagic fdt ≠ FDT_MAGIC then -FDT_ERR_BADMAGIC
  else if !canAssume_ FDT_ASSUME_MASK ASSUME_LATEST ∧
      (fdtVersion fdt < FDT_FIRST_SUPPORTED_VERSION ∨
        fdtLastCompVersion fdt > FDT_LAST_SUPPORTED_VERSION) then -FDT_ERR_BADVERSION
  else if !canAssume_ FDT_ASSUME_MASK ASSUME_LATEST ∧
      fdtVersion fdt < fdtLastCompVersion fdt then -FDT_ERR_BADVERSION
  else if !canAssume_ FDT_ASSUME_MASK ASSUME_VALID_DTB ∧
      ((fdtTotalsize fdt).toNat < hdrsize ∨ (fdtTotalsize fdt).toNat > INT_MAX) then
    -FDT_ERR_TRUNCATED
  else if !canAssume_ FDT_ASSUME_MASK ASSUME_VALID_DTB ∧
      !checkOff_ h32 (fdtTotalsize fdt) (fdtOffMemRsvmap fdt) then -FDT_ERR_TRUNCATED
  else if !canAssume_ FDT_ASSUME_MASK ASSUME_VALID_DTB ∧
      (if !canAssume_ FDT_ASSUME_MASK ASSUME_LATEST ∧ fdtVersion fdt < 17 then
        !checkOff_ h32 (fdtTotalsize fdt) (fdtOffDtStruct fdt)
      else !checkBlock_ h32 (fdtTotalsize fdt) (fdtOffDtStruct fdt) (fdtSizeDtStruct fdt)) then
    -FDT_ERR_TRUNCATED
  else if !canAssume_ FDT_ASSUME_MASK ASSUME_VALID_DTB ∧
      !checkBlock_ h32 (fdtTotalsize fdt) (fdtOffDtStrings fdt) (fdtSizeDtStrings fdt) then
    -FDT_ERR_TRUNCATED
  else 0

end

end DtbOverlay

namespace DtbOverlay

theorem addr_and_seven_ne_zero (a : UInt64) : a &&& 7 ≠ 0 ↔ a.toNat % 8 ≠ 0 := by
  have h : (a &&& 7).toNat = a.toNat % 8 := by
    rw [UInt64.and_toNat]
    exact Nat.and_pow_two_sub_one_eq_mod a.toNat 3
  constructor
  · intro hne h8
    exact hne (UInt64.toNat.inj (by rw [h, h8]; rfl))
  · intro h8 heq
    exact h8 (by rw [← h, heq]; rfl)

/-- The checks of `fdt_check_header` in unbounded arithmetic: the error of the first failing
test, each test stated on the header fields as natural numbers. -/
def headerVerdict (fdt : Blob) : Int :=
  let v := (fdtVersion fdt).toNat
  let lc := (fdtLastCompVersion fdt).toNat
  let ts := (fdtTotalsize fdt).toNat
  let h := fdtHeaderSize_ (fdtVersion fdt)
  let rsv := (fdtOffMemRsvmap fdt).toNat
  let st := (fdtOffDtStruct fdt).toNat
  let str := (fdtOffDtStrings fdt).toNat
  if fdt.addr.toNat % 8 ≠ 0 then -FDT_ERR_ALIGNMENT
  else if fdtMagic fdt ≠ FDT_MAGIC then -FDT_ERR_BADMAGIC
  else if ¬(2 ≤ v ∧ lc ≤ 17 ∧ lc ≤ v) then -FDT_ERR_BADVERSION
  else if ¬(h ≤ ts ∧ ts ≤ 2 ^ 31 - 1 ∧ h ≤ rsv ∧ rsv ≤ ts ∧ h ≤ st ∧ st ≤ ts ∧
      (17 ≤ v → st + (fdtSizeDtStruct fdt).toNat ≤ ts) ∧
      h ≤ str ∧ str + (fdtSizeDtStrings fdt).toNat ≤ ts) then -FDT_ERR_TRUNCATED
  else 0

private theorem ite_or_ite {α : Type} (p q : Prop) [Decidable p] [Decidable q] (a b : α) :
    (if p then a else if q then a else b) = if p ∨ q then a else b := by
  by_cases hp : p <;> by_cases hq : q <;> simp [hp, hq]

/-- Under every mask that assumes neither `ASSUME_VALID_DTB` nor `ASSUME_LATEST`,
`fdt_check_header` computes `headerVerdict`: the other assumptions do not reach it. -/
theorem fdtCheckHeader_of_mask {m : Nat} (hd : canAssume_ m ASSUME_VALID_DTB = false)
    (hl : canAssume_ m ASSUME_LATEST = false) (fdt : Blob) :
    fdtCheckHeader m fdt = headerVerdict fdt := by
  have hh := fdtHeaderSize__bounds (fdtVersion fdt)
  have h32 : (UInt32.ofNat (fdtHeaderSize_ (fdtVersion fdt))).toNat =
      fdtHeaderSize_ (fdtVersion fdt) := UInt32.toNat_ofNat_of_lt (by unfold UInt32.size; omega)
  simp only [fdtCheckHeader, headerVerdict, fdtHeaderSize, hd, hl, addr_and_seven_ne_zero,
    Bool.false_eq_true, ↓reduceIte, checkOff__eq, checkBlock__eq, u32_lt_iff, h32,
    Bool.not_false, true_and, INT_MAX, Bool.not_eq_true', decide_eq_false_iff_not,
    show (17 : UInt32).toNat = 17 from rfl, show FDT_FIRST_SUPPORTED_VERSION.toNat = 2 from rfl,
    show FDT_LAST_SUPPORTED_VERSION.toNat = 17 from rfl]
  simp only [ite_or_ite]
  -- the same four tests on both sides: alignment, magic, version, block bounds
  refine if_congr Iff.rfl rfl (if_congr Iff.rfl rfl (if_congr (by omega) rfl (if_congr ?_ rfl rfl)))
  split_ifs <;> simp only [Bool.not_eq_true', decide_eq_false_iff_not] <;> omega

theorem fdtCheckHeader_eq_headerVerdict (fdt : Blob) :
    fdtCheckHeader 0 fdt = headerVerdict fdt :=
  fdtCheckHeader_of_mask (canAssume__zero _) (canAssume__zero _) fdt

/-- Acceptance with no assumptions passes the alignment test of `headerVerdict` and the parts
of its bounds test that the traversal relies on. -/
theorem headerVerdict_bounds_of_accepted {fdt : Blob} (h : fdtCheckHeader 0 fdt = 0) :
    fdt.addr.toNat % 8 = 0 ∧ fdtHeaderSize_ (fdtVersion fdt) ≤ (fdtTotalsize fdt).toNat ∧
      (fdtTotalsize fdt).toNat ≤ INT_MAX ∧
      fdtHeaderSize_ (fdtVersion fdt) ≤ (fdtOffDtStruct fdt).toNat := by
  rw [fdtCheckHeader_of_mask (canAssume__zero _) (canAssume__zero _)] at h
  simp only [headerVerdict] at h
  split_ifs at h with h1 h2 h3 h4 <;> try exact absurd h (by decide)
  exact ⟨not_not.mp h1, h4.1, h4.2.1, h4.2.2.2.2.1⟩

/-- A blob that `fdt_check_header` accepts has a `totalsize` that fits an `int`. -/
theorem fdtTotalsize_le_of_accepted {fdt : Blob} (h : fdtCheckHeader 0 fdt = 0) :
    (fdtTotalsize fdt).toNat ≤ INT_MAX :=
  (headerVerdict_bounds_of_accepted h).2.2.1

/-- A blob that `fdt_check_header` accepts sits at an 8-aligned address and holds the whole
header of its version. -/
theorem fdtHeaderSize__le_of_accepted {fdt : Blob} (h : fdtCheckHeader 0 fdt = 0) :
    fdt.addr.toNat % 8 = 0 ∧ fdtHeaderSize_ (fdtVersion fdt) ≤ (fdtTotalsize fdt).toNat :=
  ⟨(headerVerdict_bounds_of_accepted h).1, (headerVerdict_bounds_of_accepted h).2.1⟩

/-- A blob that `fdt_check_header` accepts has its structure block after a header of at least
28 bytes. -/
theorem fdtOffDtStruct_ge_of_accepted {fdt : Blob} (h : fdtCheckHeader 0 fdt = 0) :
    28 ≤ (fdtOffDtStruct fdt).toNat :=
  (fdtHeaderSize__bounds (fdtVersion fdt)).1.trans (headerVerdict_bounds_of_accepted h).2.2.2

end DtbOverlay

namespace DtbOverlay

theorem fdtHeaderSize__of_three_le {version : UInt32} (h : 3 ≤ version.toNat) :
    36 ≤ fdtHeaderSize_ version := by
  unfold fdtHeaderSize_ FDT_V17_SIZE FDT_V16_SIZE FDT_V3_SIZE FDT_V2_SIZE FDT_V1_SIZE
  simp only [u32_le_iff, show (1 : UInt32).toNat = 1 from rfl, show (2 : UInt32).toNat = 2 from rfl]
  split_ifs <;> omega

theorem fdtHeaderSize__of_seventeen_le {version : UInt32} (h : 17 ≤ version.toNat) :
    fdtHeaderSize_ version = 40 := by
  unfold fdtHeaderSize_ FDT_V17_SIZE FDT_V16_SIZE FDT_V3_SIZE FDT_V2_SIZE FDT_V1_SIZE
  simp only [u32_le_iff, show (1 : UInt32).toNat = 1 from rfl, show (2 : UInt32).toNat = 2 from rfl,
    show (3 : UInt32).toNat = 3 from rfl, show (16 : UInt32).toNat = 16 from rfl]
  split_ifs <;> omega

/-- A version-17 header: totalsize 92, structure block at 40 of size 52, memory reservation
map at 40 and an empty strings block at 92. -/
def sampleHeader : List UInt8 :=
  [0xd0, 0x0d, 0xfe, 0xed, 0, 0, 0, 92, 0, 0, 0, 40, 0, 0, 0, 92,
    0, 0, 0, 40, 0, 0, 0, 17, 0, 0, 0, 16, 0, 0, 0, 0, 0, 0, 0, 0, 0, 0, 0, 52]

/-- Apart from version 2, the verdict with no assumptions depends only on whether the address
is 8-aligned and on the bytes of the header of the blob's own version. -/
theorem fdtCheckHeader_congr {fdt fdt' : Blob} (hv : fdtVersion fdt ≠ 2)
    (ha : fdt.addr.toNat % 8 = 0 ↔ fdt'.addr.toNat % 8 = 0)
    (h : ∀ i < fdtHeaderSize_ (fdtVersion fdt), fdt.byte i = fdt'.byte i) :
    fdtCheckHeader 0 fdt = fdtCheckHeader 0 fdt' := by
  have hh := fdtHeaderSize__bounds (fdtVersion fdt)
  have hf : ∀ o, o + 4 ≤ fdtHeaderSize_ (fdtVersion fdt) →
      fdtGetHeader fdt o = fdtGetHeader fdt' o :=
    fun o ho => fdt32Ld_congr (fun i hi => h _ (by omega))
  have hver : fdtVersion fdt = fdtVersion fdt' := hf 20 (by omega)
  rw [fdtCheckHeader_of_mask (canAssume__zero _) (canAssume__zero _),
    fdtCheckHeader_of_mask (canAssume__zero _) (canAssume__zero _)]
  refine if_congr (not_congr ha) rfl ?_
  simp only [← hver, fdtMagic, fdtTotalsize, fdtOffDtStruct, fdtOffDtStrings,
    fdtOffMemRsvmap, fdtLastCompVersion, hf 0 (by omega), hf 4 (by omega), hf 8 (by omega),
    hf 12 (by omega), hf 16 (by omega), hf 24 (by omega)]
  have hv' : (fdtVersion fdt).toNat ≠ 2 := fun h2 => hv (UInt32.toNat.inj h2)
  by_cases h3 : 3 ≤ (fdtVersion fdt).toNat
  · have h36 := fdtHeaderSize__of_three_le h3
    simp only [fdtSizeDtStrings, hf 32 (by omega)]
    by_cases h17 : 17 ≤ (fdtVersion fdt).toNat
    · have h40 := fdtHeaderSize__of_seventeen_le h17
      simp only [fdtSizeDtStruct, hf 36 (by omega)]
    · simp only [h17, false_implies, true_and]
  · have h2 : ¬2 ≤ (fdtVersion fdt).toNat := by omega
    simp only [h2, false_and, not_false_eq_true, ↓reduceIte]

/-- Apart from version 2, the verdict with no assumptions depends only on the bytes of the
header of the blob's own version. -/
theorem fdtCheckHeader_eq_of_header_eq (a : UInt64) (b b' : Nat → UInt8)
    (hv : fdtVersion ⟨a, b⟩ ≠ 2) (h : ∀ i < fdtHeaderSize_ (fdtVersion ⟨a, b⟩), b i = b' i) :
    fdtCheckHeader 0 ⟨a, b⟩ = fdtCheckHeader 0 ⟨a, b'⟩ :=
  fdtCheckHeader_congr hv Iff.rfl h

/-- The accepted blob made of `sampleHeader` and zeros, and a copy with `0xff` bytes past
the header, get the same verdict. -/
theorem fdtCheckHeader_eq_of_header_eq_sampleHeader :
    fdtCheckHeader 0 ⟨0, fun i => sampleHeader.getD i 0⟩ = 0 ∧
      fdtVersion ⟨0, fun i => sampleHeader.getD i 0⟩ ≠ 2 ∧
      (∀ i < fdtHeaderSize_ (fdtVersion ⟨0, fun i => sampleHeader.getD i 0⟩),
        sampleHeader.getD i 0 = if i < 40 then sampleHeader.getD i 0 else 0xff) ∧
      fdtCheckHeader 0 ⟨0, fun i => sampleHeader.getD i 0⟩ =
        fdtCheckHeader 0 ⟨0, fun i => if i < 40 then sampleHeader.getD i 0 else 0xff⟩ :=
  have hv : fdtVersion ⟨0, fun i => sampleHeader.getD i 0⟩ ≠ 2 := by decide
  have h40 : fdtHeaderSize_ (fdtVersion ⟨0, fun i => sampleHeader.getD i 0⟩) = 40 := by decide
  have h : ∀ i < fdtHeaderSize_ (fdtVersion ⟨0, fun i => sampleHeader.getD i 0⟩),
      sampleHeader.getD i 0 = if i < 40 then sampleHeader.getD i 0 else 0xff := fun i hi =>
    (if_pos (h40 ▸ hi)).symm
  ⟨by decide, hv, h, fdtCheckHeader_eq_of_header_eq 0 _ _ hv h⟩

/-- Two version-2 headers, alike in their 32 header bytes, whose `size_dt_strings` word
(bytes 32-35, past the version-2 header) is `0` or `s`. -/
def v2Blob (s : UInt8) : Blob :=
  ⟨0, fun i => ([0xd0, 0x0d, 0xfe, 0xed, 0, 0, 0, 64, 0, 0, 0, 32, 0, 0, 0, 64,
    0, 0, 0, 32, 0, 0, 0, 2, 0, 0, 0, 2, 0, 0, 0, 0, 0, 0, 0, s] : List UInt8).getD i 0⟩

/-- The strings-block check reads `size_dt_strings` for every version, also for version 2
whose header ends before it. -/
theorem fdtCheckHeader_reads_past_v2_header :
    (∀ i < fdtHeaderSize_ (fdtVersion (v2Blob 0)), (v2Blob 0).byte i = (v2Blob 1).byte i) ∧
      fdtCheckHeader 0 (v2Blob 0) = 0 ∧ fdtCheckHeader 0 (v2Blob 1) = -FDT_ERR_TRUNCATED := by
  decide

end DtbOverlay
