import DtbOverlay.Header

/-! `fdt_offset_ptr` (part_000, lines 383-403): the only guard on reads of the structure
block. -/
namespace DtbOverlay

/-- Modelled from the spec: `fdt_offset_ptr_`, in the missing `libfdt_internal.h`, points at
byte `off_dt_struct + offset` of the blob. -/
def fdtOffsetPtr_ (fdt : Blob) (offset : CInt) : Nat :=
  (fdtOffDtStruct fdt).toNat + offset.val.toNat

section
variable (FDT_ASSUME_MASK : Nat)

/-- `fdt_offset_ptr(fdt, offset, len)`, with `none` for `NULL` and otherwise the byte
pointed at. The sums are `unsigned int` sums, as in the source. -/
def fdtOffsetPtr (fdt : Blob) (offset : CInt) (len : UInt32) : Option Nat :=
  let uoffset := offset.toU32
  let absoffset := offset.toU32 + fdtOffDtStruct fdt
  if offset.val < 0 then none
  else if !canAssume_ FDT_ASSUME_MASK ASSUME_VALID_INPUT ∧
      (absoffset < uoffset ∨ absoffset + len < absoffset ∨ absoffset + len > fdtTotalsize fdt) then
    none
  else if (canAssume_ FDT_ASSUME_MASK ASSUME_LATEST ∨ fdtVersion fdt ≥ 0x11) ∧
      (uoffset + len < uoffset ∨ uoffset + len > fdtSizeDtStruct fdt) then
    none
  else some (fdtOffsetPtr_ fdt offset)

theorem fdtOffsetPtr_nonneg {fdt : Blob} {offset : CInt} {len : UInt32} {q : Nat}
    (h : fdtOffsetPtr FDT_ASSUME_MASK fdt offset len = some q) : 0 ≤ offset.val := by
  unfold fdtOffsetPtr at h
  split_ifs at h
  exact Int.not_lt.mp ‹_›

end

/-- Offsets up to `e` from the start of the structure block lie within `totalsize` and, for
version 17 and later, within `size_dt_struct`. -/
def InStruct (fdt : Blob) (e : Nat) : Prop :=
  (fdtOffDtStruct fdt).toNat + e ≤ (fdtTotalsize fdt).toNat ∧
    (17 ≤ (fdtVersion fdt).toNat → e ≤ (fdtSizeDtStruct fdt).toNat)

/-- Under every mask that assumes neither `ASSUME_VALID_INPUT` nor `ASSUME_LATEST`,
`fdt_offset_ptr` accepts exactly the spans inside the structure block, in unbounded arithmetic,
and then points at byte `off_dt_struct + offset`. -/
theorem fdtOffsetPtr_of_mask {m : Nat} (hi : canAssume_ m ASSUME_VALID_INPUT = false)
    (hl : canAssume_ m ASSUME_LATEST = false) (fdt : Blob) (offset : CInt) (len : UInt32) :
    fdtOffsetPtr m fdt offset len =
      if 0 ≤ offset.val ∧
          (fdtOffDtStruct fdt).toNat + offset.val + len.toNat ≤ (fdtTotalsize fdt).toNat ∧
          (17 ≤ (fdtVersion fdt).toNat → offset.val + len.toNat ≤ (fdtSizeDtStruct fdt).toNat)
      then some ((fdtOffDtStruct fdt).toNat + offset.val.toNat) else none := by
  have ho := offset.lt
  have hg := offset.ge
  have hl' : len.toNat < 2 ^ 32 := len.toNat_lt_size
  have hs : (fdtOffDtStruct fdt).toNat < 2 ^ 32 := (fdtOffDtStruct fdt).toNat_lt_size
  have ht : (fdtTotalsize fdt).toNat < 2 ^ 32 := (fdtTotalsize fdt).toNat_lt_size
  simp only [fdtOffsetPtr, fdtOffsetPtr_, hi, hl, Bool.not_false, Bool.false_eq_true,
    true_and, false_or, u32_lt_iff, ge_iff_le, u32_le_iff, u32_add_toNat, CInt.toU32_toNat,
    show (0x11 : UInt32).toNat = 17 from rfl]
  split_ifs <;> first | rfl | omega

theorem fdtOffsetPtr_eq (fdt : Blob) (offset : CInt) (len : UInt32) :
    fdtOffsetPtr 0 fdt offset len =
      if 0 ≤ offset.val ∧
          (fdtOffDtStruct fdt).toNat + offset.val + len.toNat ≤ (fdtTotalsize fdt).toNat ∧
          (17 ≤ (fdtVersion fdt).toNat → offset.val + len.toNat ≤ (fdtSizeDtStruct fdt).toNat)
      then some ((fdtOffDtStruct fdt).toNat + offset.val.toNat) else none :=
  fdtOffsetPtr_of_mask (canAssume__zero _) (canAssume__zero _) fdt offset len

theorem fdtOffsetPtr_of_inStruct {fdt : Blob} {offset : CInt} {len : UInt32}
    (h0 : 0 ≤ offset.val) (h : InStruct fdt (offset.val.toNat + len.toNat)) :
    fdtOffsetPtr 0 fdt offset len = some ((fdtOffDtStruct fdt).toNat + offset.val.toNat) := by
  rw [fdtOffsetPtr_of_mask (canAssume__zero _) (canAssume__zero _), if_pos]
  unfold InStruct at h
  omega

/-- What a pointer from `fdt_offset_ptr` tells: the offset is not negative, the span lies in
the structure block, and the pointer is at `off_dt_struct + offset`. -/
theorem fdtOffsetPtr_eq_some {fdt : Blob} {offset : CInt} {len : UInt32} {q : Nat}
    (h : fdtOffsetPtr 0 fdt offset len = some q) :
    0 ≤ offset.val ∧ InStruct fdt (offset.val.toNat + len.toNat) ∧
      q = (fdtOffDtStruct fdt).toNat + offset.val.toNat := by
  rw [fdtOffsetPtr_of_mask (canAssume__zero _) (canAssume__zero _)] at h
  split_ifs at h with hc
  cases h
  exact ⟨hc.1, ⟨by omega, fun hv => by have := hc.2.2 hv; omega⟩, rfl⟩

end DtbOverlay
