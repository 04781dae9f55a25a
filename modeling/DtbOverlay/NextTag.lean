import DtbOverlay.OffsetPtr

/-! `fdt_next_tag` (part_000, lines 405-457, commented out in the file as it stands): decode
the record at an offset of the structure block and compute the next offset. -/
namespace DtbOverlay

section
variable (FDT_ASSUME_MASK : Nat) (fdt : Blob)

/-- The name loop of `fdt_next_tag`,
`do { p = fdt_offset_ptr(fdt, offset++, 1); } while (p && (*p != '\0'));`,
giving the last `p` and `offset`. It stops: once `offset++` wraps past `INT_MAX`,
`fdt_offset_ptr` rejects the negative offset. -/
def fdtSkipName (offset : CInt) : Option Nat × CInt :=
  match hp : fdtOffsetPtr FDT_ASSUME_MASK fdt offset 1 with
  | some q =>
    if fdt.byte q ≠ 0 then fdtSkipName (CInt.ofInt (offset.val + 1))
    else (some q, CInt.ofInt (offset.val + 1))
  | none => (none, CInt.ofInt (offset.val + 1))
termination_by if offset.val < 0 then 0 else (2 ^ 31 - offset.val).toNat
decreasing_by
  have h0 := fdtOffsetPtr_nonneg _ hp
  have hlt := offset.lt
  simp only [CInt.ofInt, Int.bmod]
  split_ifs <;> omega

theorem fdtSkipName_of_none {offset : CInt} (h : fdtOffsetPtr FDT_ASSUME_MASK fdt offset 1 = none) :
    fdtSkipName FDT_ASSUME_MASK fdt offset = (none, CInt.ofInt (offset.val + 1)) := by
  rw [fdtSkipName]; split <;> simp_all

theorem fdtSkipName_of_nul {offset : CInt} {q : Nat}
    (h : fdtOffsetPtr FDT_ASSUME_MASK fdt offset 1 = some q) (hq : fdt.byte q = 0) :
    fdtSkipName FDT_ASSUME_MASK fdt offset = (some q, CInt.ofInt (offset.val + 1)) := by
  rw [fdtSkipName]; split <;> simp_all

theorem fdtSkipName_of_ne {offset : CInt} {q : Nat}
    (h : fdtOffsetPtr FDT_ASSUME_MASK fdt offset 1 = some q) (hq : fdt.byte q ≠ 0) :
    fdtSkipName FDT_ASSUME_MASK fdt offset =
      fdtSkipName FDT_ASSUME_MASK fdt (CInt.ofInt (offset.val + 1)) := by
  rw [fdtSkipName]; split <;> simp_all

/-- The `switch (tag)` of `fdt_next_tag`: `.next o` carries the offset past the payload,
`.ret r` an early `return` with `*nextoffset = -FDT_ERR_BADSTRUCTURE`. -/
def fdtNextTagSwitch (tag : UInt32) (offset : CInt) :
    Except Fault (Flow CInt (UInt32 × CInt)) :=
  let bad := (FDT_END, CInt.ofInt (-FDT_ERR_BADSTRUCTURE))
  if tag = FDT_BEGIN_NODE then
    let (p, offset) := fdtSkipName FDT_ASSUME_MASK fdt offset
    if !canAssume_ FDT_ASSUME_MASK ASSUME_VALID_DTB ∧ p = none then .ok (.ret bad)
    else .ok (.next offset)
  else if tag = FDT_PROP then
    match fdtOffsetPtr FDT_ASSUME_MASK fdt offset 4 with
    | none =>
      if canAssume_ FDT_ASSUME_MASK ASSUME_VALID_DTB then .error .nullDeref else .ok (.ret bad)
    | some lenp =>
      let len := fdt32Ld fdt.byte lenp
      let offset := CInt.ofInt (offset.val + (sizeofFdtProperty - FDT_TAGSIZE) + len.toNat)
      if !canAssume_ FDT_ASSUME_MASK ASSUME_LATEST ∧ fdtVersion fdt < 0x10 ∧ len ≥ 8 ∧
          (offset.toU32 - len) % 8 ≠ 0 then .ok (.next (CInt.ofInt (offset.val + 4)))
      else .ok (.next offset)
  else if tag = FDT_END ∨ tag = FDT_END_NODE ∨ tag = FDT_NOP then .ok (.next offset)
  else .ok (.ret bad)

/-- `fdt_next_tag(fdt, startoffset, &nextoffset)`: the tag returned and the value left in
`*nextoffset`. -/
def fdtNextTag (startoffset : CInt) : Except Fault (UInt32 × CInt) :=
  match fdtOffsetPtr FDT_ASSUME_MASK fdt startoffset (UInt32.ofNat FDT_TAGSIZE) with
  | none =>
    if canAssume_ FDT_ASSUME_MASK ASSUME_VALID_DTB then .error .nullDeref
    else .ok (FDT_END, CInt.ofInt (-FDT_ERR_TRUNCATED))
  | some tagp =>
    let tag := fdt32Ld fdt.byte tagp
    match fdtNextTagSwitch FDT_ASSUME_MASK fdt tag (CInt.ofInt (startoffset.val + FDT_TAGSIZE)) with
    | .error e => .error e
    | .ok (.ret r) => .ok r
    | .ok (.next offset) =>
      if fdtOffsetPtr FDT_ASSUME_MASK fdt startoffset
          (CInt.ofInt (offset.val - startoffset.val)).toU32 = none then
        .ok (FDT_END, CInt.ofInt (-FDT_ERR_BADSTRUCTURE))
      else .ok (tag, fdtTagalign offset)

end

end DtbOverlay

namespace DtbOverlay

/-- A version-17 blob that `fdt_check_header` accepts, its structure block at byte 40:
`FDT_BEGIN_NODE ""`, an `FDT_PROP` whose length word is `0xFFFFFFF4`, `FDT_END`. -/
def wrapBlob : Blob :=
  ⟨0, fun i => ([0xd0, 0x0d, 0xfe, 0xed, 0, 0, 0, 64, 0, 0, 0, 40, 0, 0, 0, 64,
    0, 0, 0, 40, 0, 0, 0, 17, 0, 0, 0, 16, 0, 0, 0, 0, 0, 0, 0, 0, 0, 0, 0, 24,
    0, 0, 0, 1, 0, 0, 0, 0, 0, 0, 0, 3, 0xff, 0xff, 0xff, 0xf4, 0, 0, 0, 0,
    0, 0, 0, 9] : List UInt8).getD i 0⟩

theorem wrapBlob_accepted : fdtCheckHeader 0 wrapBlob = 0 := by decide

theorem wrapBlob_prop_loops : fdtNextTag 0 wrapBlob (CInt.ofInt 8) = .ok (FDT_PROP, CInt.ofInt 8) := by
  decide

/-- At the `FDT_PROP` record `offset += 8 + len` wraps the `int` offset back onto the record's
start, and the closing `fdt_offset_ptr` check sees an empty span: `fdt_next_tag` returns
`FDT_PROP` with `*nextoffset` equal to the start offset, for a record that ends far past
`totalsize`. -/
theorem fdtNextTag_prop_length_wraps :
    fdtCheckHeader 0 wrapBlob = 0 ∧
      fdtNextTag 0 wrapBlob (CInt.ofInt 8) = .ok (FDT_PROP, CInt.ofInt 8) ∧
      (fdtTotalsize wrapBlob).toNat <
        (fdtOffDtStruct wrapBlob).toNat + 8 + 12 + (fdt32Ld wrapBlob.byte (40 + 8 + 4)).toNat :=
  ⟨wrapBlob_accepted, wrapBlob_prop_loops, by decide⟩

end DtbOverlay
