import DtbOverlay.Frame
import DtbOverlay.RoundTrip

/-! `fdt_move` (part_000, lines 563-575): copy a blob into a caller's buffer. The blob and the
buffer live in one byte-addressed memory and may overlap, as `memmove` allows. `FDT_RO_PROBE`
expands to a call of `fdt_ro_probe_`, which is in neither the repository nor the spec: the
model takes the `int` it returns as a parameter, and the macro returns that value when it is
negative. Objects do not wrap around the address space, so addresses are read as `Nat`. -/
namespace DtbOverlay

/-- The blob whose first byte is at address `p` of `mem`. -/
def blobAt (mem : Nat → UInt8) (p : UInt64) : Blob := ⟨p, fun i => mem (p.toNat + i)⟩

/-- `memmove(dst, src, n)`: the `n` bytes at `src`, as they were before the call, land at
`dst`; every other byte keeps its value. -/
def memmove (mem : Nat → UInt8) (dst src : UInt64) (n : Nat) : Nat → UInt8 :=
  fun a => if dst.toNat ≤ a ∧ a < dst.toNat + n then mem (src.toNat + (a - dst.toNat))
    else mem a

theorem memmove_of_outside {mem : Nat → UInt8} {dst src : UInt64} {n a : Nat}
    (h : a < dst.toNat ∨ dst.toNat + n ≤ a) : memmove mem dst src n a = mem a :=
  if_neg (by omega)

/-- After `memmove` the destination holds the source's bytes as they were, whatever the
overlap. -/
theorem blobAt_memmove_byte {mem : Nat → UInt8} {dst src : UInt64} {n i : Nat} (h : i < n) :
    (blobAt (memmove mem dst src n) dst).byte i = (blobAt mem src).byte i := by
  show (if _ then _ else _) = _
  rw [if_pos (by omega), Nat.add_sub_cancel_left]
  rfl

section
variable (FDT_ASSUME_MASK : Nat)

/-- `fdt_move(fdt, buf, bufsize)`: the value it returns and the memory after the call;
`fdtRoProbe` is `fdt_ro_probe_`. -/
def fdtMove (fdtRoProbe : Blob → CInt) (mem : Nat → UInt8) (fdt buf : UInt64) (bufsize : CInt) :
    Int × (Nat → UInt8) :=
  if !canAssume_ FDT_ASSUME_MASK ASSUME_VALID_INPUT ∧ bufsize.val < 0 then (-FDT_ERR_NOSPACE, mem)
  else if (fdtRoProbe (blobAt mem fdt)).val < 0 then ((fdtRoProbe (blobAt mem fdt)).val, mem)
  else if fdtTotalsize (blobAt mem fdt) > bufsize.toU32 then (-FDT_ERR_NOSPACE, mem)
  else (0, memmove mem buf fdt (fdtTotalsize (blobAt mem fdt)).toNat)

end

section
variable {m : Nat} {probe : Blob → CInt} {mem mem' : Nat → UInt8} {fdt buf : UInt64}
  {bufsize : CInt} {r : Int}

/-- What a call of `fdt_move` can do: fail with `-FDT_ERR_NOSPACE` or with the probe's negative
value and write nothing, or pass every check and copy `totalsize` bytes, a size that fits the
buffer read as `unsigned int`. -/
theorem fdtMove_cases (h : fdtMove m probe mem fdt buf bufsize = (r, mem')) :
    ((r = -FDT_ERR_NOSPACE ∨ r = (probe (blobAt mem fdt)).val ∧ r < 0) ∧ mem' = mem) ∨
      (r = 0 ∧ (canAssume_ m ASSUME_VALID_INPUT = false → 0 ≤ bufsize.val) ∧
        (fdtTotalsize (blobAt mem fdt)).toNat ≤ (bufsize.val % 2 ^ 32).toNat ∧
        mem' = memmove mem buf fdt (fdtTotalsize (blobAt mem fdt)).toNat) := by
  unfold fdtMove at h
  split_ifs at h with h1 h2 h3 <;> obtain ⟨rfl, rfl⟩ := Prod.mk.inj h
  · exact .inl ⟨.inl rfl, rfl⟩
  · exact .inl ⟨.inr ⟨rfl, h2⟩, rfl⟩
  · exact .inl ⟨.inl rfl, rfl⟩
  · refine .inr ⟨rfl, fun hv => ?_, ?_, rfl⟩
    · simp only [hv, Bool.not_false, true_and] at h1
      omega
    · rw [← CInt.toU32_toNat]
      exact Nat.le_of_not_lt fun hl => h3 (u32_lt_iff.mpr hl)

end

/-- Every call of `fdt_move` either fails with `-FDT_ERR_NOSPACE` or the probe's error and
writes nothing, or returns 0 having written the blob's `totalsize` bytes at `buf`, as they were
before the call even where the blob and the buffer overlap. It writes nothing outside those
bytes, and unless `ASSUME_VALID_INPUT` is set, nothing at or past `buf + bufsize`: with it, a
negative `bufsize` is read as `bufsize + 2^32`. -/
theorem fdtMove_writes_only_copy (m : Nat) (probe : Blob → CInt) (mem : Nat → UInt8)
    (fdt buf : UInt64) (bufsize : CInt) (r : Int) (mem' : Nat → UInt8)
    (h : fdtMove m probe mem fdt buf bufsize = (r, mem')) :
    (r ≠ 0 → (r = -FDT_ERR_NOSPACE ∨ r = (probe (blobAt mem fdt)).val) ∧ mem' = mem) ∧
      (∀ a, a < buf.toNat ∨ buf.toNat + (fdtTotalsize (blobAt mem fdt)).toNat ≤ a →
        mem' a = mem a) ∧
      (r = 0 → ∀ i < (fdtTotalsize (blobAt mem fdt)).toNat,
        (blobAt mem' buf).byte i = (blobAt mem fdt).byte i) ∧
      (canAssume_ m ASSUME_VALID_INPUT = false →
        ∀ a : Nat, (buf.toNat : Int) + bufsize.val ≤ a → mem' a = mem a) := by
  rcases fdtMove_cases h with ⟨hr, rfl⟩ | ⟨rfl, hv, hts, rfl⟩
  · have hr0 : r ≠ 0 := by
      rcases hr with rfl | ⟨-, hr⟩
      · decide
      · omega
    exact ⟨fun _ => ⟨hr.imp_right And.left, rfl⟩, fun _ _ => rfl, (absurd · hr0),
      fun _ _ _ => rfl⟩
  · refine ⟨absurd rfl, fun _ => memmove_of_outside, fun _ _ => blobAt_memmove_byte,
      fun hm a ha => memmove_of_outside (.inr ?_)⟩
    have hb := hv hm
    have hb' := bufsize.lt
    omega

/-- A stand-in for `fdt_ro_probe_` in the examples: the verdict of `fdt_check_header`. -/
def checkHeaderProbe (fdt : Blob) : CInt := CInt.ofInt (fdtCheckHeader 0 fdt)

/-- `sampleBlob` at address 0 moved to address 64, over its own last 28 bytes. -/
theorem fdtMove_sampleBlob :
    fdtMove 0 checkHeaderProbe sampleBlob.byte 0 64 (CInt.ofInt 100) =
      (0, memmove sampleBlob.byte 64 0 92) := by
  have hts : (fdtTotalsize (blobAt sampleBlob.byte 0)).toNat = 92 := by decide
  rw [fdtMove, if_neg (by decide), if_neg (by decide), if_neg (by decide), hts]

/-- The overlapping move of `sampleBlob` carries its 92 bytes. -/
theorem fdtMove_writes_only_copy_overlap :
    fdtMove 0 checkHeaderProbe sampleBlob.byte 0 64 (CInt.ofInt 100) =
        (0, memmove sampleBlob.byte 64 0 92) ∧
      ∀ i < 92, (blobAt (memmove sampleBlob.byte 64 0 92) 64).byte i =
        (blobAt sampleBlob.byte 0).byte i :=
  ⟨fdtMove_sampleBlob, fun i hi =>
    (fdtMove_writes_only_copy 0 _ _ 0 64 _ 0 _ fdtMove_sampleBlob).2.2.1 rfl i
      (by rwa [show (fdtTotalsize (blobAt sampleBlob.byte 0)).toNat = 92 by decide])⟩

/-- `fdt'` has every header field of `fdt`'s version with `fdt`'s value: each 32-bit word that
`fdt_get_header` reads below `fdt_header_size_(version)`, so `magic`, `totalsize`,
`off_dt_struct`, `off_dt_strings`, `off_mem_rsvmap`, `version`, `last_comp_version`, and
`boot_cpuid_phys`, `size_dt_strings` and `size_dt_struct` where the version has them. -/
def SameHeader (fdt fdt' : Blob) : Prop :=
  ∀ o, o + 4 ≤ fdtHeaderSize_ (fdtVersion fdt) → fdtGetHeader fdt' o = fdtGetHeader fdt o

section
variable {fdt fdt' : Blob} (hh : fdtHeaderSize_ (fdtVersion fdt) ≤ (fdtTotalsize fdt).toNat)
  (h : ∀ i < (fdtTotalsize fdt).toNat, fdt'.byte i = fdt.byte i)
include hh h

/-- A blob that agrees with `fdt` on its first `totalsize` bytes, where `fdt` holds its whole
header, has `fdt`'s header fields. -/
theorem sameHeader_of_prefix : SameHeader fdt fdt' :=
  fun _ ho => fdt32Ld_congr fun i hi => h _ (by omega)

/-- Such a blob also has `fdt`'s structure block. -/
theorem sameStruct_of_prefix : SameStruct fdt fdt' := by
  have hb := fdtHeaderSize__bounds (fdtVersion fdt)
  have hf := sameHeader_of_prefix hh h
  refine ⟨hf 4 (by omega), hf 8 (by omega), hf 20 (by omega),
    fun hv => hf 36 (by rw [fdtHeaderSize__of_seventeen_le hv]), fun e he => h _ ?_⟩
  have := he.1
  omega

end

/-- A blob that `fdt_check_header` accepts, of a version other than 2, moved by a call of
`fdt_move` that returns 0 to an 8-aligned buffer, is accepted there too and has the same
header fields and structure block, so every call of the traversal returns on the copy what
it returns on the original, whatever the overlap. A version-2 blob can end before the
`size_dt_strings` word that the check reads, and the move does not carry that word. -/
theorem fdtMove_copy_traverses (m : Nat) (probe : Blob → CInt) (mem : Nat → UInt8)
    (fdt buf : UInt64) (bufsize : CInt) (mem' : Nat → UInt8)
    (h : fdtMove m probe mem fdt buf bufsize = (0, mem'))
    (hc : fdtCheckHeader 0 (blobAt mem fdt) = 0) (hv : fdtVersion (blobAt mem fdt) ≠ 2)
    (ha : buf.toNat % 8 = 0) :
    fdtCheckHeader 0 (blobAt mem' buf) = 0 ∧ SameHeader (blobAt mem fdt) (blobAt mem' buf) ∧
      SameStruct (blobAt mem fdt) (blobAt mem' buf) ∧
      fdtNextTag 0 (blobAt mem' buf) = fdtNextTag 0 (blobAt mem fdt) ∧
      fdtNextNode 0 (blobAt mem' buf) = fdtNextNode 0 (blobAt mem fdt) ∧
      fdtFirstSubnode 0 (blobAt mem' buf) = fdtFirstSubnode 0 (blobAt mem fdt) ∧
      fdtNextSubnode 0 (blobAt mem' buf) = fdtNextSubnode 0 (blobAt mem fdt) := by
  obtain ⟨ha0, hh⟩ := fdtHeaderSize__le_of_accepted hc
  have hb : ∀ i < (fdtTotalsize (blobAt mem fdt)).toNat,
      (blobAt mem' buf).byte i = (blobAt mem fdt).byte i := by
    rcases fdtMove_cases h with ⟨hr | ⟨-, hr⟩, -⟩ | ⟨-, -, -, rfl⟩
    · exact absurd hr (by decide)
    · exact absurd hr (lt_irrefl 0)
    · exact fun _ => blobAt_memmove_byte
  have hs := sameStruct_of_prefix hh hb
  refine ⟨?_, sameHeader_of_prefix hh hb, hs, funext hs.nextTag, hs.nextNode, hs.firstSubnode,
    hs.nextSubnode⟩
  exact (fdtCheckHeader_congr hv (iff_of_true ha0 ha) fun i hi =>
    (hb i (by omega)).symm).symm.trans hc

/-- The copy of `sampleBlob` at 64, over the original's tail, is accepted, has the original's
header fields, and its first node has the same first child. -/
theorem fdtMove_copy_traverses_overlap :
    fdtMove 0 checkHeaderProbe sampleBlob.byte 0 64 (CInt.ofInt 100) =
        (0, memmove sampleBlob.byte 64 0 92) ∧
      fdtCheckHeader 0 (blobAt sampleBlob.byte 0) = 0 ∧
      fdtVersion (blobAt sampleBlob.byte 0) ≠ 2 ∧
      (64 : UInt64).toNat % 8 = 0 ∧
      fdtCheckHeader 0 (blobAt (memmove sampleBlob.byte 64 0 92) 64) = 0 ∧
      SameHeader (blobAt sampleBlob.byte 0) (blobAt (memmove sampleBlob.byte 64 0 92) 64) ∧
      fdtFirstSubnode 0 (blobAt (memmove sampleBlob.byte 64 0 92) 64) =
        fdtFirstSubnode 0 (blobAt sampleBlob.byte 0) :=
  have hc : fdtCheckHeader 0 (blobAt sampleBlob.byte 0) = 0 := by decide
  have hv : fdtVersion (blobAt sampleBlob.byte 0) ≠ 2 := by decide
  have h := fdtMove_copy_traverses 0 _ _ 0 64 _ _ fdtMove_sampleBlob hc hv (by decide)
  ⟨fdtMove_sampleBlob, hc, hv, by decide, h.1, h.2.1, h.2.2.2.2.2.1⟩

end DtbOverlay
