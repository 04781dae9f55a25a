import DtbOverlay.NextNode
import DtbOverlay.Progress

/-! What the traversal reads. With no assumptions `fdt_next_tag` always returns, and it reads
no header field but `totalsize`, `off_dt_struct`, `version` and (from version 17)
`size_dt_struct`, and no byte outside the structure block: every read goes through
`fdt_offset_ptr`. The same then holds of `fdt_next_node` and the subnode iterators, which see
the blob only through it. -/
namespace DtbOverlay

/-- `fdt'` agrees with `fdt` on the header fields `fdt_offset_ptr` reads and on every byte of
`fdt`'s structure block. -/
structure SameStruct (fdt fdt' : Blob) : Prop where
  totalsize : fdtTotalsize fdt' = fdtTotalsize fdt
  offDtStruct : fdtOffDtStruct fdt' = fdtOffDtStruct fdt
  version : fdtVersion fdt' = fdtVersion fdt
  sizeDtStruct : 17 ≤ (fdtVersion fdt).toNat → fdtSizeDtStruct fdt' = fdtSizeDtStruct fdt
  bytes : ∀ e, InStruct fdt (e + 1) →
    fdt'.byte ((fdtOffDtStruct fdt).toNat + e) = fdt.byte ((fdtOffDtStruct fdt).toNat + e)

namespace SameStruct
variable {fdt fdt' : Blob} (h : SameStruct fdt fdt')
include h

theorem offsetPtr (offset : CInt) (len : UInt32) :
    fdtOffsetPtr 0 fdt' offset len = fdtOffsetPtr 0 fdt offset len := by
  rw [fdtOffsetPtr_of_mask (canAssume__zero _) (canAssume__zero _),
    fdtOffsetPtr_of_mask (canAssume__zero _) (canAssume__zero _), h.offDtStruct, h.totalsize,
    h.version]
  by_cases hv : 17 ≤ (fdtVersion fdt).toNat
  · rw [h.sizeDtStruct hv]
  · simp only [hv, false_implies]

/-- A span `fdt_offset_ptr` accepts lies in the structure block, where the blobs agree. -/
theorem byte_of_offsetPtr {offset : CInt} {len : UInt32} {q k : Nat}
    (hp : fdtOffsetPtr 0 fdt offset len = some q) (hk : k < len.toNat) :
    fdt'.byte (q + k) = fdt.byte (q + k) := by
  rw [fdtOffsetPtr_of_mask (canAssume__zero _) (canAssume__zero _)] at hp
  split_ifs at hp with hc
  cases hp
  rw [Nat.add_assoc]
  exact h.bytes _ ⟨by omega, fun hv => by have := hc.2.2 hv; omega⟩

theorem fdt32Ld {offset : CInt} {q : Nat} (hp : fdtOffsetPtr 0 fdt offset 4 = some q) :
    fdt32Ld fdt'.byte q = fdt32Ld fdt.byte q :=
  fdt32Ld_congr fun _ hi => h.byte_of_offsetPtr hp hi

theorem skipName (offset : CInt) : fdtSkipName 0 fdt' offset = fdtSkipName 0 fdt offset := by
  induction offset using fdtSkipName.induct 0 fdt with
  | case1 x q hp hq ih =>
    have hq' : fdt'.byte q ≠ 0 := by rwa [← Nat.add_zero q, h.byte_of_offsetPtr hp (by decide)]
    rw [fdtSkipName_of_ne 0 fdt hp hq, fdtSkipName_of_ne 0 fdt' (by rwa [h.offsetPtr]) hq', ih]
  | case2 x q hp hq =>
    have hq' : fdt'.byte q = 0 := by
      rw [← Nat.add_zero q, h.byte_of_offsetPtr hp (by decide)]; exact not_not.mp hq
    rw [fdtSkipName_of_nul 0 fdt hp (not_not.mp hq),
      fdtSkipName_of_nul 0 fdt' (by rwa [h.offsetPtr]) hq']
  | case3 x hp =>
    rw [fdtSkipName_of_none 0 fdt hp, fdtSkipName_of_none 0 fdt' (by rwa [h.offsetPtr])]

theorem nextTagSwitch (tag : UInt32) (offset : CInt) :
    fdtNextTagSwitch 0 fdt' tag offset = fdtNextTagSwitch 0 fdt tag offset := by
  unfold fdtNextTagSwitch
  rw [h.skipName, h.offsetPtr, h.version]
  rcases hp : fdtOffsetPtr 0 fdt offset 4 with _ | lenp
  · rfl
  · simp only [h.fdt32Ld hp]

theorem nextTag (offset : CInt) : fdtNextTag 0 fdt' offset = fdtNextTag 0 fdt offset := by
  unfold fdtNextTag
  simp only [h.offsetPtr, h.nextTagSwitch]
  rcases hp : fdtOffsetPtr 0 fdt offset (UInt32.ofNat FDT_TAGSIZE) with _ | tagp
  · rfl
  · simp only [h.fdt32Ld hp]

theorem nextNodeBody : fdtNextNodeBody 0 fdt' = fdtNextNodeBody 0 fdt :=
  funext fun _ => by simp only [fdtNextNodeBody, h.nextTag]

theorem nextNode : fdtNextNode 0 fdt' = fdtNextNode 0 fdt := by
  funext fuel offset depth
  simp only [fdtNextNode, fdtCheckNodeOffset_, fdtCheckTagOffset_, h.nextTag, h.nextNodeBody]

theorem firstSubnode : fdtFirstSubnode 0 fdt' = fdtFirstSubnode 0 fdt := by
  funext fuel offset; unfold fdtFirstSubnode; rw [h.nextNode]

theorem nextSubnode : fdtNextSubnode 0 fdt' = fdtNextSubnode 0 fdt := by
  funext fuel offset; unfold fdtNextSubnode fdtNextSubnodeBody; rw [h.nextNode]

end SameStruct

/-- With no assumptions, `fdt_next_tag` returns for every blob and offset, and it, `fdt_next_node`,
`fdt_first_subnode` and `fdt_next_subnode` read no header field but `totalsize`,
`off_dt_struct`, `version` and (from version 17) `size_dt_struct`, and no byte outside the
structure block: on a blob that agrees with `fdt` there, every call returns the same. -/
theorem traversal_reads_only_struct {fdt fdt' : Blob} (h : SameStruct fdt fdt') :
    (∀ offset, ∃ r, fdtNextTag 0 fdt offset = .ok r) ∧
      fdtNextTag 0 fdt' = fdtNextTag 0 fdt ∧ fdtNextNode 0 fdt' = fdtNextNode 0 fdt ∧
      fdtFirstSubnode 0 fdt' = fdtFirstSubnode 0 fdt ∧
      fdtNextSubnode 0 fdt' = fdtNextSubnode 0 fdt :=
  ⟨fdtNextTag_zero_ok fdt, funext h.nextTag, h.nextNode, h.firstSubnode, h.nextSubnode⟩

/-- `wrapBlob` with its magic word overwritten: a blob `fdt_check_header` rejects. -/
def wrapBlobNoMagic : Blob := ⟨0, fun i => if i = 0 then 0 else wrapBlob.byte i⟩

/-- The traversal on `wrapBlobNoMagic` is the traversal on `wrapBlob`: it never looks at the
magic word. -/
theorem traversal_reads_only_struct_noMagic :
    fdtCheckHeader 0 wrapBlobNoMagic ≠ 0 ∧ SameStruct wrapBlob wrapBlobNoMagic ∧
      (∀ offset, ∃ r, fdtNextTag 0 wrapBlob offset = .ok r) ∧
      fdtNextTag 0 wrapBlobNoMagic = fdtNextTag 0 wrapBlob ∧
      fdtNextNode 0 wrapBlobNoMagic = fdtNextNode 0 wrapBlob ∧
      fdtFirstSubnode 0 wrapBlobNoMagic = fdtFirstSubnode 0 wrapBlob ∧
      fdtNextSubnode 0 wrapBlobNoMagic = fdtNextSubnode 0 wrapBlob :=
  have hs : SameStruct wrapBlob wrapBlobNoMagic :=
    ⟨rfl, rfl, rfl, fun _ => rfl, fun e _ => if_neg (by
      have : 0 < (fdtOffDtStruct wrapBlob).toNat := by decide
      omega)⟩
  ⟨by decide, hs, traversal_reads_only_struct hs⟩

end DtbOverlay
