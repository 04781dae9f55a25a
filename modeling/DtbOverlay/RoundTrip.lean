import DtbOverlay.RecordTag
import DtbOverlay.NextNode

/-! The round trip of the structure block: calling `fdt_next_tag` at offset 0, and again at
each offset it returns, reads back a block written from a tree record by record, at the
offsets the records were written at, and stops at `FDT_END`. At each of those offsets
`fdt_check_node_offset_` and `fdt_check_prop_offset_` accept exactly the nodes and the
properties. -/
namespace DtbOverlay

section
variable (FDT_ASSUME_MASK : Nat) (fdt : Blob)

/-- A caller's loop over the structure block: `fdt_next_tag` at `offset`, then at each
returned next offset, until it returns `FDT_END`, for at most `fuel` calls. It gives the
offset and tag of every call and the last next offset. -/
def tagWalk : Nat → CInt → Except Fault (List (CInt × UInt32) × CInt)
  | 0, _ => .error .outOfFuel
  | fuel + 1, offset => do
    let (tag, next) ← fdtNextTag FDT_ASSUME_MASK fdt offset
    if tag = FDT_END then return ([(offset, tag)], next)
    let (calls, last) ← tagWalk fuel next
    return ((offset, tag) :: calls, last)

end

theorem Record.tag_eq_end : ∀ {r : Record}, r.tag = FDT_END → r = .end_
  | .beginNode _, h => absurd h (show FDT_BEGIN_NODE ≠ FDT_END by decide)
  | .prop _ _, h => absurd h (show FDT_PROP ≠ FDT_END by decide)
  | .endNode, h => absurd h (show FDT_END_NODE ≠ FDT_END by decide)
  | .nop, h => absurd h (show FDT_NOP ≠ FDT_END by decide)
  | .end_, _ => rfl

section
variable {fdt : Blob} (hts : (fdtTotalsize fdt).toNat ≤ INT_MAX)
include hts

/-- The walk over records that end in their only `FDT_END`, one call per record. -/
theorem tagWalk_of_holds : ∀ {body : List Record} {offset : CInt} {o fuel : Nat},
    offset.val = o → Record.end_ ∉ body → Holds fdt o (body ++ [.end_]) → body.length < fuel →
    tagWalk 0 fdt fuel offset =
      .ok ((layout (legacy fdt) o (body ++ [.end_])).map fun p => (CInt.ofInt p.1, p.2.tag),
        CInt.ofInt (endOffset (legacy fdt) o (body ++ [.end_])))
  | [], offset, o, fuel + 1, ho, _, h, _ => by
    have hn := fdtNextTag_of_holds hts h
    rw [← ho, CInt.ofInt_self] at hn
    simp only [tagWalk, hn, Record.tag, bind, Except.bind, ↓reduceIte, pure, Except.pure]
    rw [← CInt.ofInt_self offset, ho]
    rfl
  | r :: body, offset, o, fuel + 1, ho, hnm, h, hf => by
    have hr : r.tag ≠ FDT_END := fun ht => hnm (Record.tag_eq_end ht ▸ List.mem_cons_self _ _)
    have hn := fdtNextTag_of_holds hts h
    rw [← ho, CInt.ofInt_self] at hn
    have ih := @tagWalk_of_holds body _ (o + r.size (legacy fdt) o) fuel
      (CInt.ofInt_natCast_val (h.head.1.lt_two_pow hts))
      (fun hm => hnm (List.mem_cons_of_mem r hm)) h.tail
      (by simp only [List.length_cons] at hf; omega)
    simp only [tagWalk, hn, hr, ih, bind, Except.bind, ↓reduceIte, pure, Except.pure]
    rw [← CInt.ofInt_self offset, ho]
    rfl
end

/-- A small tree: a root holding an 8-byte property behind an `FDT_NOP`, and one leaf child
named "a". -/
def sampleTree : Node :=
  .mk 0 ⟨[], List.not_mem_nil 0⟩ [⟨1, 0, [1, 2, 3, 4, 5, 6, 7, 8]⟩]
    [.mk 0 ⟨[0x61], by decide⟩ [] [] 0] 0

/-- `sampleHeader` followed by the encoding of `sampleTree`. -/
def sampleBlob : Blob :=
  ⟨0, fun i => (sampleHeader ++ encodeFrom false 0 (blockRecords sampleTree 0)).getD i 0⟩

theorem sampleBlob_accepted : fdtCheckHeader 0 sampleBlob = 0 := by decide

theorem sampleBlob_holds : Holds sampleBlob 0 (blockRecords sampleTree 0) := by
  have hl : legacy sampleBlob = false := by decide
  refine ⟨rfl, ?_, ?_⟩ <;> rw [hl]
  · exact ⟨by decide, fun _ => by decide⟩
  · exact HoldsBytes.of_getD (fun _ => rfl) (by decide)

/-- Calling `fdt_next_tag` at offset 0 and then at each returned offset, on a blob that
`fdt_check_header` accepts and whose structure block holds a tree, returns the tag of every
record of the block at the offset it was written at, `FDT_NOP` records included, ending with
`FDT_END` and the offset just past it. -/
theorem tagWalk_blockRecords (root : Node) (nops : Nat) (fdt : Blob)
    (hacc : fdtCheckHeader 0 fdt = 0) (h : Holds fdt 0 (blockRecords root nops)) (fuel : Nat)
    (hf : (blockRecords root nops).length ≤ fuel) :
    tagWalk 0 fdt fuel (CInt.ofInt 0) =
        .ok ((layout (legacy fdt) 0 (blockRecords root nops)).map
            (fun p => (CInt.ofInt p.1, p.2.tag)),
          CInt.ofInt (endOffset (legacy fdt) 0 (blockRecords root nops))) ∧
      (CInt.ofInt (endOffset (legacy fdt) 0 (blockRecords root nops))).val =
        endOffset (legacy fdt) 0 (blockRecords root nops) := by
  have hts := fdtTotalsize_le_of_accepted hacc
  have hlen : (root.records ++ List.replicate nops Record.nop).length < fuel := by
    simp only [blockRecords, List.length_append, List.length_singleton] at hf ⊢; omega
  exact ⟨tagWalk_of_holds hts rfl (end_not_mem_block root nops) h hlen,
    CInt.ofInt_natCast_val (h.inStruct.lt_two_pow hts)⟩

/-- The round trip on `sampleBlob`, with fuel for its seven records. -/
theorem tagWalk_sampleBlob :
    fdtCheckHeader 0 sampleBlob = 0 ∧ Holds sampleBlob 0 (blockRecords sampleTree 0) ∧
      (blockRecords sampleTree 0).length ≤ 7 ∧
      tagWalk 0 sampleBlob 7 (CInt.ofInt 0) =
          .ok ((layout (legacy sampleBlob) 0 (blockRecords sampleTree 0)).map
              (fun p => (CInt.ofInt p.1, p.2.tag)),
            CInt.ofInt (endOffset (legacy sampleBlob) 0 (blockRecords sampleTree 0))) ∧
        (CInt.ofInt (endOffset (legacy sampleBlob) 0 (blockRecords sampleTree 0))).val =
          endOffset (legacy sampleBlob) 0 (blockRecords sampleTree 0) :=
  ⟨sampleBlob_accepted, sampleBlob_holds, by decide,
    tagWalk_blockRecords sampleTree 0 sampleBlob sampleBlob_accepted sampleBlob_holds 7 (by decide)⟩

/-- With no assumptions, at a record of a block the blob holds, `fdt_check_*_offset_` returns
the offset of the next record if the record has the tag it wants, else `-FDT_ERR_BADOFFSET`. -/
theorem fdtCheckTagOffset__of_holds {fdt : Blob} (hts : (fdtTotalsize fdt).toNat ≤ INT_MAX)
    {o : Nat} {r : Record} {rs : List Record} (h : Holds fdt o (r :: rs)) (want : UInt32) :
    fdtCheckTagOffset_ 0 fdt want (CInt.ofInt o) =
      .ok (if r.tag = want then CInt.ofInt ((o + r.size (legacy fdt) o : Nat) : Int)
        else CInt.ofInt (-FDT_ERR_BADOFFSET)) := by
  have ho := CInt.ofInt_natCast_val
    ((Nat.le_add_right o (r.size (legacy fdt) o)).trans_lt (h.head.1.lt_two_pow hts))
  exact fdtCheckTagOffset__of_nextTag (by omega) (by rw [ho]; exact_mod_cast h.aligned)
    (fdtNextTag_of_holds hts h)

/-- With no assumptions, on a blob that `fdt_check_header` accepts and whose structure block
holds a tree, at the offset of each record `fdt_check_node_offset_` returns the offset of the
next record if the record is an `FDT_BEGIN_NODE` and `-FDT_ERR_BADOFFSET` otherwise, and
`fdt_check_prop_offset_` likewise for `FDT_PROP`; at a negative or misaligned offset both
return `-FDT_ERR_BADOFFSET`. -/
theorem fdtCheckOffsets_blockRecords (root : Node) (nops : Nat) (fdt : Blob)
    (hacc : fdtCheckHeader 0 fdt = 0) (h : Holds fdt 0 (blockRecords root nops)) :
    (∀ p ∈ layout (legacy fdt) 0 (blockRecords root nops),
      fdtCheckNodeOffset_ 0 fdt (CInt.ofInt p.1) =
          .ok (if p.2.tag = FDT_BEGIN_NODE then CInt.ofInt ((p.1 + p.2.size (legacy fdt) p.1 : Nat) : Int)
            else CInt.ofInt (-FDT_ERR_BADOFFSET)) ∧
        fdtCheckPropOffset_ 0 fdt (CInt.ofInt p.1) =
          .ok (if p.2.tag = FDT_PROP then CInt.ofInt ((p.1 + p.2.size (legacy fdt) p.1 : Nat) : Int)
            else CInt.ofInt (-FDT_ERR_BADOFFSET))) ∧
      ∀ offset : CInt, offset.val < 0 ∨ offset.val % 4 ≠ 0 →
        fdtCheckNodeOffset_ 0 fdt offset = .ok (CInt.ofInt (-FDT_ERR_BADOFFSET)) ∧
          fdtCheckPropOffset_ 0 fdt offset = .ok (CInt.ofInt (-FDT_ERR_BADOFFSET)) := by
  have hts := fdtTotalsize_le_of_accepted hacc
  refine ⟨fun p hp => ?_, fun _ ho => ⟨fdtCheckTagOffset__of_bad ho, fdtCheckTagOffset__of_bad ho⟩⟩
  obtain ⟨rest, hr⟩ := Holds.of_mem_layout h hp
  exact ⟨fdtCheckTagOffset__of_holds hts hr _, fdtCheckTagOffset__of_holds hts hr _⟩

/-- The offset checks on `sampleBlob`. -/
theorem fdtCheckOffsets_sampleBlob :
    fdtCheckHeader 0 sampleBlob = 0 ∧ Holds sampleBlob 0 (blockRecords sampleTree 0) ∧
      (∀ p ∈ layout (legacy sampleBlob) 0 (blockRecords sampleTree 0),
        fdtCheckNodeOffset_ 0 sampleBlob (CInt.ofInt p.1) =
            .ok (if p.2.tag = FDT_BEGIN_NODE then
                CInt.ofInt ((p.1 + p.2.size (legacy sampleBlob) p.1 : Nat) : Int)
              else CInt.ofInt (-FDT_ERR_BADOFFSET)) ∧
          fdtCheckPropOffset_ 0 sampleBlob (CInt.ofInt p.1) =
            .ok (if p.2.tag = FDT_PROP then
                CInt.ofInt ((p.1 + p.2.size (legacy sampleBlob) p.1 : Nat) : Int)
              else CInt.ofInt (-FDT_ERR_BADOFFSET))) ∧
        ∀ offset : CInt, offset.val < 0 ∨ offset.val % 4 ≠ 0 →
          fdtCheckNodeOffset_ 0 sampleBlob offset = .ok (CInt.ofInt (-FDT_ERR_BADOFFSET)) ∧
            fdtCheckPropOffset_ 0 sampleBlob offset = .ok (CInt.ofInt (-FDT_ERR_BADOFFSET)) :=
  ⟨sampleBlob_accepted, sampleBlob_holds,
    fdtCheckOffsets_blockRecords sampleTree 0 sampleBlob sampleBlob_accepted sampleBlob_holds⟩

end DtbOverlay
