import DtbOverlay.NodeOffset

/-! What the traversal returns when it does not return a record or a node, with no assumptions,
on a blob that `fdt_check_header` accepts. `fdt_next_tag` leaves `*nextoffset` negative only
with `FDT_END` and `-FDT_ERR_TRUNCATED` or `-FDT_ERR_BADSTRUCTURE`; otherwise `*nextoffset` is
the end, rounded up to a word, of a span from `startoffset` that lies in the structure block, so
a walk never moves backwards, even past an `FDT_PROP` whose length wraps the `int` offset.
`fdt_next_node` returns a negative value only as one of four error codes, and
`-FDT_ERR_TRUNCATED` only with a depth pointer. The subnode iterators return no error but
`-FDT_ERR_NOTFOUND`: an offset that `fdt_check_node_offset_` rejects and a truncated or corrupt
block both read as the end of the children. -/
namespace DtbOverlay

/-- The negative values `fdt_next_node` can return. -/
def nextNodeErrors : List Int :=
  [-FDT_ERR_NOTFOUND, -FDT_ERR_BADOFFSET, -FDT_ERR_TRUNCATED, -FDT_ERR_BADSTRUCTURE]

section
variable {fdt : Blob}

/-- Every way a call of `fdt_next_tag` ends, with no assumptions: `FDT_END` with
`-FDT_ERR_TRUNCATED` when the tag word is out of bounds, `FDT_END` with `-FDT_ERR_BADSTRUCTURE`
from the `switch` or the closing check, or the offset `off` the `switch` went on with, rounded up
to a word, once the closing check has accepted the span from `startoffset` to `off`. -/
theorem fdtNextTag_zero_cases {so next : CInt} {tag : UInt32}
    (h : fdtNextTag 0 fdt so = .ok (tag, next)) :
    (tag = FDT_END ∧ (next = CInt.ofInt (-FDT_ERR_TRUNCATED) ∨
        next = CInt.ofInt (-FDT_ERR_BADSTRUCTURE))) ∨
      ∃ off, 0 ≤ so.val ∧ fdtOffsetPtr 0 fdt so (CInt.ofInt (off.val - so.val)).toU32 ≠ none ∧
        next = fdtTagalign off := by
  unfold fdtNextTag at h
  rcases hp : fdtOffsetPtr 0 fdt so (UInt32.ofNat FDT_TAGSIZE) with _ | tagp <;>
    simp only [hp, canAssume__zero, Bool.false_eq_true, ↓reduceIte, Except.ok.injEq,
      Prod.mk.injEq] at h
  · exact .inl ⟨h.1.symm, .inl h.2.symm⟩
  rcases hs : fdtNextTagSwitch 0 fdt (fdt32Ld fdt.byte tagp) (CInt.ofInt (so.val + FDT_TAGSIZE))
    with e | ⟨off⟩ | ⟨r⟩ <;> simp only [hs] at h
  · cases h
  · split_ifs at h with hc <;> simp only [Except.ok.injEq, Prod.mk.injEq] at h
    · exact .inl ⟨h.1.symm, .inr h.2.symm⟩
    · exact .inr ⟨off, fdtOffsetPtr_nonneg 0 hp, hc, h.2.symm⟩
  · obtain ⟨rfl, rfl⟩ :=
      Prod.mk.inj ((Except.ok.inj h).symm.trans (fdtNextTagSwitch_ret_bad hs))
    exact .inl ⟨rfl, .inr rfl⟩

/-- The `switch` of `fdt_next_node` leaves with the record's offset only on `FDT_BEGIN_NODE`;
otherwise with `-FDT_ERR_NOTFOUND`, or with `*nextoffset`, which is `-FDT_ERR_TRUNCATED` only
when there is a depth pointer. -/
theorem fdtNextNodeSwitch_ret_value {offset next : CInt} {depth : Option CInt} {tag : UInt32}
    {r : CInt × Option CInt} (h : fdtNextNodeSwitch offset depth tag next = .ret r) :
    (r.1 = offset ∧ tag = FDT_BEGIN_NODE) ∨
      (r.1 = next ∧ (next.val = -FDT_ERR_TRUNCATED → r.2 ≠ none)) ∨
      r.1 = CInt.ofInt (-FDT_ERR_NOTFOUND) := by
  by_cases h1 : tag = FDT_PROP ∨ tag = FDT_NOP
  · rw [fdtNextNodeSwitch_skip h1] at h; cases h
  by_cases h2 : tag = FDT_BEGIN_NODE
  · subst h2; rw [fdtNextNodeSwitch_beginNode] at h; cases h; exact .inl ⟨rfl, rfl⟩
  by_cases h3 : tag = FDT_END_NODE
  · subst h3; rw [fdtNextNodeSwitch_endNode] at h
    rcases depth with _ | d
    · cases h
    · dsimp only at h; split at h <;> cases h
      exact .inr (.inl ⟨rfl, fun _ => Option.some_ne_none _⟩)
  unfold fdtNextNodeSwitch at h
  rw [if_neg h1, if_neg h2, if_neg h3] at h
  split at h
  · split at h <;> cases h
    · exact .inr (.inr rfl)
    · rename_i hc
      exact .inr (.inl ⟨rfl, fun ht hd => hc (.inr ⟨ht, hd⟩)⟩)
  · cases h

end

section
variable {fdt : Blob} (hacc : fdtCheckHeader 0 fdt = 0)
include hacc

/-- The closing check of `fdt_next_tag` accepts a span only from `so` forwards: whatever the
`int` sums wrapped to, the offset the `switch` went on with is at or past `so`, in the
structure block. -/
theorem closing_check_forward {so off : CInt} (h0 : 0 ≤ so.val)
    (h : fdtOffsetPtr 0 fdt so (CInt.ofInt (off.val - so.val)).toU32 ≠ none) :
    so.val ≤ off.val ∧ InStruct fdt off.val.toNat := by
  obtain ⟨q, hq⟩ := Option.ne_none_iff_exists'.mp h
  obtain ⟨-, hI, -⟩ := fdtOffsetPtr_eq_some hq
  rw [CInt.toU32_toNat, CInt.ofInt_val_emod] at hI
  have hts := fdtTotalsize_le_of_accepted hacc
  have hI1 := hI.1
  have := off.ge
  have := off.lt
  unfold INT_MAX at hts
  have hle : so.val ≤ off.val := by omega
  exact ⟨hle, hI.mono (by omega)⟩

/-- `fdt_next_tag` ends with `FDT_END` and `-FDT_ERR_TRUNCATED` or `-FDT_ERR_BADSTRUCTURE`, or
with `*nextoffset` the end `e`, rounded up to a word, of a span from `startoffset` in the
structure block. -/
theorem fdtNextTag_forward_or_error {so next : CInt} {tag : UInt32}
    (h : fdtNextTag 0 fdt so = .ok (tag, next)) :
    (tag = FDT_END ∧ (next = CInt.ofInt (-FDT_ERR_TRUNCATED) ∨
        next = CInt.ofInt (-FDT_ERR_BADSTRUCTURE))) ∨
      ∃ e : Nat, 0 ≤ so.val ∧ so.val ≤ e ∧ InStruct fdt e ∧ next.val = align4 e := by
  refine (fdtNextTag_zero_cases h).imp_right fun ⟨off, h0, hc, hn⟩ => ?_
  obtain ⟨hle, hI⟩ := closing_check_forward hacc h0 hc
  exact ⟨off.val.toNat, h0, by omega, hI,
    hn ▸ fdtTagalign_val (by omega) (hI.add_three_lt hacc)⟩

theorem fdtNextTag_next_nonneg {so next : CInt} {tag : UInt32}
    (h : fdtNextTag 0 fdt so = .ok (tag, next)) (ht : tag ≠ FDT_END) :
    0 ≤ so.val ∧ 0 ≤ next.val := by
  rcases fdtNextTag_forward_or_error hacc h with ⟨rfl, -⟩ | ⟨e, h0, -, -, hn⟩
  · exact absurd rfl ht
  · exact ⟨h0, by rw [hn]; omega⟩

/-- With no assumptions `fdt_check_*_offset_` returns a negative value only as
`-FDT_ERR_BADOFFSET`. -/
theorem fdtCheckTagOffset__neg {want : UInt32} (hw : want ≠ FDT_END) {offset v : CInt}
    (h : fdtCheckTagOffset_ 0 fdt want offset = .ok v) (hv : v.val < 0) :
    v = CInt.ofInt (-FDT_ERR_BADOFFSET) := by
  by_cases hb : offset.val < 0 ∨ offset.val % 4 ≠ 0
  · rw [fdtCheckTagOffset__of_bad hb] at h
    exact (Except.ok.inj h).symm
  · obtain ⟨⟨tag, next⟩, hn⟩ := fdtNextTag_zero_ok fdt offset
    rw [fdtCheckTagOffset__of_nextTag (by omega) (by omega) hn, Except.ok.injEq] at h
    split_ifs at h with ht
    · subst ht h
      exact absurd (fdtNextTag_next_nonneg hacc hn hw).2 (not_le.mpr hv)
    · exact h.symm

/-- A `return` of `fdt_next_node`'s loop that is negative is one of its error codes, and
`-FDT_ERR_TRUNCATED` only with a depth pointer. -/
theorem fdtNextNodeSwitch_neg {so next : CInt} {tag : UInt32} {depth : Option CInt}
    {r : CInt × Option CInt} (hn : fdtNextTag 0 fdt so = .ok (tag, next))
    (h : fdtNextNodeSwitch so depth tag next = .ret r) (hr : r.1.val < 0) :
    r.1.val ∈ nextNodeErrors ∧ (r.1.val = -FDT_ERR_TRUNCATED → r.2 ≠ none) := by
  rcases fdtNextNodeSwitch_ret_value h with ⟨h1, rfl⟩ | ⟨h1, htr⟩ | h1
  · exact absurd (h1 ▸ (fdtNextTag_next_nonneg hacc hn (by decide)).1) (not_le.mpr hr)
  · rw [h1] at hr ⊢
    rcases fdtNextTag_forward_or_error hacc hn with ⟨-, rfl | rfl⟩ | ⟨e, -, -, -, he⟩
    · exact ⟨by decide, htr⟩
    · exact ⟨by decide, fun h' => absurd h' (by decide)⟩
    · exact absurd (he ▸ Int.natCast_nonneg _) (not_le.mpr hr)
  · rw [h1]
    exact ⟨by decide, fun h' => absurd h' (by decide)⟩

/-- The run lemma of `fdt_next_node`'s loop for its negative returns. -/
theorem doWhile_nextNodeBody_neg (n : Nat) (s : CInt × Option CInt) {r : CInt}
    {d : Option CInt} (h : doWhile (fdtNextNodeBody 0 fdt) n s = .ok (r, d)) (hr : r.val < 0) :
    r.val ∈ nextNodeErrors ∧ (r.val = -FDT_ERR_TRUNCATED → d ≠ none) :=
  doWhile_invariant (fun _ => True) (fun q : CInt × Option CInt => q.1.val < 0 →
      q.1.val ∈ nextNodeErrors ∧ (q.1.val = -FDT_ERR_TRUNCATED → q.2 ≠ none))
    (fun _ _ _ _ => trivial)
    (fun _ _ _ hb => by
      obtain ⟨tag, next, hn, hsw⟩ := fdtNextNodeBody_eq_ok hb
      exact fdtNextNodeSwitch_neg hacc hn hsw)
    n s trivial h hr

theorem fdtNextNode_neg {fuel : Nat} {offset r : CInt} {depth d : Option CInt}
    (h : fdtNextNode 0 fdt fuel offset depth = .ok (r, d)) (hr : r.val < 0) :
    r.val ∈ nextNodeErrors ∧ (r.val = -FDT_ERR_TRUNCATED → d ≠ none) := by
  by_cases h0 : 0 ≤ offset.val
  · obtain ⟨v, hc⟩ : ∃ v, fdtCheckNodeOffset_ 0 fdt offset = .ok v := by
      rcases fdtCheckNodeOffset__cases offset with hc | ⟨v, -, -, -, hc⟩ <;> exact ⟨_, hc⟩
    by_cases hv : 0 ≤ v.val
    · rw [fdtNextNode_of_checkNodeOffset h0 hc hv] at h
      exact doWhile_nextNodeBody_neg hacc fuel _ h hr
    · rw [fdtNextNode_of_checkNodeOffset_neg h0 hc (not_le.mp hv)] at h
      obtain ⟨rfl, -⟩ := Prod.mk.inj (Except.ok.inj h)
      rw [fdtCheckTagOffset__neg hacc (by decide) hc (not_le.mp hv), badOffset_val]
      exact ⟨by decide, fun h' => absurd h' (by decide)⟩
  · rw [fdtNextNode_of_neg (not_le.mp h0)] at h
    exact doWhile_nextNodeBody_neg hacc fuel _ h hr

end

section
variable {m : Nat} {fdt : Blob} {fuel : Nat}

/-- `fdt_first_subnode` returns a negative value only as `-FDT_ERR_NOTFOUND`, whatever
`fdt_next_node` returned. -/
theorem fdtFirstSubnode_neg {offset r : CInt} (h : fdtFirstSubnode m fdt fuel offset = .ok r)
    (hr : r.val < 0) : r = CInt.ofInt (-FDT_ERR_NOTFOUND) := by
  rcases hn : fdtNextNode m fdt fuel offset (some (CInt.ofInt 0)) with e | ⟨o, d⟩
  · simp [fdtFirstSubnode, hn, bind, Except.bind] at h
  · rw [fdtFirstSubnode_of_nextNode hn, Except.ok.injEq] at h
    split_ifs at h with hc
    · exact h.symm
    · exact absurd (h ▸ not_lt.mp (not_or.mp hc).1) (not_le.mpr hr)

/-- The run lemma of `fdt_next_subnode`'s loop: a negative return is `-FDT_ERR_NOTFOUND`. -/
theorem doWhile_nextSubnodeBody_neg (n : Nat) (s : CInt × CInt) {r : CInt}
    (h : doWhile (fdtNextSubnodeBody m fdt fuel) n s = .ok r) (hr : r.val < 0) :
    r = CInt.ofInt (-FDT_ERR_NOTFOUND) :=
  doWhile_invariant (fun _ => True) (fun q : CInt => q.val < 0 → q = CInt.ofInt (-FDT_ERR_NOTFOUND))
    (fun _ _ _ _ => trivial)
    (fun s _ _ hb => by
      rcases hn : fdtNextNode m fdt fuel s.1 (some s.2) with e | ⟨o, d⟩
      · simp [fdtNextSubnodeBody, hn, bind, Except.bind] at hb
      rw [fdtNextSubnodeBody_of_nextNode hn] at hb
      split_ifs at hb with h1 <;> cases hb
      · exact fun _ => rfl
      · exact fun hq => absurd (not_or.mp h1).1 (not_not.mpr hq))
    n s trivial h hr

end

/-- With no assumptions, on a blob that `fdt_check_header` accepts: `fdt_next_tag` ends with
`FDT_END` and `-FDT_ERR_TRUNCATED` or `-FDT_ERR_BADSTRUCTURE`, or with `*nextoffset` the end,
rounded up to a word, of a span from `startoffset` forwards in the structure block; the offset
checks fail only with `-FDT_ERR_BADOFFSET`; a negative value `fdt_next_node` returns is
`-FDT_ERR_NOTFOUND`, `-FDT_ERR_BADOFFSET`, `-FDT_ERR_TRUNCATED` (only with a depth pointer) or
`-FDT_ERR_BADSTRUCTURE`; and the subnode iterators return no error but `-FDT_ERR_NOTFOUND`. -/
theorem traversal_error_codes (fdt : Blob) (hacc : fdtCheckHeader 0 fdt = 0) (fuel : Nat) :
    (∀ so tag next, fdtNextTag 0 fdt so = .ok (tag, next) →
        (tag = FDT_END ∧ (next = CInt.ofInt (-FDT_ERR_TRUNCATED) ∨
          next = CInt.ofInt (-FDT_ERR_BADSTRUCTURE))) ∨
        ∃ e : Nat, 0 ≤ so.val ∧ so.val ≤ e ∧ InStruct fdt e ∧ next.val = align4 e) ∧
      (∀ offset v, fdtCheckNodeOffset_ 0 fdt offset = .ok v → v.val < 0 →
        v = CInt.ofInt (-FDT_ERR_BADOFFSET)) ∧
      (∀ offset v, fdtCheckPropOffset_ 0 fdt offset = .ok v → v.val < 0 →
        v = CInt.ofInt (-FDT_ERR_BADOFFSET)) ∧
      (∀ offset depth r d, fdtNextNode 0 fdt fuel offset depth = .ok (r, d) → r.val < 0 →
        r.val ∈ nextNodeErrors ∧ (r.val = -FDT_ERR_TRUNCATED → d ≠ none)) ∧
      (∀ offset r, fdtFirstSubnode 0 fdt fuel offset = .ok r → r.val < 0 →
        r = CInt.ofInt (-FDT_ERR_NOTFOUND)) ∧
      (∀ offset r, fdtNextSubnode 0 fdt fuel offset = .ok r → r.val < 0 →
        r = CInt.ofInt (-FDT_ERR_NOTFOUND)) :=
  ⟨fun _ _ _ => fdtNextTag_forward_or_error hacc,
    fun _ _ => fdtCheckTagOffset__neg hacc (by decide),
    fun _ _ => fdtCheckTagOffset__neg hacc (by decide), fun _ _ _ _ => fdtNextNode_neg hacc,
    fun _ _ => fdtFirstSubnode_neg, fun _ _ => doWhile_nextSubnodeBody_neg fuel _⟩

/-- At the misaligned offset 3 of `sampleBlob`, `fdt_next_node` returns `-FDT_ERR_BADOFFSET`,
one of its codes, and `fdt_first_subnode` reports it as `-FDT_ERR_NOTFOUND`. -/
theorem traversal_error_codes_misaligned :
    fdtCheckHeader 0 sampleBlob = 0 ∧
      fdtNextNode 0 sampleBlob 7 (CInt.ofInt 3) (some (CInt.ofInt 0)) =
        .ok (CInt.ofInt (-FDT_ERR_BADOFFSET), some (CInt.ofInt 0)) ∧
      (CInt.ofInt (-FDT_ERR_BADOFFSET)).val ∈ nextNodeErrors ∧
      fdtFirstSubnode 0 sampleBlob 7 (CInt.ofInt 3) = .ok (CInt.ofInt (-FDT_ERR_NOTFOUND)) :=
  have h : fdtNextNode 0 sampleBlob 7 (CInt.ofInt 3) (some (CInt.ofInt 0)) =
      .ok (CInt.ofInt (-FDT_ERR_BADOFFSET), some (CInt.ofInt 0)) := by decide
  ⟨sampleBlob_accepted, h,
    ((traversal_error_codes sampleBlob sampleBlob_accepted 7).2.2.2.1 _ _ _ _ h (by decide)).1,
    by decide⟩

end DtbOverlay
