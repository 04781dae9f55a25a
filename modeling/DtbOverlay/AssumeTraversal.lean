import DtbOverlay.Assume
import DtbOverlay.NodeOffset

/-! The traversal under an assumption mask. Each assumption only removes a check, so where the
calls with no assumptions succeed (every pointer `fdt_offset_ptr` hands back is valid, every
record decodes), the same calls under any mask take the same branches and return the same
values, on every blob. The proviso is `ASSUME_LATEST`, which changes what a blob older than
version 17 means: it drops the pre-version-16 value padding and bounds offsets by
`size_dt_struct`. Where a check fails, the masked calls may differ, down to a `NULL`
dereference: that is the risk the integrator takes. -/
namespace DtbOverlay

section
variable {m : Nat} {fdt : Blob}
  (hl : canAssume_ m ASSUME_LATEST = false ∨ 17 ≤ (fdtVersion fdt).toNat)
include hl

theorem fdtOffsetPtr_of_zero {offset : CInt} {len : UInt32} {q : Nat}
    (h : fdtOffsetPtr 0 fdt offset len = some q) : fdtOffsetPtr m fdt offset len = some q :=
  fdtOffsetPtr_mono (fun _ h => by simp at h) (.inr hl) h

theorem fdtSkipName_of_zero {x off : CInt} {q : Nat} (h : fdtSkipName 0 fdt x = (some q, off)) :
    fdtSkipName m fdt x = (some q, off) := by
  induction x using fdtSkipName.induct 0 fdt with
  | case1 x q' hp hq ih =>
    rw [fdtSkipName_of_ne 0 fdt hp hq] at h
    rw [fdtSkipName_of_ne m fdt (fdtOffsetPtr_of_zero hl hp) hq, ih h]
  | case2 x q' hp hq =>
    rw [fdtSkipName_of_nul 0 fdt hp (not_not.mp hq)] at h
    rw [fdtSkipName_of_nul m fdt (fdtOffsetPtr_of_zero hl hp) (not_not.mp hq), h]
  | case3 x hp =>
    rw [fdtSkipName_of_none 0 fdt hp] at h
    cases h

/-- Under `hl` the pre-version-16 padding test does not depend on the mask. -/
theorem legacy_pad_iff {C : Prop} :
    ((!canAssume_ m ASSUME_LATEST) = true ∧ fdtVersion fdt < 0x10 ∧ C) ↔
      (fdtVersion fdt < 0x10 ∧ C) := by
  refine ⟨fun h => h.2, fun h => ⟨?_, h⟩⟩
  rcases hl with hl | hl
  · simp [hl]
  · have : (0x10 : UInt32).toNat = 16 := rfl
    exact absurd (u32_lt_iff.mp h.1) (by omega)

theorem fdtNextTagSwitch_of_zero {tag : UInt32} {x off : CInt}
    (h : fdtNextTagSwitch 0 fdt tag x = .ok (.next off)) :
    fdtNextTagSwitch m fdt tag x = .ok (.next off) := by
  rcases fdtNextTagSwitch_next h with ⟨rfl, q, hq⟩ | ⟨rfl, lenp, hp, hoff⟩ | ⟨ht, rfl⟩
  · simp [fdtNextTagSwitch, fdtSkipName_of_zero hl hq]
  · unfold fdtNextTagSwitch
    rw [if_neg (by decide), if_pos rfl, fdtOffsetPtr_of_zero hl hp]
    dsimp only at hoff ⊢
    rw [hoff, if_congr (legacy_pad_iff hl) rfl rfl]
    split_ifs <;> rfl
  · unfold fdtNextTagSwitch
    rcases ht with rfl | rfl | rfl <;> rw [if_neg (by decide), if_neg (by decide), if_pos (by decide)]

/-- Where `fdt_next_tag` with no assumptions decodes a record (any tag but `FDT_END`, or
`FDT_END` with a non-negative `*nextoffset`), it returns the same under the mask. -/
theorem fdtNextTag_of_zero {so next : CInt} {tag : UInt32}
    (h : fdtNextTag 0 fdt so = .ok (tag, next)) (hok : tag ≠ FDT_END ∨ 0 ≤ next.val) :
    fdtNextTag m fdt so = .ok (tag, next) := by
  unfold fdtNextTag at h ⊢
  rcases hp : fdtOffsetPtr 0 fdt so (UInt32.ofNat FDT_TAGSIZE) with _ | tagp <;>
    simp only [hp, canAssume__zero, Bool.false_eq_true, ↓reduceIte] at h
  · obtain ⟨rfl, rfl⟩ := Prod.mk.inj (Except.ok.inj h)
    exact absurd hok (by decide)
  rw [fdtOffsetPtr_of_zero hl hp]
  dsimp only at h ⊢
  rcases hs : fdtNextTagSwitch 0 fdt (fdt32Ld fdt.byte tagp) (CInt.ofInt (so.val + FDT_TAGSIZE))
    with e | ⟨off⟩ | ⟨r⟩ <;> rw [hs] at h
  · cases h
  · rw [fdtNextTagSwitch_of_zero hl hs]
    dsimp only at h ⊢
    split_ifs at h with hc
    · obtain ⟨rfl, rfl⟩ := Prod.mk.inj (Except.ok.inj h)
      exact absurd hok (by decide)
    · obtain ⟨q, hq⟩ := Option.ne_none_iff_exists'.mp hc
      rw [fdtOffsetPtr_of_zero hl hq, if_neg (by simp)]
      exact h
  · obtain rfl := fdtNextTagSwitch_ret_bad hs
    obtain ⟨rfl, rfl⟩ := Prod.mk.inj (Except.ok.inj h)
    exact absurd hok (by decide)

/-- Where `fdt_check_node_offset_` or `fdt_check_prop_offset_` with no assumptions accepts an
offset, it returns the same under the mask. -/
theorem fdtCheckTagOffset__of_zero {want : UInt32} {offset v : CInt}
    (h : fdtCheckTagOffset_ 0 fdt want offset = .ok v) (hv : 0 ≤ v.val) :
    fdtCheckTagOffset_ m fdt want offset = .ok v := by
  by_cases hb : offset.val < 0 ∨ offset.val % 4 ≠ 0
  · rw [fdtCheckTagOffset__of_bad hb, Except.ok.injEq] at h
    exact absurd (h ▸ hv) (by rw [badOffset_val]; decide)
  obtain ⟨⟨tag, next⟩, hn⟩ := fdtNextTag_zero_ok fdt offset
  rw [fdtCheckTagOffset__of_nextTag (by omega) (by omega) hn, Except.ok.injEq] at h
  split_ifs at h with ht
  · subst h ht
    unfold fdtCheckTagOffset_
    rw [if_neg fun hc => hb (by simpa [FDT_TAGSIZE] using hc.2)]
    simp [fdtNextTag_of_zero hl hn (.inr hv), bind, Except.bind, pure, Except.pure]
  · exact absurd (h ▸ hv) (by rw [badOffset_val]; decide)

/-- The run lemma of `fdt_next_node`'s loop: a run that, with no assumptions, returns a
non-negative offset returns the same under the mask, pass for pass. -/
theorem doWhile_nextNodeBody_of_zero : ∀ (n : Nat) (s : CInt × Option CInt) {r : CInt}
    {d : Option CInt}, doWhile (fdtNextNodeBody 0 fdt) n s = .ok (r, d) → 0 ≤ r.val →
    doWhile (fdtNextNodeBody m fdt) n s = .ok (r, d)
  | 0, _, _, _, h, _ => by cases h
  | n + 1, s, r, d, h, hr => by
    obtain ⟨⟨tag, next⟩, hn⟩ := fdtNextTag_zero_ok fdt s.1
    have hb := fdtNextNodeBody_of_nextTag hn
    have hbody : tag ≠ FDT_END → fdtNextNodeBody m fdt s = fdtNextNodeBody 0 fdt s := fun ht => by
      rw [hb, fdtNextNodeBody_of_nextTag (fdtNextTag_of_zero hl hn (.inl ht))]
    rcases hsw : fdtNextNodeSwitch s.1 s.2 tag next with p | q <;> rw [hsw] at hb
    · rw [doWhile_next hb] at h
      rw [doWhile_next ((hbody (fdtNextNodeSwitch_eq_next hsw).1).trans hb)]
      exact doWhile_nextNodeBody_of_zero n p h hr
    · rw [doWhile_ret hb] at h
      obtain rfl := Except.ok.inj h
      have ht : tag ≠ FDT_END := by
        rcases fdtNextNodeSwitch_eq_ret hsw with ⟨-, rfl⟩ | ⟨-, rfl, -⟩ | hq
        · decide
        · decide
        · exact absurd hr (not_le.mpr hq)
      exact doWhile_ret ((hbody ht).trans hb)

theorem fdtNextNode_of_zero {fuel : Nat} {offset r : CInt} {depth d : Option CInt}
    (h : fdtNextNode 0 fdt fuel offset depth = .ok (r, d)) (hr : 0 ≤ r.val) :
    fdtNextNode m fdt fuel offset depth = .ok (r, d) := by
  by_cases h0 : 0 ≤ offset.val
  · obtain ⟨v, hc⟩ : ∃ v, fdtCheckNodeOffset_ 0 fdt offset = .ok v := by
      rcases fdtCheckNodeOffset__cases offset with hc | ⟨v, -, -, -, hc⟩ <;> exact ⟨_, hc⟩
    by_cases hv : 0 ≤ v.val
    · rw [fdtNextNode_of_checkNodeOffset h0 hc hv] at h
      rw [fdtNextNode_of_checkNodeOffset h0 (fdtCheckTagOffset__of_zero hl hc hv) hv]
      exact doWhile_nextNodeBody_of_zero hl fuel _ h hr
    · rw [fdtNextNode_of_checkNodeOffset_neg h0 hc (not_le.mp hv), Except.ok.injEq,
        Prod.mk.injEq] at h
      exact absurd (h.1 ▸ hr) hv
  · rw [fdtNextNode_of_neg (not_le.mp h0)] at h ⊢
    exact doWhile_nextNodeBody_of_zero hl fuel _ h hr

theorem fdtFirstSubnode_of_zero {fuel : Nat} {offset r : CInt}
    (h : fdtFirstSubnode 0 fdt fuel offset = .ok r) (hr : 0 ≤ r.val) :
    fdtFirstSubnode m fdt fuel offset = .ok r := by
  rcases hn : fdtNextNode 0 fdt fuel offset (some (CInt.ofInt 0)) with e | ⟨o, d⟩
  · simp [fdtFirstSubnode, hn, bind, Except.bind] at h
  rw [fdtFirstSubnode_of_nextNode hn] at h
  split_ifs at h with hc
  · exact absurd ((Except.ok.inj h) ▸ hr) (by rw [notFound_val]; decide)
  · rw [fdtFirstSubnode_of_nextNode (fdtNextNode_of_zero hl hn (by omega)), if_neg hc]
    exact h

/-- The run lemma of `fdt_next_subnode`'s loop, as for `fdt_next_node`'s. -/
theorem doWhile_nextSubnodeBody_of_zero {fuel : Nat} : ∀ (n : Nat) (s : CInt × CInt) {r : CInt},
    doWhile (fdtNextSubnodeBody 0 fdt fuel) n s = .ok r → 0 ≤ r.val →
    doWhile (fdtNextSubnodeBody m fdt fuel) n s = .ok r
  | 0, _, _, h, _ => by cases h
  | n + 1, s, r, h, hr => by
    rcases hn : fdtNextNode 0 fdt fuel s.1 (some s.2) with e | ⟨o, d⟩
    · simp [doWhile, fdtNextSubnodeBody, hn, bind, Except.bind] at h
    have hb := fdtNextSubnodeBody_of_nextNode hn
    have hbody : 0 ≤ o.val →
        fdtNextSubnodeBody m fdt fuel s = fdtNextSubnodeBody 0 fdt fuel s := fun ho => by
      rw [hb, fdtNextSubnodeBody_of_nextNode (fdtNextNode_of_zero hl hn ho)]
    split_ifs at hb with h1 h2
    · rw [doWhile_ret hb] at h
      exact absurd ((Except.ok.inj h) ▸ hr) (by rw [notFound_val]; decide)
    · rw [doWhile_next hb] at h
      rw [doWhile_next ((hbody (by omega)).trans hb)]
      exact doWhile_nextSubnodeBody_of_zero n _ h hr
    · rw [doWhile_ret hb] at h
      rw [doWhile_ret ((hbody (by omega)).trans hb), h]

end

/-- Assumptions only remove checks, also along the traversal: on every blob, and for any mask
that does not assume `ASSUME_LATEST` of a blob older than version 17, wherever the calls with no
assumptions succeed the masked calls return the same. That is `fdt_next_tag` on a record it
decodes, `fdt_check_node_offset_` and `fdt_check_prop_offset_` on an offset they accept, and
`fdt_next_node`, `fdt_first_subnode` and `fdt_next_subnode` wherever they find a node. -/
theorem assumptions_keep_traversal (m : Nat) (fdt : Blob)
    (hl : canAssume_ m ASSUME_LATEST = false ∨ 17 ≤ (fdtVersion fdt).toNat) (fuel : Nat) :
    (∀ so tag next, fdtNextTag 0 fdt so = .ok (tag, next) → (tag ≠ FDT_END ∨ 0 ≤ next.val) →
        fdtNextTag m fdt so = .ok (tag, next)) ∧
      (∀ offset v, fdtCheckNodeOffset_ 0 fdt offset = .ok v → 0 ≤ v.val →
        fdtCheckNodeOffset_ m fdt offset = .ok v) ∧
      (∀ offset v, fdtCheckPropOffset_ 0 fdt offset = .ok v → 0 ≤ v.val →
        fdtCheckPropOffset_ m fdt offset = .ok v) ∧
      (∀ offset depth r d, fdtNextNode 0 fdt fuel offset depth = .ok (r, d) → 0 ≤ r.val →
        fdtNextNode m fdt fuel offset depth = .ok (r, d)) ∧
      (∀ offset r, fdtFirstSubnode 0 fdt fuel offset = .ok r → 0 ≤ r.val →
        fdtFirstSubnode m fdt fuel offset = .ok r) ∧
      (∀ offset r, fdtNextSubnode 0 fdt fuel offset = .ok r → 0 ≤ r.val →
        fdtNextSubnode m fdt fuel offset = .ok r) :=
  ⟨fun _ _ _ => fdtNextTag_of_zero hl, fun _ _ => fdtCheckTagOffset__of_zero hl,
    fun _ _ => fdtCheckTagOffset__of_zero hl, fun _ _ _ _ => fdtNextNode_of_zero hl,
    fun _ _ => fdtFirstSubnode_of_zero hl, fun _ _ => doWhile_nextSubnodeBody_of_zero hl fuel _⟩

/-- With every assumption enabled, `fdt_first_subnode` on the version-17 round-trip example
still finds the root's child at offset 32. -/
theorem assumptions_keep_traversal_perfect :
    (canAssume_ ASSUME_PERFECT ASSUME_LATEST = false ∨ 17 ≤ (fdtVersion sampleBlob).toNat) ∧
      fdtFirstSubnode 0 sampleBlob 7 (CInt.ofInt 0) = .ok (CInt.ofInt 32) ∧
      fdtFirstSubnode ASSUME_PERFECT sampleBlob 7 (CInt.ofInt 0) = .ok (CInt.ofInt 32) :=
  have hl : canAssume_ ASSUME_PERFECT ASSUME_LATEST = false ∨
      17 ≤ (fdtVersion sampleBlob).toNat := .inr (by decide)
  have h : fdtFirstSubnode 0 sampleBlob 7 (CInt.ofInt 0) = .ok (CInt.ofInt 32) :=
    (@fdtSubnodes_of_holds sampleBlob (fdtTotalsize_le_of_accepted sampleBlob_accepted)
      sampleTree 0 [.end_] sampleBlob_holds 7 (by decide)).1.trans (by decide)
  ⟨hl, h, (assumptions_keep_traversal ASSUME_PERFECT sampleBlob hl 7).2.2.2.2.1 _ _ h (by decide)⟩

end DtbOverlay
