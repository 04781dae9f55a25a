import DtbOverlay.NodeOffset

/-! The loops of `fdt_next_node` and `fdt_next_subnode` end on every blob that
`fdt_check_header` accepts and in which every word-aligned word of the structure block that
reads `FDT_PROP` would, read as the start of an `FDT_PROP` record, end in unbounded arithmetic
below `2^31`. The condition covers every such word, a name offset or a word of a property value
as much as a record's tag, since a call may start at any offset. A pass of `fdt_next_node`'s
loop that goes round again moves its offset at least a word forward, a node it returns lies
past the call's start, and every offset stays below `totalsize`; a pass of `fdt_next_subnode`'s
loop moves to a later node. So `totalsize / 4 + 2` passes are enough for every call. Without
the bound a loop can stay at one offset for ever. -/
namespace DtbOverlay

/-- At every word-aligned offset `s` where `fdt_next_tag` can read a tag (the word lies in the
structure block) and that word reads `FDT_PROP`, the record it would start ends, in unbounded
arithmetic, below `2^31`. Every such word counts, whether a walk from offset 0 reaches it as a
tag or not. -/
def PropEndsFit (fdt : Blob) : Prop :=
  ∀ s < (fdtTotalsize fdt).toNat, InStruct fdt (s + 4) → s % 4 = 0 →
    fdt32Ld fdt.byte ((fdtOffDtStruct fdt).toNat + s) = FDT_PROP → propEnd fdt s < 2 ^ 31

instance decPropEndsFit (fdt : Blob) : Decidable (PropEndsFit fdt) :=
  inferInstanceAs (Decidable (∀ s < (fdtTotalsize fdt).toNat,
    ((fdtOffDtStruct fdt).toNat + (s + 4) ≤ (fdtTotalsize fdt).toNat ∧
      (17 ≤ (fdtVersion fdt).toNat → s + 4 ≤ (fdtSizeDtStruct fdt).toNat)) → s % 4 = 0 →
    fdt32Ld fdt.byte ((fdtOffDtStruct fdt).toNat + s) = FDT_PROP → propEnd fdt s < 2 ^ 31))

section
variable {fdt : Blob} (hacc : fdtCheckHeader 0 fdt = 0) (hfit : PropEndsFit fdt)
include hacc hfit

theorem fdtNextTag_advances_of_fit {so next : CInt} {tag : UInt32} (h4 : so.val % 4 = 0)
    (h : fdtNextTag 0 fdt so = .ok (tag, next)) (ht : tag ≠ FDT_END) :
    so.val + 4 ≤ next.val ∧ next.val < (fdtTotalsize fdt).toNat ∧ next.val % 4 = 0 := by
  obtain ⟨-, h0, hI4, htag, -⟩ := fdtNextTag_ne_end_span hacc h ht
  refine fdtNextTag_advances hacc h ht fun hp => hfit _ ?_ hI4 (by omega) (htag.symm.trans hp)
  have := hI4.1
  omega

/-- A pass of `fdt_next_node`'s loop from a word boundary: it leaves with a value that, when
not negative, lies at or past the pass's offset and below `totalsize`, or goes round again a
word or more further on, at a word boundary below `totalsize`. -/
theorem fdtNextNodeBody_step {s : CInt} (d : Option CInt) (h4 : s.val % 4 = 0) :
    (∃ r, fdtNextNodeBody 0 fdt (s, d) = .ok (.ret r) ∧
        (0 ≤ r.1.val → s.val ≤ r.1.val ∧ r.1.val < (fdtTotalsize fdt).toNat)) ∨
      ∃ p, fdtNextNodeBody 0 fdt (s, d) = .ok (.next p) ∧
        s.val + 4 ≤ p.1.val ∧ p.1.val < (fdtTotalsize fdt).toNat ∧ p.1.val % 4 = 0 := by
  obtain ⟨⟨tag, next⟩, hn⟩ := fdtNextTag_zero_ok fdt s
  rw [fdtNextNodeBody_of_nextTag (s := (s, d)) hn]
  rcases hsw : fdtNextNodeSwitch s d tag next with p | r
  · obtain ⟨ht, hp⟩ := fdtNextNodeSwitch_eq_next hsw
    refine .inr ⟨p, rfl, ?_⟩
    rw [hp]
    exact fdtNextTag_advances_of_fit hacc hfit h4 hn ht
  · refine .inl ⟨r, rfl, fun hr => ?_⟩
    rcases fdtNextNodeSwitch_eq_ret hsw with ⟨hr1, ht⟩ | ⟨hr1, ht, -⟩ | hr1
    · obtain ⟨h1, h2, -⟩ := fdtNextTag_advances_of_fit hacc hfit h4 hn (by rw [ht]; decide)
      rw [hr1] at hr ⊢; omega
    · obtain ⟨h1, h2, -⟩ := fdtNextTag_advances_of_fit hacc hfit h4 hn (by rw [ht]; decide)
      rw [hr1] at hr ⊢; omega
    · omega

/-- From a word boundary at or past 0, `fdt_next_node`'s loop returns within one pass per word
left before `totalsize`, with a value that, when not negative, lies at or past its start and
below `totalsize`. -/
theorem doWhile_nextNodeBody_ok : ∀ (n : Nat) (s : CInt) (d : Option CInt), s.val % 4 = 0 →
    0 ≤ s.val → ((fdtTotalsize fdt).toNat - s.val.toNat) / 4 < n →
    ∃ r, doWhile (fdtNextNodeBody 0 fdt) n (s, d) = .ok r ∧
      (0 ≤ r.1.val → s.val ≤ r.1.val ∧ r.1.val < (fdtTotalsize fdt).toNat)
  | 0, _, _, _, _, hn => absurd hn (Nat.not_lt_zero _)
  | n + 1, s, d, h4, h0, hn => by
    rcases fdtNextNodeBody_step hacc hfit d h4 with ⟨r, hb, hr⟩ | ⟨p, hb, h1, h2, h3⟩
    · exact ⟨r, doWhile_ret hb, hr⟩
    · obtain ⟨r, hr, hr'⟩ := doWhile_nextNodeBody_ok n p.1 p.2 h3 (by omega) (by omega)
      refine ⟨r, (doWhile_next hb).trans hr, fun h => ?_⟩
      have := hr' h
      omega

/-- `fdt_check_node_offset_` returns, and an offset it does not reject lies a word or more past
the one it checks, at a word boundary below `totalsize`. -/
theorem fdtCheckNodeOffset__fit (offset : CInt) :
    ∃ v, fdtCheckNodeOffset_ 0 fdt offset = .ok v ∧
      (0 ≤ v.val → offset.val + 4 ≤ v.val ∧ v.val < (fdtTotalsize fdt).toNat ∧ v.val % 4 = 0) := by
  rcases fdtCheckNodeOffset__cases offset with hc | ⟨next, -, h4, hn, hc⟩
  · exact ⟨_, hc, fun h => absurd h (by rw [badOffset_val]; decide)⟩
  · exact ⟨next, hc, fun _ => fdtNextTag_advances_of_fit hacc hfit h4 hn (by decide)⟩

/-- With more than `totalsize / 4` passes `fdt_next_node` returns from every offset, with a
value that, when not negative, lies below `totalsize`, and a word or more past `offset` when
that is not negative. -/
theorem fdtNextNode_ok {fuel : Nat} (hF : (fdtTotalsize fdt).toNat / 4 < fuel) (offset : CInt)
    (depth : Option CInt) :
    ∃ r, fdtNextNode 0 fdt fuel offset depth = .ok r ∧ (0 ≤ r.1.val →
      r.1.val < (fdtTotalsize fdt).toNat ∧ (0 ≤ offset.val → offset.val + 4 ≤ r.1.val)) := by
  by_cases h0 : 0 ≤ offset.val
  · obtain ⟨v, hc, hv⟩ := fdtCheckNodeOffset__fit hacc hfit offset
    by_cases hv0 : 0 ≤ v.val
    · obtain ⟨h1, -, h3⟩ := hv hv0
      obtain ⟨r, hr, hr'⟩ := doWhile_nextNodeBody_ok hacc hfit fuel v depth h3 hv0 (by omega)
      refine ⟨r, (fdtNextNode_of_checkNodeOffset h0 hc hv0).trans hr, fun h => ⟨(hr' h).2, ?_⟩⟩
      have := (hr' h).1
      omega
    · exact ⟨_, fdtNextNode_of_checkNodeOffset_neg h0 hc (not_le.mp hv0), fun h => absurd h hv0⟩
  · have hz : (CInt.ofInt 0).val = 0 := CInt.ofInt_val (by decide) (by decide)
    obtain ⟨r, hr, hr'⟩ :=
      doWhile_nextNodeBody_ok hacc hfit fuel (CInt.ofInt 0) depth (by rw [hz]; rfl) hz.ge
        (by rw [hz]; omega)
    exact ⟨r, (fdtNextNode_of_neg (not_le.mp h0)).trans hr,
      fun h => ⟨(hr' h).2, fun h' => absurd h' h0⟩⟩

/-- `fdt_next_subnode`'s loop returns within one pass per word left before `totalsize`, and one
more from a negative offset: a pass that goes round again has moved to a node a word or more
further on. -/
theorem doWhile_nextSubnodeBody_ok {fuel : Nat} (hF : (fdtTotalsize fdt).toNat / 4 < fuel) :
    ∀ (n : Nat) (s : CInt × CInt), ((fdtTotalsize fdt).toNat - s.1.val.toNat) / 4 < n →
      (s.1.val < 0 → (fdtTotalsize fdt).toNat / 4 + 1 < n) →
      ∃ r, doWhile (fdtNextSubnodeBody 0 fdt fuel) n s = .ok r
  | 0, _, hn, _ => absurd hn (Nat.not_lt_zero _)
  | n + 1, s, hn, hneg => by
    obtain ⟨⟨o, d⟩, hnn, ho⟩ := fdtNextNode_ok hacc hfit hF s.1 (some s.2)
    dsimp only at ho
    rw [doWhile, fdtNextSubnodeBody_of_nextNode hnn]
    split_ifs with h1 h2
    · exact ⟨_, rfl⟩
    · obtain ⟨ho1, ho2⟩ := ho (by omega)
      refine doWhile_nextSubnodeBody_ok hF n (o, d.getD s.2)
        (show ((fdtTotalsize fdt).toNat - o.val.toNat) / 4 < n from ?_)
        (show o.val < 0 → _ from fun h => absurd h (by omega))
      omega
    · exact ⟨_, rfl⟩

end

/-- On a blob that `fdt_check_header` accepts and that meets `PropEndsFit`, `fdt_next_node`,
`fdt_first_subnode` and `fdt_next_subnode` return from every offset and depth within
`totalsize / 4 + 2` passes of their loops. -/
theorem fdtNextNode_terminates (fdt : Blob) (hacc : fdtCheckHeader 0 fdt = 0)
    (hfit : PropEndsFit fdt) (F : Nat) (hF : (fdtTotalsize fdt).toNat / 4 + 2 ≤ F) :
    (∀ offset depth, ∃ r, fdtNextNode 0 fdt F offset depth = .ok r) ∧
      (∀ offset, ∃ r, fdtFirstSubnode 0 fdt F offset = .ok r) ∧
      (∀ offset, ∃ r, fdtNextSubnode 0 fdt F offset = .ok r) := by
  have hF' : (fdtTotalsize fdt).toNat / 4 < F := by omega
  refine ⟨fun offset depth => (fdtNextNode_ok hacc hfit hF' offset depth).imp fun _ h => h.1,
    fun offset => ?_, fun offset => doWhile_nextSubnodeBody_ok hacc hfit hF' F _ (by omega)
      fun _ => by omega⟩
  obtain ⟨⟨o, d⟩, h, -⟩ := fdtNextNode_ok hacc hfit hF' offset (some (CInt.ofInt 0))
  exact ⟨_, fdtFirstSubnode_of_nextNode h⟩

/-- The blob of the round-trip example meets both conditions, and every traversal call on it
returns within 25 passes. -/
theorem fdtNextNode_terminates_sampleBlob :
    fdtCheckHeader 0 sampleBlob = 0 ∧ PropEndsFit sampleBlob ∧
      (fdtTotalsize sampleBlob).toNat / 4 + 2 ≤ 25 ∧
      (∀ offset depth, ∃ r, fdtNextNode 0 sampleBlob 25 offset depth = .ok r) ∧
      (∀ offset, ∃ r, fdtFirstSubnode 0 sampleBlob 25 offset = .ok r) ∧
      (∀ offset, ∃ r, fdtNextSubnode 0 sampleBlob 25 offset = .ok r) :=
  have hfit : PropEndsFit sampleBlob := by decide
  ⟨sampleBlob_accepted, hfit, by decide,
    fdtNextNode_terminates sampleBlob sampleBlob_accepted hfit 25 (by decide)⟩

end DtbOverlay
