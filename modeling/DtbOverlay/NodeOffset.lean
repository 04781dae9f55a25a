import DtbOverlay.Progress
import DtbOverlay.Subnode

/-! What the traversal hands back, on every blob and with no assumptions: a non-negative
offset that `fdt_next_node`, `fdt_first_subnode` or `fdt_next_subnode` returns is the offset
of an `FDT_BEGIN_NODE` record that `fdt_check_node_offset_` accepts, so it can be passed back
to them. The one exception is `fdt_next_node`'s return past an `FDT_END_NODE` that takes the
depth below 0. The check needs the offset at a word boundary: every pass of `fdt_next_node`'s
loop starts at one, as `fdt_next_tag` rounds `*nextoffset` up to a word. Under any mask, the
depth counter `fdt_next_node` hands back stays within one of where it started. -/
namespace DtbOverlay

/-- `offset` is a node offset: `fdt_next_tag` reads `FDT_BEGIN_NODE` there, and
`fdt_check_node_offset_` accepts it, returning the offset past the node's name. -/
def NodeAt (fdt : Blob) (offset : CInt) : Prop :=
  match fdtNextTag 0 fdt offset with
  | .ok (tag, next) => tag = FDT_BEGIN_NODE ∧ fdtCheckNodeOffset_ 0 fdt offset = .ok next
  | .error _ => False

instance decNodeAt (fdt : Blob) (offset : CInt) : Decidable (NodeAt fdt offset) := by
  unfold NodeAt
  split <;> infer_instance

section
variable {fdt : Blob}

/-- With no assumptions, `fdt_check_node_offset_` rejects with `-FDT_ERR_BADOFFSET`, or
accepts a word-aligned `FDT_BEGIN_NODE` record and returns the offset after it. -/
theorem fdtCheckNodeOffset__cases (offset : CInt) :
    fdtCheckNodeOffset_ 0 fdt offset = .ok (CInt.ofInt (-FDT_ERR_BADOFFSET)) ∨
      ∃ next, 0 ≤ offset.val ∧ offset.val % 4 = 0 ∧
        fdtNextTag 0 fdt offset = .ok (FDT_BEGIN_NODE, next) ∧
        fdtCheckNodeOffset_ 0 fdt offset = .ok next := by
  unfold fdtCheckNodeOffset_
  by_cases h : offset.val < 0 ∨ offset.val % 4 ≠ 0
  · exact .inl (fdtCheckTagOffset__of_bad h)
  · obtain ⟨⟨tag, next⟩, hn⟩ := fdtNextTag_zero_ok fdt offset
    rw [fdtCheckTagOffset__of_nextTag (by omega) (by omega) hn]
    split_ifs with ht
    · subst ht
      exact .inr ⟨next, by omega, by omega, hn, rfl⟩
    · exact .inl rfl

theorem nodeAt_of_nextTag {r next : CInt} (h0 : 0 ≤ r.val) (h4 : r.val % 4 = 0)
    (h : fdtNextTag 0 fdt r = .ok (FDT_BEGIN_NODE, next)) : NodeAt fdt r := by
  simp only [NodeAt, h, true_and]
  exact fdtCheckNodeOffset__of_nextTag h0 h4 h

/-- The run lemma of `fdt_next_node`'s loop: from a word boundary, a non-negative offset it
returns is a node offset, unless it leaves past an `FDT_END_NODE` with the depth below 0. -/
theorem doWhile_nextNodeBody_node (n : Nat) (s : CInt × Option CInt) {r : CInt}
    {d : Option CInt} (h4 : s.1.val % 4 = 0) (h : doWhile (fdtNextNodeBody 0 fdt) n s = .ok (r, d))
    (hr : 0 ≤ r.val) : NodeAt fdt r ∨ ∃ k, d = some k ∧ k.val < 0 :=
  doWhile_invariant (fun s : CInt × Option CInt => s.1.val % 4 = 0)
    (fun q : CInt × Option CInt => 0 ≤ q.1.val → NodeAt fdt q.1 ∨ ∃ k, q.2 = some k ∧ k.val < 0)
    (fun _ p _ hb => by
      obtain ⟨tag, next, hn, hsw⟩ := fdtNextNodeBody_eq_ok hb
      obtain ⟨ht, hp⟩ := fdtNextNodeSwitch_eq_next hsw
      exact hp ▸ fdtNextTag_next_mod_four hn ht)
    (fun s q h4 hb hq => by
      obtain ⟨tag, next, hn, hsw⟩ := fdtNextNodeBody_eq_ok hb
      rcases fdtNextNodeSwitch_eq_ret hsw with ⟨he, rfl⟩ | ⟨-, -, hd⟩ | hneg
      · exact .inl (he ▸ nodeAt_of_nextTag (he ▸ hq) h4 hn)
      · exact .inr hd
      · exact absurd hq (not_le.mpr hneg))
    n s h4 h hr

theorem fdtNextNode_node {fuel : Nat} {offset r : CInt} {depth d : Option CInt}
    (h : fdtNextNode 0 fdt fuel offset depth = .ok (r, d)) (hr : 0 ≤ r.val) :
    NodeAt fdt r ∨ ∃ k, d = some k ∧ k.val < 0 := by
  by_cases h0 : 0 ≤ offset.val
  · have hbad : ¬0 ≤ (CInt.ofInt (-FDT_ERR_BADOFFSET)).val := by rw [badOffset_val]; decide
    rcases fdtCheckNodeOffset__cases offset with hc | ⟨v, -, -, hn, hc⟩
    · rw [fdtNextNode_of_checkNodeOffset_neg h0 hc (not_le.mp hbad), Except.ok.injEq,
        Prod.mk.injEq] at h
      exact absurd (h.1 ▸ hr) hbad
    · by_cases hv : 0 ≤ v.val
      · rw [fdtNextNode_of_checkNodeOffset h0 hc hv] at h
        exact doWhile_nextNodeBody_node fuel (v, depth)
          (fdtNextTag_next_mod_four hn (by decide)) h hr
      · rw [fdtNextNode_of_checkNodeOffset_neg h0 hc (not_le.mp hv), Except.ok.injEq,
          Prod.mk.injEq] at h
        exact absurd (h.1 ▸ hr) hv
  · rw [fdtNextNode_of_neg (not_le.mp h0)] at h
    exact doWhile_nextNodeBody_node fuel _ (show (CInt.ofInt 0).val % 4 = 0 by decide) h hr

theorem fdtFirstSubnode_node {fuel : Nat} {offset r : CInt}
    (h : fdtFirstSubnode 0 fdt fuel offset = .ok r) (hr : 0 ≤ r.val) : NodeAt fdt r := by
  rcases hn : fdtNextNode 0 fdt fuel offset (some (CInt.ofInt 0)) with e | ⟨o, d⟩
  · simp [fdtFirstSubnode, hn, bind, Except.bind] at h
  · rw [fdtFirstSubnode_of_nextNode hn, Except.ok.injEq] at h
    split_ifs at h with hc
    · subst h
      exact absurd hr (by rw [notFound_val]; decide)
    · push_neg at hc
      obtain ⟨ho, hd⟩ := hc
      subst h hd
      rcases fdtNextNode_node hn ho with hnode | ⟨k, hk, hk0⟩
      · exact hnode
      · obtain rfl := Option.some.inj hk
        exact absurd hk0 (by decide)

/-- The run lemma of `fdt_next_subnode`'s loop: a non-negative offset it returns is a node
offset. -/
theorem doWhile_nextSubnodeBody_node {fuel : Nat} (n : Nat) (s : CInt × CInt) {r : CInt}
    (h : doWhile (fdtNextSubnodeBody 0 fdt fuel) n s = .ok r) (hr : 0 ≤ r.val) : NodeAt fdt r :=
  doWhile_invariant (fun _ => True) (fun q : CInt => 0 ≤ q.val → NodeAt fdt q)
    (fun _ _ _ _ => trivial)
    (fun s _ _ hb hq => by
      rcases hn : fdtNextNode 0 fdt fuel s.1 (some s.2) with e | ⟨o, d⟩
      · simp [fdtNextSubnodeBody, hn, bind, Except.bind] at hb
      rw [fdtNextSubnodeBody_of_nextNode hn] at hb
      split_ifs at hb with h1 <;> cases hb
      · exact absurd hq (by rw [notFound_val]; decide)
      · rcases fdtNextNode_node hn hq with hnode | ⟨k, rfl, hk0⟩
        · exact hnode
        · rw [Option.getD_some] at h1
          omega)
    n s trivial h hr

end

section
variable {m : Nat} {fdt : Blob}

/-- The `switch` of `fdt_next_node` with `*depth = c`, `0 ≤ c < INT_MAX`: it goes round again
with a depth between 0 and `c`, or leaves with one between `-1` and `c + 1`. -/
theorem fdtNextNodeSwitch_depth {offset next c : CInt} {tag : UInt32} (hc : 0 ≤ c.val)
    (hc' : c.val < INT_MAX) :
    (∀ p, fdtNextNodeSwitch offset (some c) tag next = .next p →
      ∃ c', p.2 = some c' ∧ 0 ≤ c'.val ∧ c'.val ≤ c.val) ∧
    (∀ q, fdtNextNodeSwitch offset (some c) tag next = .ret q →
      ∃ d', q.2 = some d' ∧ -1 ≤ d'.val ∧ d'.val ≤ c.val + 1) := by
  have hdec : (CInt.ofInt (c.val - 1)).val = c.val - 1 :=
    CInt.ofInt_val (by omega) (by have := c.lt; omega)
  have hinc : (CInt.ofInt (c.val + 1)).val = c.val + 1 :=
    CInt.ofInt_val (by omega) (by unfold INT_MAX at hc'; omega)
  by_cases h1 : tag = FDT_PROP ∨ tag = FDT_NOP
  · rw [fdtNextNodeSwitch_skip h1]
    exact ⟨fun p hp => ⟨c, (by cases hp; rfl), hc, le_rfl⟩, fun q hq => (by cases hq)⟩
  by_cases h2 : tag = FDT_BEGIN_NODE
  · subst h2
    rw [fdtNextNodeSwitch_beginNode]
    exact ⟨fun p hp => (by cases hp),
      fun q hq => ⟨CInt.ofInt (c.val + 1), (by cases hq; rfl), by omega, by omega⟩⟩
  by_cases h3 : tag = FDT_END_NODE
  · subst h3
    rw [fdtNextNodeSwitch_endNode]
    dsimp only
    split_ifs with hneg
    · exact ⟨fun p hp => (by cases hp), fun q hq => ⟨_, (by cases hq; rfl), by omega, by omega⟩⟩
    · exact ⟨fun p hp => ⟨_, (by cases hp; rfl), by omega, by omega⟩, fun q hq => (by cases hq)⟩
  unfold fdtNextNodeSwitch
  rw [if_neg h1, if_neg h2, if_neg h3]
  split_ifs
  · exact ⟨fun p hp => (by cases hp), fun q hq => ⟨c, (by cases hq; rfl), by omega, by omega⟩⟩
  · exact ⟨fun p hp => (by cases hp), fun q hq => ⟨c, (by cases hq; rfl), by omega, by omega⟩⟩
  · exact ⟨fun p hp => ⟨c, (by cases hp; rfl), hc, le_rfl⟩, fun q hq => (by cases hq)⟩

/-- The depth counter of `fdt_next_node`, under any mask and on any blob, whatever the block
holds: from `*depth = d` with `0 ≤ d < INT_MAX`, a call that returns leaves `*depth` between
`-1` and `d + 1`. The counter never wraps, and it goes below 0 only as `-1`, the signal that the
walk has left the subtree it started in. -/
theorem fdtNextNode_depth_bounds {fuel : Nat} {offset r d : CInt} {dd : Option CInt}
    (hd : 0 ≤ d.val) (hd' : d.val < INT_MAX)
    (h : fdtNextNode m fdt fuel offset (some d) = .ok (r, dd)) :
    ∃ d', dd = some d' ∧ -1 ≤ d'.val ∧ d'.val ≤ d.val + 1 := by
  let I : CInt × Option CInt → Prop := fun s => ∃ c, s.2 = some c ∧ 0 ≤ c.val ∧ c.val ≤ d.val
  have run : ∀ s, I s → doWhile (fdtNextNodeBody m fdt) fuel s = .ok (r, dd) →
      ∃ d', dd = some d' ∧ -1 ≤ d'.val ∧ d'.val ≤ d.val + 1 := fun s hs hrun =>
    doWhile_invariant I (fun q => ∃ d', q.2 = some d' ∧ -1 ≤ d'.val ∧ d'.val ≤ d.val + 1)
      (fun s p ⟨c, hc, h0, hcd⟩ hb => by
        obtain ⟨tag, next, -, hsw⟩ := fdtNextNodeBody_eq_ok hb
        rw [hc] at hsw
        obtain ⟨c', hp, h0', hc'⟩ := (fdtNextNodeSwitch_depth h0 (by omega)).1 p hsw
        exact ⟨c', hp, h0', by omega⟩)
      (fun s q ⟨c, hc, h0, hcd⟩ hb => by
        obtain ⟨tag, next, -, hsw⟩ := fdtNextNodeBody_eq_ok hb
        rw [hc] at hsw
        obtain ⟨d', hq, h1, h2⟩ := (fdtNextNodeSwitch_depth h0 (by omega)).2 q hsw
        exact ⟨d', hq, h1, by omega⟩)
      fuel s hs hrun
  have hI : I (CInt.ofInt 0, some d) := ⟨d, rfl, hd, le_rfl⟩
  by_cases h0 : 0 ≤ offset.val
  · rcases hc : fdtCheckNodeOffset_ m fdt offset with e | v
    · simp [fdtNextNode, h0, hc, bind, Except.bind] at h
    by_cases hv : 0 ≤ v.val
    · rw [fdtNextNode_of_checkNodeOffset h0 hc hv] at h
      exact run _ ⟨d, rfl, hd, le_rfl⟩ h
    · rw [fdtNextNode_of_checkNodeOffset_neg h0 hc (not_le.mp hv)] at h
      obtain ⟨-, rfl⟩ := Prod.mk.inj (Except.ok.inj h)
      exact ⟨d, rfl, by omega, by omega⟩
  · rw [fdtNextNode_of_neg (not_le.mp h0)] at h
    exact run _ hI h

end

/-- On `sampleBlob`, from the root at depth 0 the call returns the child "a" at depth 1, the
upper bound, and from "a" at depth 1 it leaves the subtree at depth -1, the lower bound. -/
theorem fdtNextNode_depth_bounds_sampleBlob :
    (0 ≤ (CInt.ofInt 0).val ∧ (CInt.ofInt 0).val < INT_MAX ∧
      fdtNextNode 0 sampleBlob 7 (CInt.ofInt 0) (some (CInt.ofInt 0)) =
        .ok (CInt.ofInt 32, some (CInt.ofInt 1)) ∧
      ∃ d', some (CInt.ofInt 1) = some d' ∧ -1 ≤ d'.val ∧
        d'.val ≤ (CInt.ofInt 0).val + 1) ∧
    (0 ≤ (CInt.ofInt 1).val ∧ (CInt.ofInt 1).val < INT_MAX ∧
      fdtNextNode 0 sampleBlob 7 (CInt.ofInt 32) (some (CInt.ofInt 1)) =
        .ok (CInt.ofInt 48, some (CInt.ofInt (-1))) ∧
      ∃ d', some (CInt.ofInt (-1)) = some d' ∧ -1 ≤ d'.val ∧
        d'.val ≤ (CInt.ofInt 1).val + 1) := by
  have hh : Holds sampleBlob 0 (sampleTree.body ++ [.end_]) := sampleBlob_holds
  have hw := fdtNextNode_descendants (by decide) hh 7 (by decide)
  have hl : (sampleTree.nodesAt (legacy sampleBlob) 0 0).map (nodeEntry true) ++
      [(CInt.ofInt (endOffset (legacy sampleBlob) 0 sampleTree.body), some (CInt.ofInt (-1)))] =
      [(CInt.ofInt 0, some (CInt.ofInt 0)), (CInt.ofInt 32, some (CInt.ofInt 1)),
        (CInt.ofInt 48, some (CInt.ofInt (-1)))] := by decide
  rw [hl, List.chain'_cons, List.chain'_cons] at hw
  exact ⟨⟨by decide, by decide, hw.1, fdtNextNode_depth_bounds (by decide) (by decide) hw.1⟩,
    ⟨by decide, by decide, hw.2.1, fdtNextNode_depth_bounds (by decide) (by decide) hw.2.1⟩⟩

/-- With no assumptions, on every blob and for any number of passes, a non-negative offset that
`fdt_next_node` returns is a node offset unless the depth it returns is below 0, and one that
`fdt_first_subnode` or `fdt_next_subnode` returns is a node offset. -/
theorem traversal_returns_nodes (fdt : Blob) (fuel : Nat) :
    (∀ offset depth r d, fdtNextNode 0 fdt fuel offset depth = .ok (r, d) → 0 ≤ r.val →
        NodeAt fdt r ∨ ∃ k, d = some k ∧ k.val < 0) ∧
      (∀ offset r, fdtFirstSubnode 0 fdt fuel offset = .ok r → 0 ≤ r.val → NodeAt fdt r) ∧
      (∀ offset r, fdtNextSubnode 0 fdt fuel offset = .ok r → 0 ≤ r.val → NodeAt fdt r) :=
  ⟨fun _ _ _ _ => fdtNextNode_node, fun _ _ => fdtFirstSubnode_node,
    fun _ _ => doWhile_nextSubnodeBody_node fuel _⟩

/-- On the round-trip example, `fdt_first_subnode` from the root returns the child at offset
32, a node offset. -/
theorem traversal_returns_nodes_sampleBlob :
    fdtFirstSubnode 0 sampleBlob 7 (CInt.ofInt 0) = .ok (CInt.ofInt 32) ∧
      NodeAt sampleBlob (CInt.ofInt 32) :=
  have h : fdtFirstSubnode 0 sampleBlob 7 (CInt.ofInt 0) = .ok (CInt.ofInt 32) :=
    (@fdtSubnodes_of_holds sampleBlob (fdtTotalsize_le_of_accepted sampleBlob_accepted)
      sampleTree 0 [.end_] sampleBlob_holds 7 (by decide)).1.trans (by decide)
  ⟨h, (traversal_returns_nodes sampleBlob 7).2.1 _ _ h (by decide)⟩

end DtbOverlay
