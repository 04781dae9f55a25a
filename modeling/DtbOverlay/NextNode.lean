import DtbOverlay.NextTag

/-! Tree traversal on top of `fdt_next_tag` (part_000, lines 459-549, commented out in the file
as it stands): `fdt_check_node_offset_`, `fdt_check_prop_offset_`, `fdt_next_node` and the
subnode iterators. Their `do { } while` loops are run for at most `fuel` passes. -/
namespace DtbOverlay

/-- `do { body } while (...)` for at most `fuel` passes: a pass goes round again with a new
state or leaves the function with its result. -/
def doWhile {σ α : Type} (body : σ → Except Fault (Flow σ α)) : Nat → σ → Except Fault α
  | 0, _ => .error .outOfFuel
  | n + 1, s =>
    match body s with
    | .error e => .error e
    | .ok (.next s') => doWhile body n s'
    | .ok (.ret a) => .ok a

section
variable {σ α : Type} {body : σ → Except Fault (Flow σ α)}

@[simp] theorem doWhile_zero (s : σ) : doWhile body 0 s = .error .outOfFuel := rfl

theorem doWhile_next {n : Nat} {s s' : σ} (h : body s = .ok (.next s')) :
    doWhile body (n + 1) s = doWhile body n s' := by
  simp [doWhile, h]

theorem doWhile_ret {n : Nat} {s : σ} {a : α} (h : body s = .ok (.ret a)) :
    doWhile body (n + 1) s = .ok a := by
  simp [doWhile, h]

/-- A loop whose body maps a state to itself never leaves it. -/
theorem doWhile_fixpoint {s : σ} (h : body s = .ok (.next s)) (n : Nat) :
    doWhile body n s = .error .outOfFuel := by
  induction n with
  | zero => rfl
  | succ n ih => rw [doWhile_next h, ih]

/-- The loop-invariant rule of `doWhile`: when each pass from a state satisfying `I` goes round
again with a state satisfying `I` or leaves with a value satisfying `Q`, a value that a run from
a state satisfying `I` returns satisfies `Q`. -/
theorem doWhile_invariant (I : σ → Prop) (Q : α → Prop)
    (hnext : ∀ s s', I s → body s = .ok (.next s') → I s')
    (hret : ∀ s a, I s → body s = .ok (.ret a) → Q a) :
    ∀ (n : Nat) (s : σ) {a : α}, I s → doWhile body n s = .ok a → Q a
  | 0, _, _, _, h => by cases h
  | n + 1, s, a, hs, h => by
    rcases hb : body s with e | s' | a'
    · simp [doWhile, hb] at h
    · rw [doWhile_next hb] at h
      exact doWhile_invariant I Q hnext hret n s' (hnext s s' hs hb) h
    · rw [doWhile_ret hb, Except.ok.injEq] at h
      exact h ▸ hret s a' hs hb

end

section
variable (FDT_ASSUME_MASK : Nat) (fdt : Blob)

/-- The body shared by `fdt_check_node_offset_` and `fdt_check_prop_offset_`, which differ
only in the tag `want` they accept: the offset after the `want` record at `offset`. -/
def fdtCheckTagOffset_ (want : UInt32) (offset : CInt) : Except Fault CInt :=
  if !canAssume_ FDT_ASSUME_MASK ASSUME_VALID_INPUT ∧
      (offset.val < 0 ∨ offset.val % FDT_TAGSIZE ≠ 0) then .ok (CInt.ofInt (-FDT_ERR_BADOFFSET))
  else do
    let (tag, offset) ← fdtNextTag FDT_ASSUME_MASK fdt offset
    if tag ≠ want then return CInt.ofInt (-FDT_ERR_BADOFFSET)
    return offset

/-- `fdt_check_node_offset_`: the offset after the `FDT_BEGIN_NODE` record at `offset`. -/
def fdtCheckNodeOffset_ (offset : CInt) : Except Fault CInt :=
  fdtCheckTagOffset_ FDT_ASSUME_MASK fdt FDT_BEGIN_NODE offset

/-- `fdt_check_prop_offset_`: the offset after the `FDT_PROP` record at `offset`. -/
def fdtCheckPropOffset_ (offset : CInt) : Except Fault CInt :=
  fdtCheckTagOffset_ FDT_ASSUME_MASK fdt FDT_PROP offset

/-- The `switch (tag)` in the loop of `fdt_next_node`, once `fdt_next_tag` has returned `tag`
and `nextoffset` for the record at `offset`: go round again, or leave with the value returned
and the final `*depth` (`none` for a `NULL` depth pointer). -/
def fdtNextNodeSwitch (offset : CInt) (depth : Option CInt) (tag : UInt32) (nextoffset : CInt) :
    Flow (CInt × Option CInt) (CInt × Option CInt) :=
  if tag = FDT_PROP ∨ tag = FDT_NOP then .next (nextoffset, depth)
  else if tag = FDT_BEGIN_NODE then .ret (offset, depth.map fun d => CInt.ofInt (d.val + 1))
  else if tag = FDT_END_NODE then
    match depth with
    | some d =>
      let d := CInt.ofInt (d.val - 1)
      if d.val < 0 then .ret (nextoffset, some d) else .next (nextoffset, some d)
    | none => .next (nextoffset, none)
  else if tag = FDT_END then
    if nextoffset.val ≥ 0 ∨ (nextoffset.val = -FDT_ERR_TRUNCATED ∧ depth = none) then
      .ret (CInt.ofInt (-FDT_ERR_NOTFOUND), depth)
    else .ret (nextoffset, depth)
  else .next (nextoffset, depth)

/-- One pass of the loop of `fdt_next_node` on `(nextoffset, *depth)`. -/
def fdtNextNodeBody (s : CInt × Option CInt) :
    Except Fault (Flow (CInt × Option CInt) (CInt × Option CInt)) := do
  let (tag, nextoffset) ← fdtNextTag FDT_ASSUME_MASK fdt s.1
  return fdtNextNodeSwitch s.1 s.2 tag nextoffset

section
variable {FDT_ASSUME_MASK : Nat} {fdt : Blob}

theorem fdtNextNodeBody_of_nextTag {s : CInt × Option CInt} {tag : UInt32} {next : CInt}
    (h : fdtNextTag FDT_ASSUME_MASK fdt s.1 = .ok (tag, next)) :
    fdtNextNodeBody FDT_ASSUME_MASK fdt s = .ok (fdtNextNodeSwitch s.1 s.2 tag next) := by
  simp [fdtNextNodeBody, h, bind, Except.bind, pure, Except.pure]

end

/-- A pass of the loop of `fdt_next_node` that does not fault has called `fdt_next_tag` and
run the `switch` on what it returned. -/
theorem fdtNextNodeBody_eq_ok {FDT_ASSUME_MASK : Nat} {fdt : Blob} {s : CInt × Option CInt}
    {f : Flow (CInt × Option CInt) (CInt × Option CInt)}
    (h : fdtNextNodeBody FDT_ASSUME_MASK fdt s = .ok f) :
    ∃ tag next, fdtNextTag FDT_ASSUME_MASK fdt s.1 = .ok (tag, next) ∧
      fdtNextNodeSwitch s.1 s.2 tag next = f := by
  rcases hn : fdtNextTag FDT_ASSUME_MASK fdt s.1 with e | ⟨tag, next⟩
  · simp [fdtNextNodeBody, hn, bind, Except.bind] at h
  · rw [fdtNextNodeBody_of_nextTag hn] at h
    exact ⟨tag, next, rfl, Except.ok.inj h⟩

theorem fdtNextNodeSwitch_skip {offset next : CInt} {depth : Option CInt} {tag : UInt32}
    (h : tag = FDT_PROP ∨ tag = FDT_NOP) :
    fdtNextNodeSwitch offset depth tag next = .next (next, depth) := by
  unfold fdtNextNodeSwitch
  rw [if_pos h]

theorem fdtNextNodeSwitch_beginNode (offset next : CInt) (depth : Option CInt) :
    fdtNextNodeSwitch offset depth FDT_BEGIN_NODE next =
      .ret (offset, depth.map fun d => CInt.ofInt (d.val + 1)) := by
  unfold fdtNextNodeSwitch
  rw [if_neg (by decide), if_pos rfl]

theorem fdtNextNodeSwitch_endNode (offset next : CInt) (depth : Option CInt) :
    fdtNextNodeSwitch offset depth FDT_END_NODE next =
      match depth with
      | some d => if (CInt.ofInt (d.val - 1)).val < 0 then .ret (next, some (CInt.ofInt (d.val - 1)))
        else .next (next, some (CInt.ofInt (d.val - 1)))
      | none => .next (next, none) := by
  unfold fdtNextNodeSwitch
  rw [if_neg (by decide), if_neg (by decide), if_pos rfl]

theorem fdtNextNodeSwitch_end {offset next : CInt} (depth : Option CInt) (h : 0 ≤ next.val) :
    fdtNextNodeSwitch offset depth FDT_END next = .ret (CInt.ofInt (-FDT_ERR_NOTFOUND), depth) := by
  unfold fdtNextNodeSwitch
  rw [if_neg (by decide), if_neg (by decide), if_neg (by decide), if_pos rfl,
    if_pos (Or.inl h)]

/-- `fdt_next_node(fdt, offset, depth)`: the value returned and the final `*depth`. -/
def fdtNextNode (fuel : Nat) (offset : CInt) (depth : Option CInt) :
    Except Fault (CInt × Option CInt) :=
  if offset.val ≥ 0 then do
    let nextoffset ← fdtCheckNodeOffset_ FDT_ASSUME_MASK fdt offset
    if nextoffset.val < 0 then return (nextoffset, depth)
    doWhile (fdtNextNodeBody FDT_ASSUME_MASK fdt) fuel (nextoffset, depth)
  else doWhile (fdtNextNodeBody FDT_ASSUME_MASK fdt) fuel (CInt.ofInt 0, depth)

/-- `fdt_first_subnode`. -/
def fdtFirstSubnode (fuel : Nat) (offset : CInt) : Except Fault CInt := do
  let (offset, depth) ← fdtNextNode FDT_ASSUME_MASK fdt fuel offset (some (CInt.ofInt 0))
  if offset.val < 0 ∨ depth ≠ some (CInt.ofInt 1) then return CInt.ofInt (-FDT_ERR_NOTFOUND)
  return offset

/-- One pass of the loop of `fdt_next_subnode` on `(offset, depth)`. -/
def fdtNextSubnodeBody (fuel : Nat) (s : CInt × CInt) : Except Fault (Flow (CInt × CInt) CInt) := do
  let (offset, depth) := s
  let (offset, d) ← fdtNextNode FDT_ASSUME_MASK fdt fuel offset (some depth)
  let depth := d.getD depth
  if offset.val < 0 ∨ depth.val < 1 then return .ret (CInt.ofInt (-FDT_ERR_NOTFOUND))
  if depth.val > 1 then return .next (offset, depth)
  return .ret offset

/-- `fdt_next_subnode`. -/
def fdtNextSubnode (fuel : Nat) (offset : CInt) : Except Fault CInt :=
  doWhile (fdtNextSubnodeBody FDT_ASSUME_MASK fdt fuel) fuel (offset, CInt.ofInt 1)

end

section
variable {fdt : Blob} {fuel : Nat} {offset next : CInt} {depth : Option CInt}

/-- With no assumptions, `fdt_check_*_offset_` rejects a negative or misaligned offset. -/
theorem fdtCheckTagOffset__of_bad {want : UInt32} (h : offset.val < 0 ∨ offset.val % 4 ≠ 0) :
    fdtCheckTagOffset_ 0 fdt want offset = .ok (CInt.ofInt (-FDT_ERR_BADOFFSET)) := by
  unfold fdtCheckTagOffset_
  rw [if_pos ⟨by rw [canAssume__zero]; rfl, by simpa only [FDT_TAGSIZE, Nat.cast_ofNat] using h⟩]

/-- With no assumptions, at a word-aligned offset `fdt_check_*_offset_` compares the tag
`fdt_next_tag` returns with the one it wants. -/
theorem fdtCheckTagOffset__of_nextTag {want tag : UInt32} (h0 : 0 ≤ offset.val)
    (h4 : offset.val % 4 = 0) (h : fdtNextTag 0 fdt offset = .ok (tag, next)) :
    fdtCheckTagOffset_ 0 fdt want offset =
      .ok (if tag = want then next else CInt.ofInt (-FDT_ERR_BADOFFSET)) := by
  unfold fdtCheckTagOffset_
  rw [if_neg (by simp only [canAssume__zero, FDT_TAGSIZE]; omega)]
  simp only [h, bind, Except.bind, pure, Except.pure, ite_not]
  split_ifs <;> rfl

theorem fdtCheckNodeOffset__of_nextTag (h0 : 0 ≤ offset.val) (h4 : offset.val % 4 = 0)
    (h : fdtNextTag 0 fdt offset = .ok (FDT_BEGIN_NODE, next)) :
    fdtCheckNodeOffset_ 0 fdt offset = .ok next := by
  rw [fdtCheckNodeOffset_, fdtCheckTagOffset__of_nextTag h0 h4 h, if_pos rfl]

/-- From a node, `fdt_next_node` runs its loop after the node's `FDT_BEGIN_NODE` record. -/
theorem fdtNextNode_of_checkNodeOffset {m : Nat} (h0 : 0 ≤ offset.val)
    (hc : fdtCheckNodeOffset_ m fdt offset = .ok next) (hn : 0 ≤ next.val) :
    fdtNextNode m fdt fuel offset depth = doWhile (fdtNextNodeBody m fdt) fuel (next, depth) := by
  simp [fdtNextNode, h0, hc, bind, Except.bind, not_lt.mpr hn, pure, Except.pure]

/-- `fdt_first_subnode` after its `fdt_next_node` call. -/
theorem fdtFirstSubnode_of_nextNode {m : Nat} {o : CInt} {d : Option CInt}
    (h : fdtNextNode m fdt fuel offset (some (CInt.ofInt 0)) = .ok (o, d)) :
    fdtFirstSubnode m fdt fuel offset =
      .ok (if o.val < 0 ∨ d ≠ some (CInt.ofInt 1) then CInt.ofInt (-FDT_ERR_NOTFOUND) else o) := by
  simp only [fdtFirstSubnode, h, bind, Except.bind, pure, Except.pure]
  split_ifs <;> rfl

/-- A pass of the loop of `fdt_next_subnode` after its `fdt_next_node` call. -/
theorem fdtNextSubnodeBody_of_nextNode {m : Nat} {s : CInt × CInt} {o : CInt} {d : Option CInt}
    (h : fdtNextNode m fdt fuel s.1 (some s.2) = .ok (o, d)) :
    fdtNextSubnodeBody m fdt fuel s =
      .ok (if o.val < 0 ∨ (d.getD s.2).val < 1 then .ret (CInt.ofInt (-FDT_ERR_NOTFOUND))
        else if (d.getD s.2).val > 1 then .next (o, d.getD s.2) else .ret o) := by
  simp only [fdtNextSubnodeBody, h, bind, Except.bind, pure, Except.pure]
  split_ifs <;> rfl

/-- From a negative offset, `fdt_next_node` runs its loop from offset 0. -/
theorem fdtNextNode_of_neg {m : Nat} (h : offset.val < 0) :
    fdtNextNode m fdt fuel offset depth =
      doWhile (fdtNextNodeBody m fdt) fuel (CInt.ofInt 0, depth) := by
  simp [fdtNextNode, not_le.mpr h]

theorem notFound_val : (CInt.ofInt (-FDT_ERR_NOTFOUND)).val = -1 :=
  CInt.ofInt_val (by decide) (by decide)

theorem badOffset_val : (CInt.ofInt (-FDT_ERR_BADOFFSET)).val = -4 :=
  CInt.ofInt_val (by decide) (by decide)

/-- The `switch` of `fdt_next_node` goes round again only past a record that is not `FDT_END`,
at the offset `fdt_next_tag` returned. -/
theorem fdtNextNodeSwitch_eq_next {tag : UInt32} {p : CInt × Option CInt}
    (h : fdtNextNodeSwitch offset depth tag next = .next p) : tag ≠ FDT_END ∧ p.1 = next := by
  by_cases h1 : tag = FDT_PROP ∨ tag = FDT_NOP
  · rw [fdtNextNodeSwitch_skip h1] at h
    cases h
    exact ⟨by rcases h1 with rfl | rfl <;> decide, rfl⟩
  by_cases h2 : tag = FDT_BEGIN_NODE
  · subst h2
    rw [fdtNextNodeSwitch_beginNode] at h
    cases h
  by_cases h3 : tag = FDT_END_NODE
  · subst h3
    rw [fdtNextNodeSwitch_endNode] at h
    refine ⟨by decide, ?_⟩
    rcases depth with _ | d
    · cases h; rfl
    · dsimp only at h
      split at h <;> cases h
      rfl
  unfold fdtNextNodeSwitch at h
  rw [if_neg h1, if_neg h2, if_neg h3] at h
  split at h
  · split at h <;> cases h
  · cases h
    exact ⟨‹_›, rfl⟩

/-- The `switch` of `fdt_next_node` leaves with the node at `offset` on `FDT_BEGIN_NODE`, with
the offset past an `FDT_END_NODE` that took the depth below 0, or with a negative value. -/
theorem fdtNextNodeSwitch_eq_ret {tag : UInt32} {r : CInt × Option CInt}
    (h : fdtNextNodeSwitch offset depth tag next = .ret r) :
    (r.1 = offset ∧ tag = FDT_BEGIN_NODE) ∨
      (r.1 = next ∧ tag = FDT_END_NODE ∧ ∃ d, r.2 = some d ∧ d.val < 0) ∨ r.1.val < 0 := by
  by_cases h1 : tag = FDT_PROP ∨ tag = FDT_NOP
  · rw [fdtNextNodeSwitch_skip h1] at h
    cases h
  by_cases h2 : tag = FDT_BEGIN_NODE
  · subst h2
    rw [fdtNextNodeSwitch_beginNode] at h
    cases h
    exact .inl ⟨rfl, rfl⟩
  by_cases h3 : tag = FDT_END_NODE
  · subst h3
    rw [fdtNextNodeSwitch_endNode] at h
    rcases depth with _ | d
    · cases h
    · dsimp only at h
      split at h <;> cases h
      exact .inr (.inl ⟨rfl, rfl, _, rfl, ‹_›⟩)
  unfold fdtNextNodeSwitch at h
  rw [if_neg h1, if_neg h2, if_neg h3] at h
  split at h
  · split at h <;> cases h
    · exact .inr (.inr (by rw [notFound_val]; decide))
    · exact .inr (.inr (not_le.mp (not_or.mp ‹_›).1))
  · cases h

/-- From a node offset that `fdt_check_node_offset_` rejects, `fdt_next_node` returns the error. -/
theorem fdtNextNode_of_checkNodeOffset_neg {m : Nat} {v : CInt} (h0 : 0 ≤ offset.val)
    (hc : fdtCheckNodeOffset_ m fdt offset = .ok v) (hv : v.val < 0) :
    fdtNextNode m fdt fuel offset depth = .ok (v, depth) := by
  simp [fdtNextNode, h0, hc, bind, Except.bind, hv, pure, Except.pure]

end

end DtbOverlay

namespace DtbOverlay

theorem wrapBlob_root_offset :
    fdtCheckNodeOffset_ 0 wrapBlob (CInt.ofInt 0) = .ok (CInt.ofInt 8) := by
  have hskip : fdtSkipName 0 wrapBlob (CInt.ofInt ((CInt.ofInt 0).val + FDT_TAGSIZE)) =
      (some 44, CInt.ofInt 5) := by
    rw [@fdtSkipName_of_nul 0 wrapBlob _ 44] <;> decide
  unfold fdtCheckNodeOffset_ fdtCheckTagOffset_ fdtNextTag fdtNextTagSwitch
  rw [hskip]
  decide

theorem wrapBlob_body_loops (depth : Option CInt) :
    fdtNextNodeBody 0 wrapBlob (CInt.ofInt 8, depth) = .ok (.next (CInt.ofInt 8, depth)) := by
  rw [fdtNextNodeBody_of_nextTag wrapBlob_prop_loops, fdtNextNodeSwitch_skip (Or.inl rfl)]

/-- On `wrapBlob`, which `fdt_check_header` accepts, `fdt_next_node` from the root and
`fdt_first_subnode` of the root never return: the loop revisits the `FDT_PROP` record at
offset 8 forever. -/
theorem fdtNextNode_wrapBlob_diverges :
    fdtCheckHeader 0 wrapBlob = 0 ∧
      (∀ fuel depth, fdtNextNode 0 wrapBlob fuel (CInt.ofInt 0) depth = .error .outOfFuel) ∧
      ∀ fuel, fdtFirstSubnode 0 wrapBlob fuel (CInt.ofInt 0) = .error .outOfFuel := by
  have hnode : ∀ fuel depth,
      fdtNextNode 0 wrapBlob fuel (CInt.ofInt 0) depth = .error .outOfFuel := by
    intro fuel depth
    simp only [fdtNextNode, wrapBlob_root_offset]
    exact doWhile_fixpoint (wrapBlob_body_loops depth) fuel
  refine ⟨wrapBlob_accepted, hnode, fun fuel => ?_⟩
  simp [fdtFirstSubnode, hnode, bind, Except.bind]

end DtbOverlay
