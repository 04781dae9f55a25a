import DtbOverlay.Traversal

/-! `fdt_first_subnode` and `fdt_next_subnode` over a block that holds a tree: from any node
they return its direct children in document order and then `-FDT_ERR_NOTFOUND`. Both run
`fdt_next_node` with a depth counter; `fdt_next_subnode` goes past the subtree of a child,
whose nodes lie deeper than 1, to the next node at depth 1. -/
namespace DtbOverlay

section Bounds
variable (old : Bool)

mutual
/-- Each node of a subtree lies inside the subtree's records, at or below its root's depth. -/
theorem Node.nodesAt_bounds : ∀ (n : Node) {b j : Nat} {e : Node × Nat × Nat},
    e ∈ n.nodesAt old b j →
      j ≤ e.2.2 ∧ e.2.2 < j + n.body.length ∧ e.2.1 < endOffset old b n.body
  | .mk nops name props children endNops, b, j, e, he => by
    have hb := le_endOffset old b (Node.mk nops name props children endNops).body
    have hl := congrArg List.length (Node.body_mk nops name props children endNops [])
    simp only [List.append_nil, List.length_append, List.length_replicate, List.length_cons,
      List.length_nil] at hl
    simp only [Node.nodesAt, List.mem_cons] at he
    rcases he with rfl | he
    · refine ⟨le_refl _, ?_, ?_⟩ <;> dsimp only <;> omega
    · obtain ⟨h1, h2, h3⟩ := Node.forestNodesAt_bounds children he
      have he' : endOffset old (endOffset old b (.beginNode name :: props.flatMap Property.records))
          (Node.forestRecords children) ≤ endOffset old b (Node.mk nops name props children endNops).body := by
        have := congrArg (endOffset old b) (Node.body_mk nops name props children endNops [])
        simp only [List.append_nil] at this
        rw [this, endOffset_cons, endOffset_cons, endOffset_append, endOffset_append]
        have := le_endOffset old (endOffset old (endOffset old (b + (Record.beginNode name).size old b)
          (props.flatMap Property.records)) (Node.forestRecords children))
          (List.replicate endNops Record.nop ++ [Record.endNode])
        omega
      exact ⟨by omega, by omega, by omega⟩

theorem Node.forestNodesAt_bounds : ∀ (cs : List Node) {o j : Nat} {e : Node × Nat × Nat},
    e ∈ Node.forestNodesAt old cs o j →
      j ≤ e.2.2 ∧ e.2.2 < j + (Node.forestRecords cs).length ∧
        e.2.1 < endOffset old o (Node.forestRecords cs)
  | [], _, _, _, he => absurd he (List.not_mem_nil _)
  | c :: cs, o, j, e, he => by
    have hr := Node.forestRecords_cons c cs []
    simp only [List.append_nil] at hr
    rw [hr, List.length_append, endOffset_append]
    have hc := le_endOffset old (endOffset old o c.records) (Node.forestRecords cs)
    rcases List.mem_append.mp he with he | he
    · obtain ⟨h1, h2, h3⟩ := Node.nodesAt_bounds c he
      rw [Node.records_eq, endOffset_append, endOffset_replicate_nop] at hc ⊢
      simp only [Node.records_eq, List.length_append] at h2 ⊢
      omega
    · obtain ⟨h1, h2, h3⟩ := Node.forestNodesAt_bounds cs he
      omega
end

mutual
/-- A subtree has fewer nodes than records. -/
theorem Node.length_nodesAt : ∀ (n : Node) (b j : Nat), (n.nodesAt old b j).length < n.body.length
  | .mk nops name props children endNops, b, j => by
    have hl := congrArg List.length (Node.body_mk nops name props children endNops [])
    have := Node.length_forestNodesAt children
      (endOffset old b (.beginNode name :: props.flatMap Property.records)) (j + 1)
    simp only [List.append_nil, List.length_append, List.length_replicate, List.length_cons,
      List.length_nil] at hl
    simp only [Node.nodesAt, List.length_cons]
    omega

theorem Node.length_forestNodesAt : ∀ (cs : List Node) (o j : Nat),
    (Node.forestNodesAt old cs o j).length ≤ (Node.forestRecords cs).length
  | [], _, _ => le_refl _
  | c :: cs, o, j => by
    have hr := Node.forestRecords_cons c cs []
    simp only [List.append_nil] at hr
    have := Node.length_nodesAt c (o + 4 * c.nops) j
    have := Node.length_forestNodesAt cs (endOffset old o c.records) j
    have hc : c.records.length = c.nops + c.body.length := by
      simp [Node.records_eq]
    simp only [Node.forestNodesAt, hr, List.length_append]
    omega
end

end Bounds

/-- The offsets of a node's direct children, its `FDT_BEGIN_NODE` being at `b`: the nodes one
level below it. -/
def Node.childOffsets (old : Bool) (p : Node) (b : Nat) : List CInt :=
  ((p.nodesAt old b 0).filter (·.2.2 == 1)).map fun e => CInt.ofInt e.2.1

/-- The offsets of the `FDT_BEGIN_NODE` records of the trees of a forest written from `o`. -/
def Node.forestStarts (old : Bool) : List Node → Nat → List CInt
  | [], _ => []
  | c :: cs, o =>
    CInt.ofInt ((o + 4 * c.nops : Nat) : Int) :: Node.forestStarts old cs (endOffset old o c.records)

/-- Listed from depth 1, the nodes of a forest at depth 1 are the roots of its trees. -/
theorem Node.filter_forestNodesAt (old : Bool) : ∀ (cs : List Node) (o : Nat),
    ((Node.forestNodesAt old cs o 1).filter (·.2.2 == 1)).map (fun e => CInt.ofInt e.2.1) =
      Node.forestStarts old cs o
  | [], _ => rfl
  | c :: cs, o => by
    have hdeep : ∀ g ∈ Node.forestNodesAt old c.children (c.childrenStart old (o + 4 * c.nops)) 2,
        ¬(g.2.2 == 1) = true := fun g hg => by
      have := (Node.forestNodesAt_bounds old c.children hg).1
      simp only [beq_iff_eq]; omega
    rw [Node.forestNodesAt, Node.nodesAt_eq, List.cons_append, List.filter_cons_of_pos (by simp),
      List.filter_append, List.filter_eq_nil_iff.mpr hdeep, List.nil_append, List.map_cons,
      Node.filter_forestNodesAt old cs, Node.forestStarts]

/-- A node's children, read off the tree: one offset per child, in order. -/
theorem Node.childOffsets_eq (old : Bool) (p : Node) (b : Nat) :
    p.childOffsets old b = Node.forestStarts old p.children (p.childrenStart old b) := by
  rw [Node.childOffsets, Node.nodesAt_eq, List.filter_cons_of_neg (by simp),
    Node.filter_forestNodesAt]

/-- What `fdt_first_subnode` and `fdt_next_subnode` return once `fdt_next_node` has returned a
node at depth 1 or left the parent at depth -1. -/
def subnodeResult (y : CInt × Option CInt) : CInt :=
  if y.2 = some (CInt.ofInt 1) then y.1 else CInt.ofInt (-FDT_ERR_NOTFOUND)

section Loop
variable {fdt : Blob} (F : Nat)

/-- The loop of `fdt_next_subnode` goes past nodes deeper than 1 and stops at the first call of
`fdt_next_node` that returns depth 1 or less. -/
theorem subnodeLoop_of_yields : ∀ {G : List (Node × Nat × Nat)} {x : CInt × CInt}
    {y : CInt × Option CInt} {M : Nat},
    Yields (fun e => fdtNextNode 0 fdt F e.1 e.2) (fdtNextNode 0 fdt F x.1 (some x.2))
      (G.map (nodeEntry true)) (.ok y) →
    (∀ g ∈ G, 2 ≤ g.2.2 ∧ g.2.2 < 2 ^ 31 ∧ g.2.1 < 2 ^ 31) → 0 ≤ y.1.val →
    (y.2 = some (CInt.ofInt 1) ∨ y.2 = some (CInt.ofInt (-1))) → G.length < M →
    doWhile (fdtNextSubnodeBody 0 fdt F) M x = .ok (subnodeResult y)
  | [], x, (o, d), M + 1, hy, _, hy0, hy2, _ => by
    refine doWhile_ret ((fdtNextSubnodeBody_of_nextNode hy).trans ?_)
    rcases hy2 with rfl | rfl
    · rw [Option.getD_some, if_neg (by simp only [not_or, not_lt]; exact ⟨hy0, by decide⟩),
        if_neg (by decide)]
      simp only [subnodeResult, if_true]
    · simp only [Option.getD_some, subnodeResult, if_neg (by decide : ¬ some (CInt.ofInt (-1)) = some (CInt.ofInt 1))]
      rw [if_pos (Or.inr (by decide))]
  | g :: G, x, y, M + 1, hy, hG, hy0, hy2, hM => by
    obtain ⟨hg1, hg2, hg3⟩ := hG g (List.mem_cons_self g G)
    have hd := CInt.ofInt_natCast_val hg2
    have hb := fdtNextSubnodeBody_of_nextNode hy.1
    simp only [nodeEntry, depthAt, ↓reduceIte, Option.getD_some, hd,
      CInt.ofInt_natCast_val hg3] at hb
    rw [if_neg (by omega), if_pos (by omega)] at hb
    rw [doWhile_next hb]
    exact subnodeLoop_of_yields hy.2 (fun g' hg' => hG g' (List.mem_cons_of_mem g hg')) hy0 hy2
      (by simp only [List.length_cons] at hM; omega)

theorem head?_append_singleton {α : Type} (l : List α) (a : α) :
    (l ++ [a]).head? = some (l.headD a) := by
  cases l <;> rfl

variable {old : Bool}

/-- Over the subtrees of a node's children, whose walk starts from the result `X` and ends
leaving the node at depth -1: `X` is the first child, or the exit when there is none, and from
each child `fdt_next_subnode` returns the next one and, after the last, `-FDT_ERR_NOTFOUND`. -/
theorem children_chain : ∀ (cs : List Node) {o : Nat} {X : Except Fault (CInt × Option CInt)}
    {z : CInt},
    Yields (fun e => fdtNextNode 0 fdt F e.1 e.2) X
      ((Node.forestNodesAt old cs o 1).map (nodeEntry true)) (.ok (z, some (CInt.ofInt (-1)))) →
    0 ≤ z.val → (∀ e ∈ Node.forestNodesAt old cs o 1, e.2.2 < 2 ^ 31 ∧ e.2.1 < 2 ^ 31) →
    (Node.forestNodesAt old cs o 1).length < F →
    ∃ y, X = .ok y ∧ 0 ≤ y.1.val ∧ (y.2 = some (CInt.ofInt 1) ∨ y.2 = some (CInt.ofInt (-1))) ∧
      subnodeResult y = (Node.forestStarts old cs o).headD (CInt.ofInt (-FDT_ERR_NOTFOUND)) ∧
      List.Chain' (fun a c => fdtNextSubnode 0 fdt F a = .ok c)
        (Node.forestStarts old cs o ++ [CInt.ofInt (-FDT_ERR_NOTFOUND)])
  | [], o, X, z, hy, hz, _, _ => ⟨_, hy, hz, .inr rfl,
    if_neg (show some (CInt.ofInt (-1)) ≠ some (CInt.ofInt 1) by decide), List.chain'_singleton _⟩
  | c :: cs, o, X, z, hy, hz, hb, hF => by
    have hsplit : Node.forestNodesAt old (c :: cs) o 1 = (c, o + 4 * c.nops, 1) ::
        (Node.forestNodesAt old c.children (c.childrenStart old (o + 4 * c.nops)) 2 ++
          Node.forestNodesAt old cs (endOffset old o c.records) 1) := by
      rw [Node.forestNodesAt, Node.nodesAt_eq, List.cons_append]
    rw [hsplit] at hy hb hF
    simp only [List.length_cons, List.length_append] at hF
    have hdeep : ∀ g ∈ Node.forestNodesAt old c.children (c.childrenStart old (o + 4 * c.nops)) 2,
        2 ≤ g.2.2 := fun g hg => (Node.forestNodesAt_bounds old c.children hg).1
    obtain ⟨hX, hrest⟩ := hy
    rw [List.map_append] at hrest
    obtain ⟨Y, hG, hR⟩ := Yields.split hrest
    obtain ⟨y', hY, hy'0, hy'2, hres, hchain⟩ := children_chain cs hR hz
      (fun e he => hb e (List.mem_cons_of_mem _ (List.mem_append_right _ he))) (by omega)
    obtain ⟨-, hb2⟩ := hb _ (List.mem_cons_self _ _)
    rw [Node.forestStarts, List.cons_append]
    refine ⟨nodeEntry true (c, o + 4 * c.nops, 1), hX, ?_, .inl rfl, if_pos rfl,
      List.chain'_cons'.mpr ⟨?_, hchain⟩⟩
    · simp only [nodeEntry, CInt.ofInt_natCast_val hb2]; omega
    · rw [head?_append_singleton, ← hres]
      rintro _ ⟨⟩
      subst hY
      exact subnodeLoop_of_yields F (x := (CInt.ofInt ((o + 4 * c.nops : Nat) : Int), CInt.ofInt 1))
        hG (fun g hg => ⟨hdeep g hg, hb g (List.mem_cons_of_mem _ (List.mem_append_left _ hg))⟩)
        hy'0 hy'2 (by omega)

end Loop

/-- From a node whose subtree the blob holds, `fdt_first_subnode` returns its first child, or
`-FDT_ERR_NOTFOUND` when it has none, and `fdt_next_subnode` goes from each child to the next
and from the last to `-FDT_ERR_NOTFOUND`. -/
theorem fdtSubnodes_of_holds {fdt : Blob} (hts : (fdtTotalsize fdt).toNat ≤ INT_MAX) {p : Node}
    {b : Nat} {rest : List Record} (h : Holds fdt b (p.body ++ rest)) (F : Nat)
    (hF : (p.body ++ rest).length ≤ F) :
    fdtFirstSubnode 0 fdt F (CInt.ofInt b) =
        .ok ((p.childOffsets (legacy fdt) b).headD (CInt.ofInt (-FDT_ERR_NOTFOUND))) ∧
      List.Chain' (fun a c => fdtNextSubnode 0 fdt F a = .ok c)
        (p.childOffsets (legacy fdt) b ++ [CInt.ofInt (-FDT_ERR_NOTFOUND)]) := by
  have hend : endOffset (legacy fdt) b (p.body ++ rest) < 2 ^ 31 := h.inStruct.lt_two_pow hts
  rw [endOffset_append] at hend
  have hrest := le_endOffset (legacy fdt) (endOffset (legacy fdt) b p.body) rest
  have hbody := le_endOffset (legacy fdt) b p.body
  simp only [List.length_append] at hF
  have hlen := Node.length_nodesAt (legacy fdt) p b 0
  have hmem : ∀ e ∈ Node.forestNodesAt (legacy fdt) p.children (p.childrenStart (legacy fdt) b) 1,
      e ∈ p.nodesAt (legacy fdt) b 0 := fun e he => by
    rw [Node.nodesAt_eq]; exact List.mem_cons_of_mem _ he
  rw [Node.nodesAt_eq, List.length_cons, Nat.zero_add] at hlen
  obtain ⟨y, hX, hy0, hy2, hres, hchain⟩ := children_chain F p.children
    (fdtNextNode_children_yields hts h F (by simp only [List.length_append]; omega))
    (by rw [CInt.ofInt_natCast_val (by omega)]; omega)
    (fun e he => by
      obtain ⟨-, h2, h3⟩ := Node.nodesAt_bounds (legacy fdt) p (hmem e he)
      exact ⟨by omega, by omega⟩)
    (by omega)
  rw [Node.childOffsets_eq, ← hres]
  refine ⟨?_, hchain⟩
  rw [fdtFirstSubnode_of_nextNode hX, subnodeResult]
  rcases hy2 with hy2 | hy2 <;> simp only [hy2, not_lt.mpr hy0, false_or, ne_eq, not_true_eq_false,
    ↓reduceIte, reduceCtorEq]
  simp only [Option.some.injEq, show CInt.ofInt (-1) ≠ CInt.ofInt 1 by decide, not_false_eq_true,
    ↓reduceIte]

/-- With no assumptions, on a blob that `fdt_check_header` accepts and whose structure block
holds a tree, for every node: `fdt_first_subnode` returns the offset of its first child (or
`-FDT_ERR_NOTFOUND` if it has none), and `fdt_next_subnode` on each child returns the next
child in document order and, after the last, `-FDT_ERR_NOTFOUND`. Any `fuel` of at least the
number of records is enough for every call. -/
theorem fdtSubnodes_children (root : Node) (nops : Nat) (fdt : Blob)
    (hacc : fdtCheckHeader 0 fdt = 0) (h : Holds fdt 0 (blockRecords root nops)) (F : Nat)
    (hF : (blockRecords root nops).length ≤ F) :
    ∀ e ∈ root.nodesAt (legacy fdt) (4 * root.nops) 0,
      fdtFirstSubnode 0 fdt F (CInt.ofInt e.2.1) =
          .ok ((e.1.childOffsets (legacy fdt) e.2.1).headD (CInt.ofInt (-FDT_ERR_NOTFOUND))) ∧
        List.Chain' (fun a c => fdtNextSubnode 0 fdt F a = .ok c)
          (e.1.childOffsets (legacy fdt) e.2.1 ++ [CInt.ofInt (-FDT_ERR_NOTFOUND)]) := by
  intro e he
  have hb : Holds fdt 0 (root.records ++ (List.replicate nops .nop ++ [.end_])) := by
    rw [← List.append_assoc]; exact h
  obtain ⟨rest, h', hl⟩ := Node.holds_of_mem_nodesAt root hb (by rwa [Nat.zero_add])
  exact fdtSubnodes_of_holds (fdtTotalsize_le_of_accepted hacc) h' F (hl.trans (by
    simp only [blockRecords, List.length_append] at hF ⊢; omega))

/-- The subnode iteration on `sampleBlob`, with fuel for its seven records. -/
theorem fdtSubnodes_sampleTree :
    fdtCheckHeader 0 sampleBlob = 0 ∧ Holds sampleBlob 0 (blockRecords sampleTree 0) ∧
      (blockRecords sampleTree 0).length ≤ 7 ∧
      ∀ e ∈ sampleTree.nodesAt (legacy sampleBlob) (4 * sampleTree.nops) 0,
        fdtFirstSubnode 0 sampleBlob 7 (CInt.ofInt e.2.1) =
            .ok ((e.1.childOffsets (legacy sampleBlob) e.2.1).headD
              (CInt.ofInt (-FDT_ERR_NOTFOUND))) ∧
          List.Chain' (fun a c => fdtNextSubnode 0 sampleBlob 7 a = .ok c)
            (e.1.childOffsets (legacy sampleBlob) e.2.1 ++ [CInt.ofInt (-FDT_ERR_NOTFOUND)]) :=
  ⟨sampleBlob_accepted, sampleBlob_holds, by decide,
    fdtSubnodes_children sampleTree 0 sampleBlob sampleBlob_accepted sampleBlob_holds 7
      (by decide)⟩

end DtbOverlay
